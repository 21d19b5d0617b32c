namespace ClauseLang

/-- A line and a column, both from zero. The column counts bytes, so it is a place in a line only if a
character begins or the line ends there. -/
@[ext]
structure Position where
  line : Nat
  column : Nat
deriving DecidableEq

structure Span where
  start : Position
  stop : Position
  source : String
deriving DecidableEq

namespace Source

def byteLength (cs : List Char) : Nat :=
  cs.foldl (fun n c => n + c.utf8Size) 0

/-- The lines of a text. A line ends at a newline, together with one carriage return before it.
What follows the last newline is a line only if it is not empty. -/
def lines : List Char → List (List Char)
  | [] => []
  | '\n' :: cs => [] :: lines cs
  | '\r' :: '\n' :: cs => [] :: lines cs
  | c :: cs =>
    match lines cs with
    | [] => [[c]]
    | line :: rest => (c :: line) :: rest

/-- What is left of a text after its first bytes, if no character is cut. -/
def dropBytes? : Nat → List Char → Option (List Char)
  | 0, cs => some cs
  | _ + 1, [] => none
  | n + 1, c :: cs => if c.utf8Size ≤ n + 1 then dropBytes? (n + 1 - c.utf8Size) cs else none

end Source

namespace Span

open Source

/-- The part of the span on its first line stands on character boundaries of that line. -/
def fits (span : Span) (line : List Char) : Bool :=
  match dropBytes? span.start.column line with
  | none => false
  | some rest =>
    span.start.line ≠ span.stop.line ||
      (span.start.column ≤ span.stop.column &&
        (dropBytes? (span.stop.column - span.start.column) rest).isSome)

/-- The line before the span, which is empty for a span that begins on the first line. -/
def lineBefore? (span : Span) (all : List (List Char)) : Option (List Char) :=
  if span.start.line = 0 then some [] else all[span.start.line - 1]?

/-- The lines after the first one that the span reaches, if the text has them all. -/
def linesAfter? (span : Span) (all : List (List Char)) : Option (List (List Char)) :=
  if span.stop.line ≤ span.start.line then some []
  else if span.stop.line < all.length then
    some ((all.drop (span.start.line + 1)).take (span.stop.line - span.start.line))
  else none

/-- The lines around a span with a note under its last character. There is none for a span that
does not lie in its text. -/
def excerpt? (span : Span) (note : String) : Option String := do
  let all := lines span.source.toList
  let before ← span.lineBefore? all
  let first ← all[span.start.line]?
  let after ← span.linesAfter? all
  if span.fits first && 0 < span.stop.column then
    let margin := String.ofList (List.replicate (Nat.toDigits 10 span.stop.line).length ' ') ++ " |"
    let marker := String.ofList (List.replicate (span.stop.column - 1) ' ') ++ "^--- "
    some (String.intercalate "\n" (
      [margin,
        margin ++ String.ofList before ++ " ",
        Nat.repr (span.start.line + 1) ++ " |" ++ String.ofList first] ++
      after.map (fun line => margin ++ String.ofList line) ++
      [Nat.repr (span.stop.line + 2) ++ " |" ++ marker ++ note,
        margin]))
  else
    none

end Span

end ClauseLang
