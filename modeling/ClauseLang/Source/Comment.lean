/-!
Comments run from a `#` outside a string to the end of the line. They are blanked in place, so that
nothing after them moves to another line.
-/

namespace ClauseLang.Source

/-- What the next character of a text belongs to. -/
inductive Region where
  | code
  | quoted (escaped : Bool)
  | comment
deriving DecidableEq

namespace Region

def next : Region → Char → Region
  | .comment, c => if c = '\n' then .code else .comment
  | .quoted true, _ => .quoted false
  | .quoted false, c => if c = '\\' then .quoted true else if c = '"' then .code else .quoted false
  | .code, c => if c = '#' then .comment else if c = '"' then .quoted false else .code

/-- What is left of a character: a comment leaves blanks and its line end. -/
def keep : Region → Char → Char
  | .comment, c => if c = '\n' then c else ' '
  | .quoted _, c => c
  | .code, c => if c = '#' then ' ' else c

end Region

/-- Blank the comments of a text that begins in the given region. -/
def blank : Region → List Char → List Char
  | _, [] => []
  | region, c :: cs => region.keep c :: blank (region.next c) cs

def stripComments (source : String) : String :=
  String.ofList (blank .code source.toList)

theorem length_blank (region : Region) (cs : List Char) : (blank region cs).length = cs.length := by
  induction cs generalizing region with
  | nil => rfl
  | cons c cs ih => simp [blank, ih]

end ClauseLang.Source
