import ClauseLang.Token.Basic

/-!
Scanning a text into tokens. At each place the longest lexeme is taken, and of two equally long ones
the rule that stands first.
-/

namespace ClauseLang

/-- No lexeme begins where `rest` does. -/
structure ScanError where
  source : String
  rest : String
deriving DecidableEq

/-- The byte at which scanning stopped. -/
def ScanError.offset (e : ScanError) : Nat :=
  e.source.utf8ByteSize - e.rest.utf8ByteSize

def ScanError.message (e : ScanError) : String :=
  "Failed to lex '" ++ e.source ++ "' at position " ++ Nat.repr e.offset ++
    "; remaining '" ++ e.rest ++ "'"

namespace Scan

/-- A class of lexemes: how many characters at the front of a text belong to one, with zero for
none, and the lexeme that they make. -/
structure Rule where
  extent : List Char → Nat
  lexeme : String → Lexeme

def isIdentStart (c : Char) : Bool :=
  c.isAlpha || c == '_'

def isIdentRest (c : Char) : Bool :=
  c.isAlphanum || c == '_'

def wordExtent (word : List Char) (cs : List Char) : Nat :=
  if word.isPrefixOf cs then word.length else 0

def identExtent : List Char → Nat
  | [] => 0
  | c :: cs => if isIdentStart c then (cs.takeWhile isIdentRest).length + 1 else 0

def operators : List (List Char) :=
  [['+', '+'], ['=', '='], ['!', '='], ['>', '='], ['<', '='], ['&', '&'], ['|', '|'],
    ['-'], ['+'], ['*'], ['/'], ['%'], ['<'], ['>']]

/-- The first operator in the list that the text begins with; those of two characters come first. -/
def operatorExtent (cs : List Char) : Nat :=
  ((operators.find? (·.isPrefixOf cs)).map List.length).getD 0

/-- A dot with at least one letter, digit or underscore after it. -/
def labelExtent : List Char → Nat
  | '.' :: cs =>
    let name := cs.takeWhile isIdentRest
    if name.isEmpty then 0 else name.length + 1
  | _ => 0

/-- The rest of a string after its opening quote, up to and with the closing one. An escape takes
any character but a newline. -/
def quotedRest? : List Char → Option Nat
  | [] => none
  | '"' :: _ => some 1
  | '\\' :: c :: cs => if c = '\n' then none else (quotedRest? cs).map (· + 2)
  | ['\\'] => none
  | _ :: cs => (quotedRest? cs).map (· + 1)

def quotedExtent : List Char → Nat
  | '"' :: cs => ((quotedRest? cs).map (· + 1)).getD 0
  | _ => 0

def digitsExtent (cs : List Char) : Nat :=
  (cs.takeWhile Char.isDigit).length

def integerExtent : List Char → Nat
  | '-' :: cs => if digitsExtent cs = 0 then 0 else digitsExtent cs + 1
  | cs => digitsExtent cs

def fixed (lexeme : Lexeme) : Rule :=
  ⟨wordExtent lexeme.text.toList, fun _ => lexeme⟩

def rules : List Rule :=
  [fixed .letWord, fixed .lbrace, fixed .rbrace, fixed .lparen, fixed .rparen, fixed .lbracket,
    fixed .rbracket, fixed .fatArrow, fixed .equals, fixed .arrow, fixed .doubleColon, fixed .colon,
    ⟨identExtent, .ident⟩, ⟨operatorExtent, .operator⟩, ⟨labelExtent, .label⟩,
    ⟨quotedExtent, .quoted⟩, ⟨integerExtent, .integer⟩]

/-- The longest lexeme at the front of a text under the given rules, with its length. -/
def longest (cs : List Char) : List Rule → Option (Nat × Lexeme)
  | [] => none
  | rule :: rest =>
    let n := rule.extent cs
    let here := (n, rule.lexeme (String.ofList (cs.take n)))
    match longest cs rest with
    | none => if n = 0 then none else some here
    | some later => if later.1 ≤ n then some here else some later

/-- White space separates lexemes: blanks, tabs, line ends and form feeds. -/
def isBlank (c : Char) : Bool :=
  c == ' ' || c == '\t' || c == '\n' || c == '\r' || c == '\x0c'

def pass (here : Position) (c : Char) : Position :=
  if c = '\n' then ⟨here.line + 1, 0⟩ else ⟨here.line, here.column + 1⟩

/-- Scan a text from a position on. `inside` characters at its front belong to a lexeme already
taken. A newline inside a string does not begin a new line. -/
def scanFrom (source : String) : Nat → Position → List Char → Except ScanError (List Token)
  | _, _, [] => .ok []
  | inside + 1, here, _ :: cs => scanFrom source inside here cs
  | 0, here, c :: cs =>
    if isBlank c then
      scanFrom source 0 (pass here c) cs
    else
      match longest (c :: cs) rules with
      | none => .error ⟨source, String.ofList (c :: cs)⟩
      | some (n, lexeme) => do
        let stop := ⟨here.line, here.column + Source.byteLength ((c :: cs).take n)⟩
        let rest ← scanFrom source (n - 1) stop cs
        return ⟨lexeme, ⟨here, stop, source⟩⟩ :: rest

end Scan

def scan (source : String) : Except ScanError (List Token) :=
  Scan.scanFrom source 0 ⟨0, 0⟩ source.toList

end ClauseLang
