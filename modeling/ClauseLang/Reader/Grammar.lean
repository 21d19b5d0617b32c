import ClauseLang.Expr.Names
import ClauseLang.Reader.Combinator
import ClauseLang.Source.Comment
import ClauseLang.Source.Quoted
import ClauseLang.Source.Word

/-!
The grammar.

```text
expression := "let" ident "=" expression expression
            | "{" clause+ "}" | "(" expression* ")" | "[" expression* "]"
            | ident | operator | label | string | integer
clause     := formal+ "->" expression | "=>" expression | formal+
formal     := ident (":" expression | "::" expression)?
            | "[" simple ":" simple "]" | "[" expression* "]" | label | string | integer
simple     := a formal without a guard
```

A rule that uses expressions takes the reader for them as an argument; `expression` ties the knot.
-/

namespace ClauseLang

namespace Reader

def ident : Reader String :=
  accept (fun token => match token.lexeme with
    | .ident text => some text
    | _ => none) "identifier"

def operator : Reader String :=
  accept (fun token => match token.lexeme with
    | .operator text => some text
    | _ => none) "operator"

def label : Reader Expr :=
  accept (fun token => match token.lexeme with
    | .label text => some (.label (String.ofList (text.toList.dropWhile (· == '.'))))
    | _ => none) "label"

def string : Reader Expr :=
  accept (fun token => match token.lexeme with
    | .quoted text => some (.text (Source.unquote text))
    | _ => none) "string"

/-- An integer has to be a word. -/
def integer : Reader Expr := do
  let (numeral, span) ← accept (fun token => match token.lexeme with
    | .integer text => some (text, token.span)
    | _ => none) "integer"
  match Source.readWord? numeral with
  | some n => return .number n
  | none => refuse { problem := .integerOutOfRange numeral, position := some span }

def literal : Reader Expr :=
  either (either label string) integer

/-- Operators are names like any other. -/
def atom : Reader Expr :=
  named "expression" (either (Expr.identifier <$> either ident operator) literal)

/-- A binding in front of an expression. Bindings in a row make one `letIn`. -/
def bindFirst (name : String) (value : Expr) : Expr → Expr
  | .letIn names values body => .letIn (name :: names) (value :: values) body
  | body => .letIn [name] [value] body

def letIn (expr : Reader Expr) : Reader Expr := do
  let _ ← word .letWord
  let name ← named "binding name" ident
  let _ ← word .equals
  let value ← expr
  let body ← expr
  return bindFirst name value body

def application (expr : Reader Expr) : Reader Expr := do
  let _ ← word .lparen
  let items ← many expr
  let _ ← word .rparen
  return .application items

def list (expr : Reader Expr) : Reader Expr := do
  let _ ← word .lbracket
  let items ← many expr
  let _ ← word .rbracket
  return .list items

def condition (expr : Reader Expr) : Reader (Expr × Bool) :=
  either
    (do let _ ← word .colon; return (← expr, false))
    (do let _ ← word .doubleColon; return (← expr, true))

def guardedName (expr : Reader Expr) : Reader Expr := do
  let name ← ident
  match ← optional (condition expr) with
  | some (cond, constant) => return .guarded (.identifier name) cond constant
  | none => return .identifier name

def cons (simple : Reader Expr) : Reader Expr := do
  let _ ← word .lbracket
  let head ← simple
  let _ ← word .colon
  let tail ← simple
  let _ ← word .rbracket
  return .cons head tail

/-- Reading that has used up its bound. Bounds are such that this does not happen. -/
def stuck {α : Type} : Reader α := fun s =>
  .error (s.errorHere .unexpectedToken) s

def simpleWithin (expr : Reader Expr) : Nat → Reader Expr
  | 0, s => stuck s
  | n + 1, s =>
    match s.peek?.map Token.lexeme with
    | some (.ident _) => (Expr.identifier <$> ident : Reader Expr) s
    | some .lbracket => either (cons (simpleWithin expr n)) (list expr) s
    | _ => literal s

def simple (expr : Reader Expr) : Reader Expr :=
  within (simpleWithin expr)

def formal (expr : Reader Expr) : Reader Expr := do
  match ← nextLexeme? with
  | some (.ident _) => guardedName expr
  | some .lbracket => either (cons (simple expr)) (list expr)
  | _ => literal

/-- A row of formals, with its body if it has one. -/
structure RawClause where
  row : List Expr
  body : Option Expr

namespace RawClause

def toClause (raw : RawClause) : Clause :=
  .mk raw.row (raw.body.getD .truthy)

end RawClause

def openRow (arity : Nat) : List Expr :=
  List.replicate arity (.identifier discard)

/-- The default clause. Its row is as long as that of the first clause. -/
def defaultClause (expr : Reader Expr) (first : Option Nat) : Reader RawClause := do
  match first with
  | none => refuse { problem := .defaultFirst, position := (← get).peek?.map Token.span }
  | some arity =>
    let _ ← word .fatArrow
    return ⟨openRow arity, some (← expr)⟩

def plainClause (expr : Reader Expr) : Reader RawClause := do
  let row ← named "match" (many1 (formal expr))
  match ← nextLexeme? with
  | some .arrow =>
    let _ ← word .arrow
    return ⟨row, some (← expr)⟩
  | _ => return ⟨row, none⟩

/-- The clauses up to a closing brace or the end of the text. `first` is the length of the first
row, if there is one. -/
def clausesWithin (expr : Reader Expr) (first : Option Nat) : Nat → Reader (List RawClause)
  | 0 => stuck
  | n + 1 => do
    match ← nextLexeme? with
    | none | some .rbrace => return []
    | some .fatArrow =>
      let clause ← defaultClause expr first
      return clause :: (← clausesWithin expr first n)
    | some _ =>
      let clause ← plainClause expr
      return clause :: (← clausesWithin expr (first.or (some clause.row.length)) n)

/-- The clauses that were written mean these. A row without a body is a test: it has to stand alone,
and says whether it matches. -/
def finishClauses (raws : List RawClause) : Except Problem (List Clause) :=
  match raws with
  | [] => .error .noClauses
  | [⟨row, none⟩] => .ok [.mk row .truthy, .mk (openRow row.length) .falsy]
  | raws =>
    if raws.any (·.body.isNone) then
      .error .bareClause
    else
      match commonArity (raws.map RawClause.toClause) with
      | .error rows => .error (.unevenRows rows)
      | .ok _ => .ok (raws.map RawClause.toClause)

def pattern (expr : Reader Expr) : Reader Expr := do
  let brace ← word .lbrace
  let raws ← within (clausesWithin expr none)
  let _ ← word .rbrace
  match finishClauses raws with
  | .ok clauses => return .pattern clauses []
  | .error problem => refuse { problem, position := some brace.span }

def level (expr : Reader Expr) : Reader Expr := do
  match ← nextLexeme? with
  | some .letWord => letIn expr
  | some .lbrace => pattern expr
  | some .lparen => application expr
  | some .lbracket => list expr
  | _ => atom

def expressionWithin : Nat → Reader Expr
  | 0, s => stuck s
  | n + 1, s => level (expressionWithin n) s

def expression : Reader Expr :=
  within expressionWithin

/-- An expression that takes up all tokens. The error is the furthest one found, except that a check
on a complete construct, which expects nothing, stands for itself. -/
def program : Reader Expr := fun s =>
  match expression s with
  | .ok e s' =>
    if s'.hasNext then
      match s'.furthest with
      | some (index, known) =>
        if s'.index < index then .error known s' else .error (s'.errorHere .trailingToken) s'
      | none => .error (s'.errorHere .trailingToken) s'
    else
      .ok e s'
  | .error e s' =>
    if e.expected.isEmpty then .error e s'
    else .error ((s'.furthest.map Prod.snd).getD e) s'

def ofTokens {α : Type} (p : Reader α) (tokens : List Token) : Except ParseError α :=
  match p (ReadState.ofTokens tokens) with
  | .ok a _ => .ok a
  | .error e _ => .error e

end Reader

def parse (source : String) : Except ParseError Expr :=
  match scan (Source.stripComments source) with
  | .error e => .error { problem := .unscannable e }
  | .ok tokens => Reader.program.ofTokens tokens

end ClauseLang
