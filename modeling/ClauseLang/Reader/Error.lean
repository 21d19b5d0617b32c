import ClauseLang.Expr.Basic
import ClauseLang.Token.Scan

namespace ClauseLang

/-- The cause of a failed reading. A `custom` one comes from a check outside the grammar. -/
inductive Problem where
  | unexpectedEnd
  | unexpectedToken
  | trailingToken
  | integerOutOfRange (numeral : String)
  | defaultFirst
  | noClauses
  | bareClause
  | unevenRows (rows : UnevenRows)
  | unscannable (error : ScanError)
  | custom (message : String)
deriving DecidableEq

def Problem.message : Problem → String
  | .unexpectedEnd => "unexpected end of input"
  | .unexpectedToken => "unexpected token"
  | .trailingToken => "unexpected token after end of program"
  | .integerOutOfRange numeral => "integer literal " ++ numeral ++ " is out of range"
  | .defaultFirst => "a default clause cannot be the first clause"
  | .noClauses => "a pattern needs at least one clause"
  | .bareClause => "a clause without '->' must be the only clause of its pattern"
  | .unevenRows rows => rows.message
  | .unscannable error => "lexing failed: " ++ error.message
  | .custom message => message

/-- A problem with what would have been right, what stood there instead, and where. -/
structure ParseError where
  problem : Problem
  expected : List String := []
  found : Option String := none
  position : Option Span := none
deriving DecidableEq

namespace ParseError

def summary (e : ParseError) : String :=
  e.problem.message ++
    (if e.expected.isEmpty then "" else ": expected " ++ String.intercalate " or " e.expected) ++
    (match e.found with
      | none => ""
      | some found => ", found " ++ found)

/-- The sentence, under the excerpt that it is about. There is no report if the position does not
lie in its text. -/
def report? (e : ParseError) : Option String :=
  match e.position with
  | none => some e.summary
  | some span => if span.source.isEmpty then some e.summary else span.excerpt? e.summary

end ParseError

end ClauseLang
