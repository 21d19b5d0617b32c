import ClauseLang.Expr.Print

/-!
Equality of the language. Patterns are equal if their clauses are and they captured the same scopes;
builtins are equal if their names are.
-/

namespace ClauseLang

namespace Env

def mark : Env → Nat
  | .root mark _ | .child mark _ _ => mark

/-- Two scopes have the same innermost frame. -/
def same (a b : Env) : Bool :=
  a.mark == b.mark

end Env

namespace Expr

mutual

def equal : Expr → Expr → Bool
  | .application xs, .application ys => equalItems xs ys
  | .identifier x, .identifier y => x == y
  | .label x, .label y => x == y
  | .text x, .text y => x == y
  | .number x, .number y => x == y
  | .list xs, .list ys => equalItems xs ys
  | .cons head tail, .cons head' tail' => equal head head' && equal tail tail'
  | .letIn names values body, .letIn names' values' body' =>
    names == names' && equalItems values values' && equal body body'
  | .guarded inner condition constant, .guarded inner' condition' constant' =>
    equal inner inner' && equal condition condition' && constant == constant'
  | .pattern clauses captured, .pattern clauses' captured' =>
    equalClauses clauses clauses' && captured.map Env.mark == captured'.map Env.mark
  | .builtin op, .builtin op' => op.name == op'.name
  | _, _ => false

def equalItems : List Expr → List Expr → Bool
  | [], [] => true
  | x :: xs, y :: ys => equal x y && equalItems xs ys
  | _, _ => false

def equalClauses : List Clause → List Clause → Bool
  | [], [] => true
  | .mk row body :: clauses, .mk row' body' :: clauses' =>
    equalItems row row' && equal body body' && equalClauses clauses clauses'
  | _, _ => false

end

end Expr

end ClauseLang
