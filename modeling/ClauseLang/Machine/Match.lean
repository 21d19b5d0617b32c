import ClauseLang.Machine.State

/-!
Matching a formal parameter with an argument. Bindings are collected from left to right, and a guard
sees those collected before it.
-/

namespace ClauseLang

/-- An evaluator: what an expression comes to in a scope, with or without containing its errors. -/
abbrev Evaluator := Expr → Env → Bool → Eval Expr

/-- The front of a string for the head of a cons, and the rest. A literal head takes as many
characters as it has, any other head takes one. -/
def splitText? (head : Expr) (value : String) : Option (String × String) :=
  let width := match head with
    | .text literal => literal.length
    | _ => 1
  if value.isEmpty || value.length < width then none
  else some (String.ofList (value.toList.take width), String.ofList (value.toList.drop width))

def split? (head : Expr) : Expr → Option (Expr × Expr)
  | .list (first :: rest) => some (first, .list rest)
  | .text value => (splitText? head value).map fun (front, rest) => (.text front, .text rest)
  | _ => none

/-- Add what a formal binds to what is bound already, if the argument matches. -/
def matchInto (ev : Evaluator) (env : Env) :
    Expr → Expr → List (String × Expr) → Eval (Option (List (String × Expr)))
  | .identifier name, argument, bound =>
    pure (some (if name = discard then bound else bound ++ [(name, argument)]))
  | .guarded inner condition _, argument, bound => do
    match ← matchInto ev env inner argument bound with
    | none => return none
    | some bound =>
      let scope ← Eval.extend env bound
      let verdict ← ev condition scope true
      return if verdict.isTruthy then some bound else none
  | .cons head tail, argument, bound =>
    match split? head argument with
    | none => pure none
    | some (front, rest) => do
      match ← matchInto ev env head front bound with
      | none => return none
      | some bound => matchInto ev env tail rest bound
  | .number n, argument, bound => pure (if (Expr.number n).equal argument then some bound else none)
  | .text s, argument, bound => pure (if (Expr.text s).equal argument then some bound else none)
  | .label l, argument, bound => pure (if (Expr.label l).equal argument then some bound else none)
  | .list xs, argument, bound => pure (if (Expr.list xs).equal argument then some bound else none)
  | formal, _, _ => Eval.fail (.badFormal formal)

/-- The scope with the bindings of a formal, if the argument matches. -/
def tryMatch (ev : Evaluator) (formal argument : Expr) (env : Env) : Eval (Option Env) := do
  match ← matchInto ev env formal argument [] with
  | none => return none
  | some bound => return some (← Eval.extend env bound)

end ClauseLang
