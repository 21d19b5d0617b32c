import ClauseLang.Scope.Basic

/-!
The names that a pattern takes from the scopes around it. Clauses are looked at in order, and each
row before its body; a formal binds from its place on, so a guard sees only the names before it.
-/

namespace ClauseLang

inductive LiftError where
  | undefined (name : String)
  | unevenRows (rows : UnevenRows)
deriving DecidableEq

def LiftError.message : LiftError → String
  | .undefined name => "undefined identifier '" ++ name ++ "'"
  | .unevenRows rows => rows.message

/-- What a pattern finds around it: the names in scope, the builtins, and its own name if it has
one. -/
structure Surroundings where
  defined : List String
  builtins : List String
  self : Option String := none

namespace Surroundings

/-- A use of a name under the given bound names: it is taken from around if it is defined there. A
defined name hides a builtin. -/
def use (around : Surroundings) (bound : List String) (name : String) :
    Except LiftError (List String) :=
  if name = discard ∨ name ∈ bound ∨ around.self = some name then .ok []
  else if name ∈ around.defined then .ok [name]
  else if name ∈ around.builtins then .ok []
  else .error (.undefined name)

end Surroundings

def bindName (bound : List String) (name : String) : List String :=
  if name = discard then bound else name :: bound

namespace Expr

def isPattern : Expr → Bool
  | .pattern _ _ => true
  | _ => false

mutual

/-- The uses of names from around, in order and with repetitions. -/
def uses (around : Surroundings) (bound : List String) : Expr → Except LiftError (List String)
  | .identifier name => around.use bound name
  | .application items | .list items => itemsUses around bound items
  | .cons head tail => do
    let first ← uses around bound head
    let second ← uses around bound tail
    return first ++ second
  | .guarded inner condition _ => do
    let first ← uses around bound inner
    let second ← uses around bound condition
    return first ++ second
  | .letIn names values body => do
    let (first, bound) ← bindingsUses around bound names values
    let second ← uses around bound body
    return first ++ second
  | .pattern clauses _ =>
    match commonArity clauses with
    | .error rows => .error (.unevenRows rows)
    | .ok _ => clausesUses around bound clauses
  | .label _ | .text _ | .number _ | .builtin _ => .ok []

def itemsUses (around : Surroundings) (bound : List String) :
    List Expr → Except LiftError (List String)
  | [] => .ok []
  | item :: items => do
    let first ← uses around bound item
    let second ← itemsUses around bound items
    return first ++ second

/-- The uses in the values of a `letIn`, and the names bound after it. A pattern sees its own
name. -/
def bindingsUses (around : Surroundings) (bound : List String) :
    List String → List Expr → Except LiftError (List String × List String)
  | name :: names, value :: values => do
    let first ← uses around (if value.isPattern then bindName bound name else bound) value
    let (second, bound) ← bindingsUses around (bindName bound name) names values
    return (first ++ second, bound)
  | _, _ => .ok ([], bound)

def clausesUses (around : Surroundings) (bound : List String) :
    List Clause → Except LiftError (List String)
  | [] => .ok []
  | .mk row body :: clauses => do
    let (first, inner) ← rowUses around bound row
    let second ← uses around inner body
    let third ← clausesUses around bound clauses
    return first ++ second ++ third

/-- The uses in the guards of a row, and the names bound after it. -/
def rowUses (around : Surroundings) (bound : List String) :
    List Expr → Except LiftError (List String × List String)
  | [] => .ok ([], bound)
  | formal :: row => do
    let (first, bound) ← formalUses around bound formal
    let (second, bound) ← rowUses around bound row
    return (first ++ second, bound)

def formalUses (around : Surroundings) (bound : List String) :
    Expr → Except LiftError (List String × List String)
  | .identifier name => .ok ([], bindName bound name)
  | .cons head tail => do
    let (first, bound) ← formalUses around bound head
    let (second, bound) ← formalUses around bound tail
    return (first ++ second, bound)
  | .guarded inner condition _ => do
    let (first, bound) ← formalUses around bound inner
    let second ← uses around bound condition
    return (first ++ second, bound)
  | _ => .ok ([], bound)

end

end Expr

/-- The names that a pattern takes from around it, in the order of their first uses. -/
def freeNames (around : Surroundings) (clauses : List Clause) : Except LiftError (List String) := do
  return distinct (← Expr.uses around [] (.pattern clauses []))

end ClauseLang
