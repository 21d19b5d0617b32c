import ClauseLang.Proofs.Lift.Free

/-!
The guards of a row, each with the names that the row has bound when its condition is evaluated. A
guard may stand inside a formal: names that the same formal binds further on are then not bound yet.
-/

namespace ClauseLang

/-- A guard in its row. -/
structure Guard where
  condition : Expr
  constant : Bool
  /-- The names that the row binds before the condition is evaluated. -/
  before : List String
  /-- The names that the formal of the guard binds after that. -/
  after : List String

namespace Guard

/-- The names that the row binds up to the end of the formal. -/
def reach (g : Guard) : List String :=
  g.before ++ g.after

/-- The condition uses no name that its formal has yet to bind for the first time in the row. -/
def Timely (g : Guard) : Prop :=
  ∀ x ∈ g.condition.free, x ∈ g.after → x ∈ g.before

instance (g : Guard) : Decidable g.Timely :=
  inferInstanceAs (Decidable (∀ x ∈ g.condition.free, x ∈ g.after → x ∈ g.before))

theorem Timely.mem_reach_iff {g : Guard} (h : g.Timely) {x : String} (hx : x ∈ g.condition.free) :
    x ∈ g.reach ↔ x ∈ g.before := by
  rw [reach, List.mem_append]
  exact ⟨fun hmem => hmem.elim id (h x hx), .inl⟩

end Guard

namespace Expr

/-- The guards of a part of a formal, in the order of their evaluation, if the given names are bound
before that part and after it. -/
def guards (before after : List String) : Expr → List Guard
  | .cons head tail =>
    head.guards before (tail.boundNames ++ after) ++ tail.guards (before ++ head.boundNames) after
  | .guarded inner condition constant =>
    inner.guards before after ++ [⟨condition, constant, before ++ inner.boundNames, after⟩]
  | _ => []

/-- The guards of a row behind formals that bind the given names. -/
def rowGuards (before : List String) : List Expr → List Guard
  | [] => []
  | formal :: row => formal.guards before [] ++ rowGuards (before ++ formal.boundNames) row

mutual

/-- The rows of the patterns that are written in an expression, at any depth. -/
def rows : Expr → List (List Expr)
  | .application items | .list items => itemsRows items
  | .cons head tail => head.rows ++ tail.rows
  | .letIn _ values body => itemsRows values ++ body.rows
  | .guarded inner condition _ => inner.rows ++ condition.rows
  | .pattern clauses _ => clausesRows clauses
  | .identifier _ | .label _ | .text _ | .number _ | .builtin _ => []

def itemsRows : List Expr → List (List Expr)
  | [] => []
  | item :: items => item.rows ++ itemsRows items

def clausesRows : List Clause → List (List Expr)
  | [] => []
  | .mk row body :: clauses => row :: (itemsRows row ++ body.rows ++ clausesRows clauses)

end

theorem mem_rowGuards {before : List String} {done row : List Expr} {formal : Expr} {g : Guard}
    (h : g ∈ formal.guards (before ++ rowNames done) []) :
    g ∈ rowGuards before (done ++ formal :: row) := by
  induction done generalizing before with
  | nil =>
    rw [rowNames, List.flatMap_nil, List.append_nil] at h
    exact List.mem_append_left _ h
  | cons first done ih =>
    rw [rowNames, List.flatMap_cons, ← List.append_assoc] at h
    exact List.mem_append_right _ (ih h)

end Expr

end ClauseLang
