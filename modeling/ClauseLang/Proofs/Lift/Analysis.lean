import ClauseLang.Proofs.Lift.Free

/-!
The analysis of a pattern against its free names. What the analysis comes by is written down once, as
a list that knows nothing of the scopes around: the free names, and among them each pattern before
its clauses. Going along this list, the analysis fails at the first entry that is amiss, a name that
nobody knows or a pattern with rows of different lengths; if there is none, it has the names in hand
that are defined around.
-/

namespace ClauseLang

/-- What an analysis comes by: a name in use, or a pattern whose rows are to be measured. -/
inductive Sight where
  | name (x : String)
  | rows (clauses : List Clause)

namespace Sight

/-- The sights that are left when names are bound. -/
def hide (bound : List String) (sights : List Sight) : List Sight :=
  sights.filter fun
    | .name x => x ∉ bound
    | .rows _ => true

def names (sights : List Sight) : List String :=
  sights.filterMap fun
    | .name x => some x
    | .rows _ => none

variable {bound bound' : List String} {sights sights' : List Sight}

@[simp] theorem hide_append :
    hide bound (sights ++ sights') = hide bound sights ++ hide bound sights' :=
  List.filter_append ..

@[simp] theorem hide_rows (clauses : List Clause) :
    hide bound (.rows clauses :: sights) = .rows clauses :: hide bound sights :=
  rfl

theorem mem_hide_name {x : String} : .name x ∈ hide bound sights ↔ .name x ∈ sights ∧ x ∉ bound := by
  simp [hide]

theorem mem_hide_rows {clauses : List Clause} :
    .rows clauses ∈ hide bound sights ↔ .rows clauses ∈ sights := by
  simp [hide]

@[simp] theorem hide_nil_left : hide [] sights = sights := by
  rw [hide, List.filter_eq_self]
  rintro (x | clauses) _ <;> simp

/-- Names that are bound one after another. -/
theorem hide_of_mem_iff {new : List String} (h : ∀ x, x ∈ bound' ↔ x ∈ new ∨ x ∈ bound) :
    hide bound' sights = hide bound (hide new sights) := by
  rw [hide, hide, hide, List.filter_filter]
  refine List.filter_congr ?_
  rintro (x | clauses) _
  · simp [h, and_comm]
  · rfl

@[simp] theorem names_append : names (sights ++ sights') = names sights ++ names sights' :=
  List.filterMap_append ..

@[simp] theorem names_rows (clauses : List Clause) :
    names (.rows clauses :: sights) = names sights :=
  rfl

theorem mem_names {x : String} : x ∈ names sights ↔ .name x ∈ sights := by
  rw [names, List.mem_filterMap]
  constructor
  · rintro ⟨s | _, hs, h⟩
    · cases h
      exact hs
    · cases h
  · exact fun h => ⟨.name x, h, rfl⟩

theorem names_hide : names (hide bound sights) = Expr.without bound (names sights) := by
  induction sights with
  | nil => rfl
  | cons s sights ih =>
    cases s with
    | name x =>
      by_cases hx : x ∈ bound
      · simp_all [names, hide, Expr.without]
      · simp_all [names, hide, Expr.without]
    | rows clauses => exact ih

end Sight

namespace Expr

open Sight (hide)

mutual

/-- The free names of an expression and the patterns in it, in the order in which they are written. -/
def sights : Expr → List Sight
  | .identifier name => [.name name]
  | .application items | .list items => itemsSights items
  | .cons head tail => head.sights ++ tail.sights
  | .letIn names values body => bindingsSights names values body.sights
  | .guarded inner condition _ => inner.sights ++ condition.sights
  | .pattern clauses _ => .rows clauses :: clausesSights clauses
  | .label _ | .text _ | .number _ | .builtin _ => []

def itemsSights : List Expr → List Sight
  | [] => []
  | item :: items => item.sights ++ itemsSights items

def bindingsSights : List String → List Expr → List Sight → List Sight
  | name :: names, value :: values, rest =>
    (if value.isPattern then hide (boundNames (.identifier name)) value.sights
      else value.sights) ++
      hide (boundNames (.identifier name)) (bindingsSights names values rest)
  | _, _, rest => rest

def clausesSights : List Clause → List Sight
  | [] => []
  | .mk row body :: clauses => rowSights row body.sights ++ clausesSights clauses

def rowSights : List Expr → List Sight → List Sight
  | [], rest => rest
  | formal :: row, rest => formal.formalSights ++ hide formal.boundNames (rowSights row rest)

def formalSights : Expr → List Sight
  | .cons head tail => head.formalSights ++ hide head.boundNames tail.formalSights
  | .guarded inner condition _ => inner.formalSights ++ hide inner.boundNames condition.sights
  | _ => []

end

mutual

theorem names_sights (e : Expr) : Sight.names e.sights = e.free := by
  match e with
  | .identifier name => rfl
  | .application items | .list items =>
    rw [sights, free]
    exact names_itemsSights items
  | .cons head tail =>
    rw [sights, free, Sight.names_append, names_sights head, names_sights tail]
  | .letIn names values body =>
    rw [sights, free, names_bindingsSights names values, names_sights body]
  | .guarded inner condition _ =>
    rw [sights, free, Sight.names_append, names_sights inner, names_sights condition]
  | .pattern clauses _ =>
    rw [sights, free, Sight.names_rows]
    exact names_clausesSights clauses
  | .label _ | .text _ | .number _ | .builtin _ => rfl
termination_by sizeOf e

theorem names_itemsSights (items : List Expr) :
    Sight.names (itemsSights items) = itemsFree items := by
  match items with
  | [] => rfl
  | item :: items =>
    rw [itemsSights, itemsFree, Sight.names_append, names_sights item, names_itemsSights items]
termination_by sizeOf items

theorem names_bindingsSights (names : List String) (values : List Expr) {rest : List Sight} :
    Sight.names (bindingsSights names values rest) =
      bindingsFree names values (Sight.names rest) := by
  match names, values with
  | [], _ | _ :: _, [] => simp only [bindingsSights, bindingsFree]
  | name :: names, value :: values =>
    rw [bindingsSights, bindingsFree, Sight.names_append, Sight.names_hide,
      names_bindingsSights names values]
    split
    · rw [Sight.names_hide, names_sights value]
    · rw [names_sights value]
termination_by sizeOf names + sizeOf values

theorem names_clausesSights (clauses : List Clause) :
    Sight.names (clausesSights clauses) = clausesFree clauses := by
  match clauses with
  | [] => rfl
  | .mk row body :: clauses =>
    rw [clausesSights, clausesFree, Sight.names_append, names_rowSights row, names_sights body,
      names_clausesSights clauses]
termination_by sizeOf clauses

theorem names_rowSights (row : List Expr) {rest : List Sight} :
    Sight.names (rowSights row rest) = rowFree row (Sight.names rest) := by
  match row with
  | [] => rfl
  | formal :: row =>
    rw [rowSights, rowFree, Sight.names_append, Sight.names_hide, names_formalSights formal,
      names_rowSights row]
termination_by sizeOf row

theorem names_formalSights (formal : Expr) :
    Sight.names formal.formalSights = formal.formalFree := by
  match formal with
  | .cons head tail =>
    rw [formalSights, formalFree, Sight.names_append, Sight.names_hide, names_formalSights head,
      names_formalSights tail]
  | .guarded inner condition _ =>
    rw [formalSights, formalFree, Sight.names_append, Sight.names_hide, names_formalSights inner,
      names_sights condition]
  | .identifier _ | .application _ | .list _ | .letIn _ _ _ | .pattern _ _ | .label _ | .text _
  | .number _ | .builtin _ => rfl
termination_by sizeOf formal

end

end Expr

namespace Surroundings

variable {around : Surroundings}

/-- What is amiss with a sight: nobody knows the name, or the rows differ in length. -/
def objection? (around : Surroundings) : Sight → Option LiftError
  | .name x =>
    if x = discard ∨ around.self = some x ∨ x ∈ around.defined ∨ x ∈ around.builtins then none
    else some (.undefined x)
  | .rows clauses =>
    match commonArity clauses with
    | .ok _ => none
    | .error rows => some (.unevenRows rows)

def Accepts (around : Surroundings) (sights : List Sight) : Prop :=
  ∀ s ∈ sights, around.objection? s = none

/-- The names that count as uses: not `_` and not the pattern's own name. -/
def counted (around : Surroundings) (names : List String) : List String :=
  names.filter fun x => x ≠ discard ∧ around.self ≠ some x

/-- The first objection to the sights, and if there is none the names that are taken from around. -/
def collect (around : Surroundings) (sights : List Sight) : Except LiftError (List String) :=
  match sights.findSome? around.objection? with
  | some e => .error e
  | none => .ok ((around.counted (Sight.names sights)).filter (· ∈ around.defined))

theorem collect_nil : around.collect [] = .ok [] :=
  rfl

theorem collect_append (sights sights' : List Sight) :
    around.collect (sights ++ sights') = (do
      let first ← around.collect sights
      let second ← around.collect sights'
      return first ++ second) := by
  unfold collect
  rw [List.findSome?_append, Sight.names_append]
  cases sights.findSome? around.objection? with
  | some e => rfl
  | none =>
    cases sights'.findSome? around.objection? with
    | some e => rfl
    | none => simp [counted, bind, Except.bind, pure, Except.pure]

theorem use_eq (bound : List String) (x : String) :
    around.use bound x = around.collect (Sight.hide bound [.name x]) := by
  unfold use
  by_cases hx : x ∈ bound
  · simp [Sight.hide, hx, collect_nil]
  · simp only [Sight.hide, hx, not_false_eq_true, decide_true, List.filter_cons_of_pos,
      List.filter_nil, collect, List.findSome?_cons, objection?, Sight.names, counted]
    grind

theorem collect_rows (clauses : List Clause) (sights : List Sight) :
    around.collect (.rows clauses :: sights) =
      match commonArity clauses with
      | .error rows => .error (.unevenRows rows)
      | .ok _ => around.collect sights := by
  unfold collect
  rw [List.findSome?_cons, objection?, Sight.names_rows]
  cases commonArity clauses <;> rfl

end Surroundings

theorem hide_bindName (bound : List String) (name : String) (sights : List Sight) :
    Sight.hide (bindName bound name) sights =
      Sight.hide bound (Sight.hide (Expr.boundNames (.identifier name)) sights) :=
  Sight.hide_of_mem_iff fun _ => mem_bindName

theorem bindName_eq (bound : List String) (name : String) :
    bindName bound name = (Expr.boundNames (.identifier name)).reverse ++ bound := by
  rw [bindName, Expr.boundNames]
  split <;> rfl

namespace Expr

open Sight (hide)

variable {around : Surroundings}

theorem hide_boundNames (bound : List String) (formal : Expr) (sights : List Sight) :
    hide (formal.boundNames.reverse ++ bound) sights = hide bound (hide formal.boundNames sights) :=
  Sight.hide_of_mem_iff fun x => by simp

mutual

/-- The analysis under bound names goes along the sights that are not hidden by them. -/
theorem uses_eq (bound : List String) (e : Expr) :
    uses around bound e = around.collect (hide bound e.sights) := by
  match e with
  | .identifier name => exact Surroundings.use_eq bound name
  | .application items | .list items =>
    rw [uses, sights]
    exact itemsUses_eq bound items
  | .cons head tail =>
    rw [uses, sights, Sight.hide_append, Surroundings.collect_append, uses_eq bound head,
      uses_eq bound tail]
  | .guarded inner condition _ =>
    rw [uses, sights, Sight.hide_append, Surroundings.collect_append, uses_eq bound inner,
      uses_eq bound condition]
  | .letIn names values body =>
    rw [uses, sights]
    exact bindingsUses_eq bound names values fun inner => uses_eq inner body
  | .pattern clauses _ =>
    rw [uses, sights, Sight.hide_rows, Surroundings.collect_rows]
    cases commonArity clauses with
    | error => rfl
    | ok => exact clausesUses_eq bound clauses
  | .label _ | .text _ | .number _ | .builtin _ => rfl
termination_by sizeOf e

theorem itemsUses_eq (bound : List String) (items : List Expr) :
    itemsUses around bound items = around.collect (hide bound (itemsSights items)) := by
  match items with
  | [] => rfl
  | item :: items =>
    rw [itemsUses, itemsSights, Sight.hide_append, Surroundings.collect_append, uses_eq bound item,
      itemsUses_eq bound items]
termination_by sizeOf items

/-- The values of a `letIn` and what follows them, which is analysed under the names they bind. -/
theorem bindingsUses_eq (bound : List String) (names : List String) (values : List Expr)
    {rest : List Sight} {after : List String → Except LiftError (List String)}
    (h : ∀ inner, after inner = around.collect (hide inner rest)) :
    (do
      let (first, inner) ← bindingsUses around bound names values
      let second ← after inner
      return first ++ second) = around.collect (hide bound (bindingsSights names values rest)) := by
  match names, values with
  | [], _ | _ :: _, [] =>
    simp only [bindingsUses, bindingsSights, ← h]
    change (after bound).map _ = after bound
    cases after bound <;> rfl
  | name :: names, value :: values =>
    have hvalue : uses around (if value.isPattern then bindName bound name else bound) value =
        around.collect (hide bound (if value.isPattern then
          hide (boundNames (.identifier name)) value.sights else value.sights)) := by
      rw [uses_eq _ value]
      split
      · rw [hide_bindName]
      · rfl
    rw [bindingsUses, bindingsSights, Sight.hide_append, Surroundings.collect_append,
      ← hide_bindName, ← bindingsUses_eq (bindName bound name) names values h, hvalue]
    simp only [bind_assoc, pure_bind, List.append_assoc]
termination_by sizeOf names + sizeOf values

theorem clausesUses_eq (bound : List String) (clauses : List Clause) :
    clausesUses around bound clauses = around.collect (hide bound (clausesSights clauses)) := by
  match clauses with
  | [] => rfl
  | .mk row body :: clauses =>
    rw [clausesUses, clausesSights, Sight.hide_append, Surroundings.collect_append,
      ← rowUses_eq bound row fun inner => uses_eq inner body, clausesUses_eq bound clauses]
    simp only [bind_assoc, pure_bind]
termination_by sizeOf clauses

/-- The guards of a row and what follows it, which is analysed under the names it binds. -/
theorem rowUses_eq (bound : List String) (row : List Expr) {rest : List Sight}
    {after : List String → Except LiftError (List String)}
    (h : ∀ inner, after inner = around.collect (hide inner rest)) :
    (do
      let (first, inner) ← rowUses around bound row
      let second ← after inner
      return first ++ second) = around.collect (hide bound (rowSights row rest)) := by
  match row with
  | [] =>
    simp only [rowUses, rowSights, ← h]
    change (after bound).map _ = after bound
    cases after bound <;> rfl
  | formal :: row =>
    rw [rowUses, rowSights, Sight.hide_append, Surroundings.collect_append, ← hide_boundNames,
      ← rowUses_eq _ row h, formalUses_eq bound formal]
    simp only [bind_assoc, pure_bind, List.append_assoc]
termination_by sizeOf row

/-- The guards of a formal, and the names that are bound after it. -/
theorem formalUses_eq (bound : List String) (formal : Expr) :
    formalUses around bound formal = (do
      let used ← around.collect (hide bound formal.formalSights)
      return (used, formal.boundNames.reverse ++ bound)) := by
  match formal with
  | .identifier name =>
    rw [formalUses, bindName_eq]
    rfl
  | .guarded inner condition _ =>
    rw [formalUses, formalSights, boundNames, Sight.hide_append, Surroundings.collect_append,
      ← hide_boundNames, formalUses_eq bound inner]
    simp only [bind_assoc, pure_bind, uses_eq _ condition]
  | .cons head tail =>
    rw [formalUses, formalSights, boundNames, Sight.hide_append, Surroundings.collect_append,
      ← hide_boundNames, formalUses_eq bound head]
    simp only [bind_assoc, pure_bind, formalUses_eq _ tail, List.reverse_append, List.append_assoc]
  | .application _ | .list _ | .letIn _ _ _ | .pattern _ _ | .label _ | .text _ | .number _
  | .builtin _ => rfl
termination_by sizeOf formal

end

end Expr

namespace Surroundings

variable {around : Surroundings}

theorem objection?_rows_eq_none_iff {clauses : List Clause} :
    around.objection? (.rows clauses) = none ↔
      ∀ clause ∈ clauses, clause.row.length = arity clauses := by
  rw [objection?]
  cases h : commonArity clauses with
  | ok n => exact iff_of_true rfl (commonArity_eq_ok_iff.1 h).2
  | error rows =>
    refine iff_of_false (Option.some_ne_none _) fun heven => ?_
    rw [commonArity_eq_ok_iff.2 ⟨rfl, heven⟩] at h
    cases h

theorem objection?_name_eq_none_iff {x : String} :
    around.objection? (.name x) = none ↔
      x = discard ∨ around.self = some x ∨ x ∈ around.defined ∨ x ∈ around.builtins := by
  rw [objection?]
  split <;> simp_all

theorem collect_eq_ok_iff {sights : List Sight} :
    (∃ used, around.collect sights = .ok used) ↔ around.Accepts sights := by
  rw [Accepts, ← List.findSome?_eq_none_iff, collect]
  cases sights.findSome? around.objection? <;> simp

end Surroundings

/-- A pattern that the analysis can do with: it and the patterns in it have rows of one length each,
and all names that it uses are known. -/
structure Admits (around : Surroundings) (clauses : List Clause) : Prop where
  even : ∀ inner, .rows inner ∈ (Expr.pattern clauses []).sights →
    ∀ clause ∈ inner, clause.row.length = arity inner
  known : ∀ x ∈ around.counted (Expr.clausesFree clauses), x ∈ around.defined ∨ x ∈ around.builtins

theorem admits_iff {around : Surroundings} {clauses : List Clause} :
    Admits around clauses ↔ around.Accepts (Expr.pattern clauses []).sights := by
  have hnames : Expr.clausesFree clauses = Sight.names (Expr.pattern clauses []).sights := by
    rw [Expr.names_sights, Expr.free]
  constructor
  · rintro h (x | inner) hs
    · have hknown := h.known x
      rw [hnames, Surroundings.counted, List.mem_filter, Sight.mem_names] at hknown
      rw [Surroundings.objection?_name_eq_none_iff]
      grind
    · exact Surroundings.objection?_rows_eq_none_iff.2 (h.even inner hs)
  · intro h
    refine ⟨fun inner hs => Surroundings.objection?_rows_eq_none_iff.1 (h _ hs), fun x hx => ?_⟩
    rw [hnames, Surroundings.counted, List.mem_filter, Sight.mem_names] at hx
    have hknown := Surroundings.objection?_name_eq_none_iff.1 (h _ hx.1)
    grind

theorem freeNames_eq_collect (around : Surroundings) (clauses : List Clause) :
    freeNames around clauses =
      (around.collect (Expr.pattern clauses []).sights).map List.eraseDups := by
  rw [freeNames, Expr.uses_eq, Sight.hide_nil_left]
  cases around.collect (Expr.pattern clauses []).sights with
  | error e => rfl
  | ok used => exact congrArg Except.ok (distinct_eq_eraseDups used)

/-- The analysis of a pattern. If the pattern is admitted, the result is its free names that are
defined around, each once and in the order of their first uses. If not, the result is what is amiss
at the first sight where something is. -/
theorem freeNames_eq (around : Surroundings) (clauses : List Clause) :
    (Admits around clauses → freeNames around clauses =
      .ok ((around.counted (Expr.clausesFree clauses)).filter (· ∈ around.defined)).eraseDups) ∧
    (¬ Admits around clauses → ∃ before s after e,
      (Expr.pattern clauses []).sights = before ++ s :: after ∧
        around.Accepts before ∧ around.objection? s = some e ∧
          freeNames around clauses = .error e) := by
  rw [freeNames_eq_collect, Surroundings.collect, Expr.names_sights, Expr.free, admits_iff]
  cases h : (Expr.pattern clauses []).sights.findSome? around.objection? with
  | none =>
    have hnone := List.findSome?_eq_none_iff.1 h
    exact ⟨fun _ => rfl, fun hnot => absurd hnone hnot⟩
  | some e =>
    obtain ⟨before, s, after, hsights, hs, hbefore⟩ := List.findSome?_eq_some_iff.1 h
    refine ⟨fun hall => ?_, fun _ => ⟨before, s, after, e, hsights, hbefore, hs, rfl⟩⟩
    rw [hall s (by simp [hsights])] at hs
    cases hs

-- `{ x -> (b x a b) }` among `a` and `b`
example : freeNames { defined := ["a", "b"], builtins := [] }
    [.mk [.identifier "x"] (.application [.identifier "b", .identifier "x", .identifier "a",
      .identifier "b"])] = .ok ["b", "a"] := by
  rfl

end ClauseLang
