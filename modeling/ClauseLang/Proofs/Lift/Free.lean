import ClauseLang.Expr.Names
import ClauseLang.Lift.Free
import ClauseLang.Proofs.Scope.Names

/-!
The names that occur free in an expression. A formal binds from its place on: a guard sees the
formals up to its own, a body sees all of them. The name of a `letIn` is seen by the values after its
own, by the body, and by its own value if that is a pattern. `_` is never bound.
-/

namespace ClauseLang

namespace Expr

def without (bound names : List String) : List String :=
  names.filter (· ∉ bound)

@[simp] theorem mem_without {bound names : List String} {x : String} :
    x ∈ without bound names ↔ x ∈ names ∧ x ∉ bound := by
  simp [without]

theorem without_append (bound names names' : List String) :
    without bound (names ++ names') = without bound names ++ without bound names' :=
  List.filter_append ..

theorem without_eq_nil {bound names : List String} (h : names ⊆ bound) :
    without bound names = [] :=
  List.filter_eq_nil_iff.2 fun x hx => by simpa using h hx

theorem count_without {bound names : List String} {x : String} (h : x ∉ bound) :
    (without bound names).count x = names.count x :=
  List.count_filter (by simpa using h)

mutual

def free : Expr → List String
  | .identifier name => [name]
  | .application items | .list items => itemsFree items
  | .cons head tail => head.free ++ tail.free
  | .letIn names values body => bindingsFree names values body.free
  | .guarded inner condition _ => inner.free ++ condition.free
  | .pattern clauses _ => clausesFree clauses
  | .label _ | .text _ | .number _ | .builtin _ => []

def itemsFree : List Expr → List String
  | [] => []
  | item :: items => item.free ++ itemsFree items

/-- The free names of the values of a `letIn`, and those of the rest of it. -/
def bindingsFree : List String → List Expr → List String → List String
  | name :: names, value :: values, rest =>
    (if value.isPattern then without (boundNames (.identifier name)) value.free
      else value.free) ++
      without (boundNames (.identifier name)) (bindingsFree names values rest)
  | _, _, rest => rest

def clausesFree : List Clause → List String
  | [] => []
  | .mk row body :: clauses => rowFree row body.free ++ clausesFree clauses

/-- The free names of a row, and those of what the row guards. -/
def rowFree : List Expr → List String → List String
  | [], rest => rest
  | formal :: row, rest => formal.formalFree ++ without formal.boundNames (rowFree row rest)

/-- The free names of a formal. A closed list is compared and not evaluated. -/
def formalFree : Expr → List String
  | .cons head tail => head.formalFree ++ without head.boundNames tail.formalFree
  | .guarded inner condition _ => inner.formalFree ++ without inner.boundNames condition.free
  | _ => []

end

theorem bindingsFree_pattern (name : String) (names : List String) (clauses : List Clause)
    (captured : List Env) (values : List Expr) (rest : List String) :
    bindingsFree (name :: names) (.pattern clauses captured :: values) rest =
      without (boundNames (.identifier name)) (clausesFree clauses) ++
        without (boundNames (.identifier name)) (bindingsFree names values rest) := by
  rw [bindingsFree, isPattern, if_pos rfl, free]

theorem bindingsFree_of_isPattern_eq_false (name : String) (names : List String) {value : Expr}
    (values : List Expr) (rest : List String) (h : value.isPattern = false) :
    bindingsFree (name :: names) (value :: values) rest =
      value.free ++ without (boundNames (.identifier name)) (bindingsFree names values rest) := by
  rw [bindingsFree, h, if_neg Bool.false_ne_true]

theorem mem_clausesFree {clauses : List Clause} {row : List Expr} {body : Expr} {x : String}
    (hclause : .mk row body ∈ clauses) (hx : x ∈ rowFree row body.free) :
    x ∈ clausesFree clauses := by
  induction clauses with
  | nil => cases hclause
  | cons clause clauses ih =>
    obtain ⟨row', body'⟩ := clause
    rw [clausesFree, List.mem_append]
    rcases List.mem_cons.1 hclause with hclause | hclause
    · cases hclause
      exact .inl hx
    · exact .inr (ih hclause)

mutual

theorem mem_identifiers_of_mem_free {x : String} : ∀ {e : Expr}, x ∈ e.free → x ∈ e.identifiers
  | .identifier name, h => by simpa [free, identifiers] using h
  | .application items, h | .list items, h => by
    rw [free] at h
    rw [identifiers]
    exact mem_identifiers_of_mem_itemsFree h
  | .cons head tail, h => by
    rw [free, List.mem_append] at h
    rw [identifiers, List.mem_append]
    exact h.imp mem_identifiers_of_mem_free mem_identifiers_of_mem_free
  | .letIn names values body, h => by
    rw [free] at h
    rw [identifiers, List.mem_append]
    exact (mem_identifiers_of_mem_bindingsFree h).imp_right mem_identifiers_of_mem_free
  | .guarded inner condition _, h => by
    rw [free, List.mem_append] at h
    rw [identifiers, List.mem_append]
    exact h.imp mem_identifiers_of_mem_free mem_identifiers_of_mem_free
  | .pattern clauses _, h => by
    rw [free] at h
    rw [identifiers]
    exact mem_identifiers_of_mem_clausesFree h
  | .label _, h | .text _, h | .number _, h | .builtin _, h => by cases h

theorem mem_identifiers_of_mem_itemsFree {x : String} :
    ∀ {items : List Expr}, x ∈ itemsFree items → x ∈ itemsIdentifiers items
  | [], h => by cases h
  | item :: items, h => by
    rw [itemsFree, List.mem_append] at h
    rw [itemsIdentifiers, List.mem_append]
    exact h.imp mem_identifiers_of_mem_free mem_identifiers_of_mem_itemsFree

theorem mem_identifiers_of_mem_bindingsFree {x : String} {rest : List String} :
    ∀ {names : List String} {values : List Expr}, x ∈ bindingsFree names values rest →
      x ∈ bindingsIdentifiers names values ∨ x ∈ rest
  | [], _, h => .inr (by simpa [bindingsFree] using h)
  | _ :: _, [], h => .inr (by simpa [bindingsFree] using h)
  | name :: names, value :: values, h => by
    rw [bindingsFree, List.mem_append, mem_without] at h
    rw [bindingsIdentifiers, List.mem_cons, List.mem_append]
    rcases h with h | ⟨h, -⟩
    · have hvalue : x ∈ value.free := by
        split at h
        · exact (mem_without.1 h).1
        · exact h
      exact .inl (.inr (.inl (mem_identifiers_of_mem_free hvalue)))
    · exact (mem_identifiers_of_mem_bindingsFree h).imp_left fun h => .inr (.inr h)

theorem mem_identifiers_of_mem_clausesFree {x : String} :
    ∀ {clauses : List Clause}, x ∈ clausesFree clauses → x ∈ clausesIdentifiers clauses
  | [], h => by cases h
  | .mk row body :: clauses, h => by
    rw [clausesFree, List.mem_append] at h
    rw [clausesIdentifiers, List.mem_append, List.mem_append]
    rcases h with h | h
    · exact .inl ((mem_identifiers_of_mem_rowFree h).imp_right mem_identifiers_of_mem_free)
    · exact .inr (mem_identifiers_of_mem_clausesFree h)

theorem mem_identifiers_of_mem_rowFree {x : String} {rest : List String} :
    ∀ {row : List Expr}, x ∈ rowFree row rest → x ∈ itemsIdentifiers row ∨ x ∈ rest
  | [], h => .inr (by simpa [rowFree] using h)
  | formal :: row, h => by
    rw [rowFree, List.mem_append, mem_without] at h
    rw [itemsIdentifiers, List.mem_append]
    rcases h with h | ⟨h, -⟩
    · exact .inl (.inl (mem_identifiers_of_mem_formalFree h))
    · exact (mem_identifiers_of_mem_rowFree h).imp_left .inr

theorem mem_identifiers_of_mem_formalFree {x : String} :
    ∀ {formal : Expr}, x ∈ formal.formalFree → x ∈ formal.identifiers
  | .cons head tail, h => by
    rw [formalFree, List.mem_append, mem_without] at h
    rw [identifiers, List.mem_append]
    exact h.imp mem_identifiers_of_mem_formalFree fun h => mem_identifiers_of_mem_formalFree h.1
  | .guarded inner condition _, h => by
    rw [formalFree, List.mem_append, mem_without] at h
    rw [identifiers, List.mem_append]
    exact h.imp mem_identifiers_of_mem_formalFree fun h => mem_identifiers_of_mem_free h.1
  | .identifier _, h | .application _, h | .list _, h | .letIn _ _ _, h | .pattern _ _, h
  | .label _, h | .text _, h | .number _, h | .builtin _, h => by cases h

end

end Expr

/-- `used` are the names among `names` that a pattern takes from around it when the bound ones are
bound, and all others can be accounted for. -/
structure Accounts (around : Surroundings) (bound used names : List String) : Prop where
  mem_iff : ∀ x, x ∈ used ↔ x ∈ names ∧
    x ≠ discard ∧ x ∉ bound ∧ around.self ≠ some x ∧ x ∈ around.defined
  known : ∀ x ∈ names, x = discard ∨ x ∈ bound ∨ around.self = some x ∨ x ∈ around.defined ∨
    x ∈ around.builtins

namespace Accounts

variable {around : Surroundings} {bound bound' used used' names names' : List String}

theorem nil : Accounts around bound [] [] :=
  ⟨by simp, by simp⟩

theorem append (h : Accounts around bound used names) (h' : Accounts around bound used' names') :
    Accounts around bound (used ++ used') (names ++ names') where
  mem_iff x := by
    rw [List.mem_append, List.mem_append, h.mem_iff, h'.mem_iff, or_and_right]
  known x hx := (List.mem_append.1 hx).elim (h.known x) (h'.known x)

theorem without {new : List String} (h : Accounts around bound' used names)
    (hbound : ∀ x, x ∈ bound' ↔ x ∈ new ∨ x ∈ bound) :
    Accounts around bound used (Expr.without new names) where
  mem_iff x := by
    rw [h.mem_iff, hbound, Expr.mem_without]
    grind
  known x hx := by
    obtain ⟨hx, hnew⟩ := Expr.mem_without.1 hx
    have hknown := h.known x hx
    rw [hbound] at hknown
    grind

end Accounts

theorem Surroundings.use_accounts {around : Surroundings} {bound used : List String} {x : String}
    (h : around.use bound x = .ok used) : Accounts around bound used [x] := by
  unfold use at h
  constructor <;> grind

theorem mem_bindName {bound : List String} {name x : String} :
    x ∈ bindName bound name ↔ x ∈ (Expr.identifier name).boundNames ∨ x ∈ bound := by
  unfold bindName
  rw [Expr.boundNames]
  split <;> simp

theorem Except.exists_of_bind_eq_ok {ε α β : Type} {x : Except ε α} {f : α → Except ε β} {b : β}
    (h : x >>= f = .ok b) : ∃ a, x = .ok a ∧ f a = .ok b := by
  cases x with
  | ok a => exact ⟨a, rfl, h⟩
  | error e => cases h

namespace Expr

variable {around : Surroundings}

mutual

theorem uses_accounts {e : Expr} {bound used : List String} (h : uses around bound e = .ok used) :
    Accounts around bound used e.free := by
  match e with
  | .identifier name => exact Surroundings.use_accounts h
  | .application items | .list items => exact itemsUses_accounts h
  | .cons head tail =>
    obtain ⟨first, hfirst, h⟩ := Except.exists_of_bind_eq_ok h
    obtain ⟨second, hsecond, h⟩ := Except.exists_of_bind_eq_ok h
    cases h
    exact (uses_accounts hfirst).append (uses_accounts hsecond)
  | .guarded inner condition _ =>
    obtain ⟨first, hfirst, h⟩ := Except.exists_of_bind_eq_ok h
    obtain ⟨second, hsecond, h⟩ := Except.exists_of_bind_eq_ok h
    cases h
    exact (uses_accounts hfirst).append (uses_accounts hsecond)
  | .letIn names values body =>
    obtain ⟨⟨first, inner⟩, hfirst, h⟩ := Except.exists_of_bind_eq_ok h
    obtain ⟨second, hsecond, h⟩ := Except.exists_of_bind_eq_ok h
    cases h
    exact bindingsUses_accounts hfirst (uses_accounts hsecond)
  | .pattern clauses _ =>
    rw [uses] at h
    split at h
    · cases h
    · exact clausesUses_accounts h
  | .label _ | .text _ | .number _ | .builtin _ =>
    cases h
    exact .nil
termination_by sizeOf e

theorem itemsUses_accounts {items : List Expr} {bound used : List String}
    (h : itemsUses around bound items = .ok used) :
    Accounts around bound used (itemsFree items) := by
  match items with
  | [] =>
    cases h
    exact .nil
  | item :: items =>
    obtain ⟨first, hfirst, h⟩ := Except.exists_of_bind_eq_ok h
    obtain ⟨second, hsecond, h⟩ := Except.exists_of_bind_eq_ok h
    cases h
    exact (uses_accounts hfirst).append (itemsUses_accounts hsecond)
termination_by sizeOf items

theorem bindingsUses_accounts {names : List String} {values : List Expr}
    {bound inner used used' rest : List String}
    (h : bindingsUses around bound names values = .ok (used, inner))
    (hrest : Accounts around inner used' rest) :
    Accounts around bound (used ++ used') (bindingsFree names values rest) := by
  match names, values with
  | [], _ | _ :: _, [] =>
    simp only [bindingsUses, Except.ok.injEq, Prod.mk.injEq] at h
    obtain ⟨rfl, rfl⟩ := h
    simpa only [bindingsFree, List.nil_append] using hrest
  | name :: names, value :: values =>
    obtain ⟨first, hfirst, h⟩ := Except.exists_of_bind_eq_ok h
    obtain ⟨⟨second, inner⟩, hsecond, h⟩ := Except.exists_of_bind_eq_ok h
    cases h
    have hlater := (bindingsUses_accounts hsecond hrest).without fun x => mem_bindName
    rw [List.append_assoc, bindingsFree]
    refine .append ?_ hlater
    split at hfirst
    · rw [if_pos ‹_›]
      exact (uses_accounts hfirst).without fun x => mem_bindName
    · rw [if_neg ‹_›]
      exact uses_accounts hfirst
termination_by sizeOf names + sizeOf values

theorem clausesUses_accounts {clauses : List Clause} {bound used : List String}
    (h : clausesUses around bound clauses = .ok used) :
    Accounts around bound used (clausesFree clauses) := by
  match clauses with
  | [] =>
    cases h
    exact .nil
  | .mk row body :: clauses =>
    obtain ⟨⟨first, inner⟩, hfirst, h⟩ := Except.exists_of_bind_eq_ok h
    obtain ⟨second, hsecond, h⟩ := Except.exists_of_bind_eq_ok h
    obtain ⟨third, hthird, h⟩ := Except.exists_of_bind_eq_ok h
    cases h
    exact (rowUses_accounts hfirst (uses_accounts hsecond)).append (clausesUses_accounts hthird)
termination_by sizeOf clauses

theorem rowUses_accounts {row : List Expr} {bound inner used used' rest : List String}
    (h : rowUses around bound row = .ok (used, inner)) (hrest : Accounts around inner used' rest) :
    Accounts around bound (used ++ used') (rowFree row rest) := by
  match row with
  | [] =>
    cases h
    exact hrest
  | formal :: row =>
    obtain ⟨⟨first, middle⟩, hfirst, h⟩ := Except.exists_of_bind_eq_ok h
    obtain ⟨⟨second, inner⟩, hsecond, h⟩ := Except.exists_of_bind_eq_ok h
    cases h
    obtain ⟨hformal, hbound⟩ := formalUses_accounts hfirst
    rw [List.append_assoc]
    exact hformal.append ((rowUses_accounts hsecond hrest).without hbound)
termination_by sizeOf row

theorem formalUses_accounts {formal : Expr} {bound inner used : List String}
    (h : formalUses around bound formal = .ok (used, inner)) :
    Accounts around bound used formal.formalFree ∧
      ∀ x, x ∈ inner ↔ x ∈ formal.boundNames ∨ x ∈ bound := by
  match formal with
  | .identifier name =>
    cases h
    exact ⟨.nil, fun x => mem_bindName⟩
  | .cons head tail =>
    obtain ⟨⟨first, middle⟩, hfirst, h⟩ := Except.exists_of_bind_eq_ok h
    obtain ⟨⟨second, inner⟩, hsecond, h⟩ := Except.exists_of_bind_eq_ok h
    cases h
    obtain ⟨hhead, hmiddle⟩ := formalUses_accounts hfirst
    obtain ⟨htail, hinner⟩ := formalUses_accounts hsecond
    refine ⟨hhead.append (htail.without hmiddle), fun x => ?_⟩
    rw [hinner, hmiddle, boundNames, List.mem_append]
    grind
  | .guarded formal condition _ =>
    obtain ⟨⟨first, inner⟩, hfirst, h⟩ := Except.exists_of_bind_eq_ok h
    obtain ⟨second, hsecond, h⟩ := Except.exists_of_bind_eq_ok h
    cases h
    obtain ⟨hformal, hinner⟩ := formalUses_accounts hfirst
    exact ⟨hformal.append ((uses_accounts hsecond).without hinner), hinner⟩
  | .application _ | .list _ | .letIn _ _ _ | .pattern _ _ | .label _ | .text _ | .number _
  | .builtin _ =>
    cases h
    exact ⟨.nil, fun x => by simp [boundNames]⟩
termination_by sizeOf formal

end

end Expr

/-- What a pattern takes from around it, and what becomes of its other free names. -/
theorem freeNames_accounts {around : Surroundings} {clauses : List Clause} {captured : List String}
    (h : freeNames around clauses = .ok captured) :
    Accounts around [] captured (Expr.clausesFree clauses) ∧ captured.Nodup := by
  obtain ⟨used, hused, h⟩ := Except.exists_of_bind_eq_ok h
  cases h
  have haccounts := Expr.uses_accounts hused
  rw [Expr.free] at haccounts
  exact ⟨⟨fun x => mem_distinct.trans (haccounts.mem_iff x), haccounts.known⟩, nodup_distinct used⟩

/-- The free names of a pattern that it does not take from around it. -/
theorem foreseen_of_freeNames {around : Surroundings} {clauses : List Clause}
    {captured : List String} {x : String} (h : freeNames around clauses = .ok captured)
    (hx : x ∈ Expr.clausesFree clauses) :
    x = discard ∨ around.self = some x ∨ x ∈ captured ∨
      (x ∈ around.builtins ∧ x ∉ around.defined) := by
  obtain ⟨haccounts, -⟩ := freeNames_accounts h
  have hknown := haccounts.known x hx
  have hcaptured := haccounts.mem_iff x
  grind

theorem mem_boundNames_identifier {name x : String} :
    x ∈ Expr.boundNames (.identifier name) ↔ x = name ∧ name ≠ discard := by
  rw [Expr.boundNames]
  split <;> simp_all

theorem mem_rowFree_append {row row' : List Expr} {rest : List String} {x : String}
    (hx : x ∈ Expr.rowFree row' rest) (hrow : x ∉ Expr.rowNames row) :
    x ∈ Expr.rowFree (row ++ row') rest := by
  induction row with
  | nil => exact hx
  | cons formal row ih =>
    rw [Expr.rowNames, List.flatMap_cons, List.mem_append, not_or] at hrow
    rw [List.cons_append, Expr.rowFree, List.mem_append, Expr.mem_without]
    exact .inr ⟨ih hrow.2, hrow.1⟩

theorem mem_rowFree {row : List Expr} {rest : List String} {x : String} (hx : x ∈ rest)
    (hrow : x ∉ Expr.rowNames row) : x ∈ Expr.rowFree row rest := by
  have hfree := mem_rowFree_append (show x ∈ Expr.rowFree [] rest from hx) hrow
  rwa [List.append_nil] at hfree

end ClauseLang
