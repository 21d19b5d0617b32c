import ClauseLang.Expr.Names
import ClauseLang.Proofs.Expr.Equal
import ClauseLang.Proofs.Machine.Ensures
import ClauseLang.Proofs.Scope.Lookup

/-!
A match takes its argument apart without losing or repeating anything: from the values that it gives
to the binders of a formal, the formal can be put together again, and that is the argument. Strings
are cut between characters.
-/

namespace ClauseLang

open Eval

namespace Expr

/-- The binders of a formal from left to right, with those that only discard. -/
def binders : Expr → List String
  | .identifier name => [name]
  | .cons head tail => head.binders ++ tail.binders
  | .guarded inner _ _ => inner.binders
  | _ => []

/-- What a cons stands for: its head in front of a list, or of a string. -/
def putFront : Expr → Expr → Option Expr
  | first, .list rest => some (.list (first :: rest))
  | .text front, .text rest => some (.text (front ++ rest))
  | _, _ => none

/-- A formal put together again from values for its binders, one for each. -/
def rebuild : Expr → List Expr → Option Expr
  | .identifier _, [value] => some value
  | .guarded inner _ _, values => inner.rebuild values
  | .cons head tail, values => do
    let first ← head.rebuild (values.take head.binders.length)
    let rest ← tail.rebuild (values.drop head.binders.length)
    putFront first rest
  | .number n, [] => some (.number n)
  | .text s, [] => some (.text s)
  | .label l, [] => some (.label l)
  | .list xs, [] => some (.list xs)
  | _, _ => none

/-- Each cons of a formal cuts its part of the argument between two characters, if that is a string: a
literal head gets what it says and any other head gets one character. -/
def Cuts : Expr → List Expr → Expr → Prop
  | .guarded inner _ _, values, argument => inner.Cuts values argument
  | .cons head tail, values, .list (first :: rest) =>
    head.Cuts (values.take head.binders.length) first ∧
      tail.Cuts (values.drop head.binders.length) (.list rest)
  | .cons head tail, values, .text value =>
    ∃ front rest : String, value = front ++ rest ∧ front.rawEndPos.IsValid value ∧
      (match head with
        | .text literal => front = literal
        | _ => front.length = 1) ∧
      head.rebuild (values.take head.binders.length) = some (.text front) ∧
      tail.rebuild (values.drop head.binders.length) = some (.text rest) ∧
      head.Cuts (values.take head.binders.length) (.text front) ∧
      tail.Cuts (values.drop head.binders.length) (.text rest)
  | .cons _ _, _, _ => False
  | _, _, _ => True

end Expr

/-- What is bound by the binders of a formal: those that discard bind nothing. -/
def bindingsOf (names : List String) (values : List Expr) : List (String × Expr) :=
  (names.zip values).filter (·.1 ≠ discard)

theorem bindingsOf_append {names names' : List String} {values values' : List Expr}
    (h : names.length = values.length) :
    bindingsOf (names ++ names') (values ++ values') =
      bindingsOf names values ++ bindingsOf names' values' := by
  rw [bindingsOf, List.zip_append h, List.filter_append]
  rfl

theorem Expr.boundNames_eq (formal : Expr) :
    formal.boundNames = formal.binders.filter (· ≠ discard) := by
  match formal with
  | .identifier name =>
    rw [boundNames, binders]
    by_cases h : name = discard <;> simp [h]
  | .cons head tail =>
    rw [boundNames, binders, head.boundNames_eq, tail.boundNames_eq, List.filter_append]
  | .guarded inner _ _ => rw [boundNames, binders, inner.boundNames_eq]
  | .application _ | .label _ | .text _ | .number _ | .list _ | .letIn _ _ _ | .pattern _ _
  | .builtin _ => rfl

theorem map_fst_bindingsOf {formal : Expr} {values : List Expr}
    (h : values.length = formal.binders.length) :
    (bindingsOf formal.binders values).map Prod.fst = formal.boundNames := by
  have hfst : (formal.binders.zip values).map Prod.fst = formal.binders :=
    List.map_fst_zip (Nat.le_of_eq h.symm)
  rw [formal.boundNames_eq, ← hfst, List.filter_map, hfst]
  rfl

theorem splitText?_eq_some {head : Expr} {value front rest : String}
    (h : splitText? head value = some (front, rest)) :
    value = front ++ rest ∧ ((∃ literal, head = .text literal) ∨ front.length = 1) := by
  obtain ⟨width, hsplit, hwidth⟩ : ∃ width, splitText? head value =
      (if value.isEmpty || value.length < width then none
        else some (String.ofList (value.toList.take width), String.ofList (value.toList.drop width))) ∧
      ((∃ literal, head = .text literal) ∨ width = 1) := by
    refine ⟨_, rfl, ?_⟩
    split
    next literal => exact .inl ⟨literal, rfl⟩
    · exact .inr rfl
  rw [hsplit] at h
  by_cases hshort : (value.isEmpty || decide (value.length < width)) = true
  · rw [if_pos hshort] at h
    cases h
  · rw [if_neg hshort] at h
    cases h
    rw [Bool.or_eq_true, not_or, decide_eq_true_eq, Nat.not_lt, ← String.length_toList] at hshort
    refine ⟨?_, ?_⟩
    · rw [← String.ofList_append, List.take_append_drop, String.ofList_toList]
    · rw [String.length_ofList, List.length_take_of_le hshort.2]
      exact hwidth

/-- The parts that a cons sees, put one after the other, are the argument. -/
theorem split?_eq_some {head argument front rest : Expr}
    (h : split? head argument = some (front, rest)) :
    (∃ items, argument = .list (front :: items) ∧ rest = .list items) ∨
      ∃ f r : String, argument = .text (f ++ r) ∧ front = .text f ∧ rest = .text r ∧
        ((∃ literal, head = .text literal) ∨ f.length = 1) := by
  match argument with
  | .list (first :: items) =>
    cases h
    exact .inl ⟨items, rfl, rfl⟩
  | .text value =>
    obtain ⟨⟨f, r⟩, hsplit, hparts⟩ := Option.map_eq_some_iff.1 h
    cases hparts
    obtain ⟨rfl, hwidth⟩ := splitText?_eq_some hsplit
    exact .inr ⟨f, r, rfl, rfl, rfl, hwidth⟩
  | .list [] | .application _ | .identifier _ | .label _ | .number _ | .cons _ _ | .letIn _ _ _
  | .guarded _ _ _ | .pattern _ _ | .builtin _ => cases h

namespace Expr

/-- The values take the argument apart along the formal. -/
structure Resolves (formal : Expr) (values : List Expr) (argument : Expr) : Prop where
  length_eq : values.length = formal.binders.length
  rebuild : ∃ value, formal.rebuild values = some value ∧ value.equal argument
  cuts : formal.Cuts values argument

theorem Resolves.identifier (name : String) (argument : Expr) :
    (Expr.identifier name).Resolves [argument] argument where
  length_eq := rfl
  rebuild := ⟨argument, rfl, argument.equal_refl⟩
  cuts := trivial

theorem Resolves.guarded {inner argument : Expr} {values : List Expr}
    (h : inner.Resolves values argument) (condition : Expr) (constant : Bool) :
    (Expr.guarded inner condition constant).Resolves values argument where
  length_eq := h.length_eq
  rebuild := by
    obtain ⟨value, hvalue, hequal⟩ := h.rebuild
    exact ⟨value, by rw [Expr.rebuild, hvalue], hequal⟩
  cuts := by
    rw [Cuts]
    exact h.cuts

variable {head tail : Expr} {values others : List Expr}

theorem Resolves.cons_list {front : Expr} {items : List Expr} (hhead : head.Resolves values front)
    (htail : tail.Resolves others (.list items)) :
    (Expr.cons head tail).Resolves (values ++ others) (.list (front :: items)) where
  length_eq := by rw [List.length_append, hhead.length_eq, htail.length_eq, binders,
    List.length_append]
  rebuild := by
    obtain ⟨first, hfirst, hequal⟩ := hhead.rebuild
    obtain ⟨value, hvalue, hrest⟩ := htail.rebuild
    obtain ⟨rest, rfl, hitems⟩ := exists_list_of_equal hrest
    refine ⟨.list (first :: rest), ?_, ?_⟩
    · rw [Expr.rebuild, List.take_left' hhead.length_eq, List.drop_left' hhead.length_eq, hfirst,
        hvalue]
      rfl
    · rw [equal, equalItems, hequal, hitems]
      rfl
  cuts := by
    rw [Cuts, List.take_left' hhead.length_eq, List.drop_left' hhead.length_eq]
    exact ⟨hhead.cuts, htail.cuts⟩

theorem Resolves.cons_text {front rest : String} (hhead : head.Resolves values (.text front))
    (htail : tail.Resolves others (.text rest))
    (hwidth : (∃ literal, head = .text literal) ∨ front.length = 1) :
    (Expr.cons head tail).Resolves (values ++ others) (.text (front ++ rest)) where
  length_eq := by rw [List.length_append, hhead.length_eq, htail.length_eq, binders,
    List.length_append]
  rebuild := by
    obtain ⟨_, hfirst, hequal⟩ := hhead.rebuild
    obtain ⟨_, hvalue, hrest⟩ := htail.rebuild
    obtain rfl := eq_text_of_equal hequal
    obtain rfl := eq_text_of_equal hrest
    refine ⟨.text (front ++ rest), ?_, equal_refl _⟩
    rw [Expr.rebuild, List.take_left' hhead.length_eq, List.drop_left' hhead.length_eq, hfirst,
      hvalue]
    rfl
  cuts := by
    obtain ⟨_, hfirst, hequal⟩ := hhead.rebuild
    obtain ⟨_, hvalue, hrest⟩ := htail.rebuild
    obtain rfl := eq_text_of_equal hequal
    obtain rfl := eq_text_of_equal hrest
    rw [Cuts, List.take_left' hhead.length_eq, List.drop_left' hhead.length_eq]
    refine ⟨front, rest, rfl, String.Pos.Raw.isValid_iff_exists_append.2 ⟨front, rest, rfl, rfl⟩,
      ?_, hfirst, hvalue, hhead.cuts, htail.cuts⟩
    split
    next literal =>
      cases values with
      | nil => cases hfirst; rfl
      | cons => cases hfirst
    next hne => exact hwidth.resolve_left fun ⟨literal, h⟩ => hne literal h

theorem Resolves.literal {formal argument : Expr} (hbinders : formal.binders = [])
    (hrebuild : formal.rebuild [] = some formal) (hcuts : formal.Cuts [] argument)
    (h : formal.equal argument) : formal.Resolves [] argument where
  length_eq := by
    rw [hbinders]
    rfl
  rebuild := ⟨formal, hrebuild, h⟩
  cuts := hcuts

end Expr

theorem matchInto_resolves (ev : Evaluator) (env : Env) (formal argument : Expr)
    (bound : List (String × Expr)) :
    (matchInto ev env formal argument bound).Reports
      (fun r => ∀ bound' ∈ r, ∃ values, formal.Resolves values argument ∧
        bound' = bound ++ bindingsOf formal.binders values)
      fun _ => True := by
  match formal with
  | .identifier name =>
    refine Reports.pure ?_
    rintro _ ⟨rfl⟩
    refine ⟨[argument], .identifier name argument, ?_⟩
    rw [Expr.binders, bindingsOf]
    by_cases h : name = discard <;> simp [h]
  | .cons head tail =>
    rw [matchInto]
    split
    · exact Reports.pure (by simp)
    next front rest hsplit =>
      refine (matchInto_resolves ev env head front bound).bind fun r hr => ?_
      cases r with
      | none => exact Reports.pure (by simp)
      | some bound₁ =>
        obtain ⟨values, hhead, rfl⟩ := hr bound₁ rfl
        refine (matchInto_resolves ev env tail rest _).mono (fun r hr bound' hbound => ?_)
          fun _ => id
        obtain ⟨others, htail, rfl⟩ := hr bound' hbound
        refine ⟨values ++ others, ?_, ?_⟩
        · rcases split?_eq_some hsplit with ⟨items, rfl, rfl⟩ | ⟨f, r, rfl, rfl, rfl, hwidth⟩
          · exact hhead.cons_list htail
          · exact hhead.cons_text htail hwidth
        · rw [Expr.binders, bindingsOf_append hhead.length_eq.symm, List.append_assoc]
  | .guarded inner condition constant =>
    rw [matchInto]
    refine (matchInto_resolves ev env inner argument bound).bind fun r hr => ?_
    cases r with
    | none => exact Reports.pure (by simp)
    | some bound₁ =>
      obtain ⟨values, hinner, rfl⟩ := hr bound₁ rfl
      refine (reports_trivial _).bind fun scope _ => ?_
      refine (reports_trivial _).bind fun verdict _ => Reports.pure ?_
      intro bound' h
      split at h
      · cases h
        exact ⟨values, hinner.guarded condition constant, rfl⟩
      · cases h
  | .number _ | .text _ | .label _ | .list _ =>
    refine Reports.pure fun bound' h => ?_
    split at h
    next hequal =>
      cases h
      exact ⟨[], .literal rfl rfl trivial hequal, (List.append_nil _).symm⟩
    · cases h
  | .application _ | .letIn _ _ _ | .pattern _ _ | .builtin _ => exact Reports.fail trivial
termination_by sizeOf formal

/-- A successful match takes the argument apart: with the values that the names have in the new scope,
and some value for each binder that discards, the formal is the argument again. -/
theorem tryMatch_rebuild {ev : Evaluator} {formal argument : Expr} {env env' : Env}
    {m m' : Machine} (hnodup : formal.boundNames.Nodup)
    (h : tryMatch ev formal argument env m = .ok (some env') m') :
    ∃ values : List Expr, values.length = formal.binders.length ∧
      (∀ p ∈ formal.binders.zip values, p.1 ≠ discard → env'.get? p.1 = some p.2) ∧
      (∃ value, formal.rebuild values = some value ∧ value.equal argument) ∧
      formal.Cuts values argument := by
  have hreports := matchInto_resolves ev env formal argument []
  have htry : (tryMatch ev formal argument env).Reports
      (fun r => ∀ scope ∈ r, ∃ values mark, formal.Resolves values argument ∧
        scope = env.extend mark (bindingsOf formal.binders values)) fun _ => True := by
    refine hreports.bind fun r hr => ?_
    cases r with
    | none => exact Reports.pure (by simp)
    | some bound =>
      obtain ⟨values, hvalues, rfl⟩ := hr bound rfl
      refine (Reports.extend (P := fun scope => ∃ mark, scope =
        env.extend mark (bindingsOf formal.binders values)) fun mark => ⟨mark, rfl⟩).bind ?_
      rintro _ ⟨mark, rfl⟩
      refine Reports.pure ?_
      rintro _ ⟨rfl⟩
      exact ⟨values, mark, hvalues, rfl⟩
  have hm := htry m
  rw [h] at hm
  obtain ⟨values, mark, hvalues, rfl⟩ := hm env' rfl
  refine ⟨values, hvalues.length_eq, ?_, hvalues.rebuild, hvalues.cuts⟩
  rintro ⟨name, value⟩ hmem hname
  have hbound : (name, value) ∈ bindingsOf formal.binders values :=
    List.mem_filter.2 ⟨hmem, decide_eq_true hname⟩
  rw [Env.get?_extend mark hname, heldFor_of_mem _ hbound]
  · rfl
  · rw [map_fst_bindingsOf hvalues.length_eq]
    exact hnodup

def labelled : Expr :=
  .cons (.cons (.text "äb") (.guarded (.identifier "t") (.application [.identifier "==",
    .application [.identifier "len", .identifier "t"], .number 2]) false))
    (.cons (.identifier "_") (.identifier "rest"))

theorem tryMatch_rebuild_labelled :
    let argument : Expr := .list [.text "äbçd", .number 1, .label "x"]
    labelled.boundNames.Nodup ∧ ∃ env' m',
      tryMatch (eval {} 8) labelled argument (.withBuiltins 0) {} = .ok (some env') m' ∧
        ∃ values : List Expr, values.length = labelled.binders.length ∧
          (∀ p ∈ labelled.binders.zip values, p.1 ≠ discard → env'.get? p.1 = some p.2) ∧
          (∃ value, labelled.rebuild values = some value ∧ value.equal argument) ∧
          labelled.Cuts values argument := by
  intro argument
  have hnodup : labelled.boundNames.Nodup := by decide
  have hmatch : (((tryMatch (eval {} 8) labelled argument (.withBuiltins 0)).value? {}).bind
      id).isSome := by decide +kernel
  obtain ⟨env', henv⟩ := Option.isSome_iff_exists.1 hmatch
  obtain ⟨_, hvalue, rfl⟩ := Option.bind_eq_some_iff.1 henv
  obtain ⟨m', h⟩ := exists_ok_of_value? hvalue
  exact ⟨hnodup, env', m', h, tryMatch_rebuild hnodup h⟩

end ClauseLang
