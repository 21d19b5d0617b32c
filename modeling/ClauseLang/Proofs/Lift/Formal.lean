import ClauseLang.Proofs.Lift.Alike
import ClauseLang.Proofs.Machine.Quiet

namespace ClauseLang

open Eval

variable {voc : Vocabulary} {x : String}

theorem Expr.boundNames_subset : ∀ e : Expr, e.boundNames ⊆ e.identifiers
  | .identifier name => by
    rw [boundNames, identifiers]
    split <;> simp
  | .cons head tail => by
    rw [boundNames, identifiers]
    exact List.append_subset.2
      ⟨List.Subset.trans (boundNames_subset head) (List.subset_append_left _ _),
        List.Subset.trans (boundNames_subset tail) (List.subset_append_right _ _)⟩
  | .guarded inner _ _ => by
    rw [boundNames, identifiers]
    exact List.Subset.trans (boundNames_subset inner) (List.subset_append_left _ _)
  | .application _ | .list _ | .letIn _ _ _ | .pattern _ _ | .label _ | .text _ | .number _
  | .builtin _ => List.nil_subset _

theorem Expr.discard_not_mem_boundNames : ∀ e : Expr, discard ∉ e.boundNames
  | .identifier name => by
    rw [boundNames]
    split <;> simp [*, eq_comm]
  | .cons head tail => by
    rw [boundNames, List.mem_append, not_or]
    exact ⟨discard_not_mem_boundNames head, discard_not_mem_boundNames tail⟩
  | .guarded inner _ _ => discard_not_mem_boundNames inner
  | .application _ | .list _ | .letIn _ _ _ | .pattern _ _ | .label _ | .text _ | .number _
  | .builtin _ => List.not_mem_nil

theorem Expr.identifiers_subset_of_mem {item : Expr} {items : List Expr} (h : item ∈ items) :
    item.identifiers ⊆ itemsIdentifiers items := by
  induction items with
  | nil => cases h
  | cons first items ih =>
    rw [itemsIdentifiers]
    rcases List.mem_cons.1 h with rfl | h
    · exact List.subset_append_left _ _
    · exact List.Subset.trans (ih h) (List.subset_append_right _ _)

theorem Expr.rowNames_append (row row' : List Expr) :
    rowNames (row ++ row') = rowNames row ++ rowNames row' :=
  List.flatMap_append

theorem Expr.rowNames_singleton (formal : Expr) : rowNames [formal] = formal.boundNames :=
  List.flatMap_singleton _ _

theorem Expr.rowNames_subset (row : List Expr) : rowNames row ⊆ itemsIdentifiers row := by
  induction row with
  | nil => exact List.nil_subset _
  | cons formal row ih =>
    rw [rowNames, List.flatMap_cons, itemsIdentifiers]
    exact List.append_subset.2
      ⟨List.Subset.trans formal.boundNames_subset (List.subset_append_left _ _),
        List.Subset.trans ih (List.subset_append_right _ _)⟩

theorem equal_closure (clauses : List Clause) {stages : List (Clause × Env)} (h : stages ≠ []) :
    (Expr.pattern clauses []).equal (.ofStages stages) = false := by
  cases stages with
  | nil => exact absurd rfl h
  | cons s stages => simp [Expr.ofStages, Expr.equal]

mutual

/-- A comparison with code does not see closures. -/
theorem equal_alike {e a b : Expr} (hcode : IsCodeOf .timely e) (h : Alike voc a b) :
    e.equal a = e.equal b := by
  match e, hcode with
  | .list items, .list hitems =>
    cases h with
    | list h =>
      rw [Expr.equal, Expr.equal]
      exact equalItems_alike hitems h
    | _ => rfl
  | .pattern clauses _, .pattern _ _ _ =>
    cases h with
    | closure hne h =>
      rw [equal_closure clauses hne, equal_closure clauses (ne_nil_of_forall₂ h hne)]
    | _ => rfl
  | _, .number _ | _, .text _ | _, .label _ | _, .identifier _ | .application _, .application _
  | .letIn _ _ _, .letIn _ _ _ => cases h <;> rfl
termination_by sizeOf e

theorem equalItems_alike {items xs ys : List Expr} (hcode : ∀ item ∈ items, IsCodeOf .timely item)
    (h : List.Forall₂ (Alike voc) xs ys) : Expr.equalItems items xs = Expr.equalItems items ys := by
  match items, h with
  | [], .nil | [], .cons _ _ | _ :: _, .nil => rfl
  | item :: items, .cons hfirst hrest =>
    simp only [List.mem_cons, forall_eq_or_imp] at hcode
    rw [Expr.equalItems, Expr.equalItems, equal_alike hcode.1 hfirst, equalItems_alike hcode.2 hrest]
termination_by sizeOf items

end

theorem split?_alike (head : Expr) {a b : Expr} (h : Alike voc a b) :
    OptionRel (fun p q => Alike voc p.1 q.1 ∧ Alike voc p.2 q.2) (split? head a) (split? head b) := by
  cases h with
  | text s =>
    simp only [split?]
    cases splitText? head s with
    | none => exact .none
    | some parts => exact .some ⟨.text _, .text _⟩
  | list h =>
    cases h with
    | nil => exact .none
    | cons hfirst hrest => exact .some ⟨hfirst, .list hrest⟩
  | _ => exact .none

/-- What a cons takes for its head depends on the head's length alone, which lifting keeps. -/
theorem LiftedFormal.split?_eq {keep : Bool} {table : LiftTable} {defined : List String}
    {outer : List (String × Expr)} {head head' : Expr}
    (h : LiftedFormal voc keep table defined outer head head') (a : Expr) :
    split? head' a = split? head a := by
  cases h with
  | cons | constant | guarded => cases a <;> rfl
  | _ => rfl

/-- The names are bound to values that are alike. -/
structure BindAlike (voc : Vocabulary) (names : List String) (bound bound' : List (String × Expr)) :
    Prop where
  map_fst : bound.map Prod.fst = names
  values : List.Forall₂ (fun p q => p.1 = q.1 ∧ Alike voc p.2 q.2) bound bound'

namespace BindAlike

variable {a b : Expr} {names : List String} {bound bound' : List (String × Expr)}

theorem nil (voc : Vocabulary) : BindAlike voc [] [] [] :=
  ⟨rfl, .nil⟩

theorem map_fst_right (h : BindAlike voc names bound bound') : bound'.map Prod.fst = names := by
  obtain ⟨hnames, hvalues⟩ := h
  rw [← hnames]
  clear hnames
  induction hvalues with
  | nil => rfl
  | cons h _ ih => rw [List.map_cons, List.map_cons, ih, h.1]

theorem append_singleton (h : BindAlike voc names bound bound') (name : String)
    (hab : Alike voc a b) :
    BindAlike voc (names ++ [name]) (bound ++ [(name, a)]) (bound' ++ [(name, b)]) where
  map_fst := by rw [List.map_append, h.map_fst, List.map_singleton]
  values := List.rel_append h.values (.cons ⟨rfl, hab⟩ .nil)

theorem heldFor (h : BindAlike voc names bound bound') :
    OptionRel (Alike voc) (heldFor x bound) (heldFor x bound') := by
  obtain ⟨-, hvalues⟩ := h
  induction hvalues with
  | nil => exact .none
  | @cons p q ps qs h _ ih =>
    obtain ⟨name, v⟩ := p
    obtain ⟨name', v'⟩ := q
    obtain ⟨rfl, hv⟩ := h
    rw [heldFor_cons, heldFor_cons]
    generalize ClauseLang.heldFor x ps = held at ih
    generalize ClauseLang.heldFor x qs = held' at ih
    cases ih with
    | some hw => exact .some hw
    | none =>
      split
      · exact .some hv
      · exact .none

/-- What a name stands for in the scopes that get the bindings. -/
theorem get?_extend (h : BindAlike voc names bound bound') (env env' : Env) (mark mark' : Nat)
    (x : String) :
    if x ∈ names ∧ x ≠ discard then ∃ v v', (env.extend mark bound).get? x = some v ∧
      (env'.extend mark' bound').get? x = some v' ∧ Alike voc v v'
    else (env.extend mark bound).get? x = env.get? x ∧
      (env'.extend mark' bound').get? x = env'.get? x := by
  by_cases hdiscard : x = discard
  · rw [if_neg fun h => h.2 hdiscard, hdiscard]
    simp only [Env.get?_discard, and_self]
  · rw [Env.get?_extend mark hdiscard, Env.get?_extend mark' hdiscard]
    by_cases hx : x ∈ names
    · rw [if_pos ⟨hx, hdiscard⟩]
      obtain ⟨v, v', hv, hv', hvv⟩ :=
        h.heldFor.exists_of_isSome (isSome_heldFor (h.map_fst.symm ▸ hx))
      rw [hv, hv']
      exact ⟨v, v', rfl, rfl, hvv⟩
    · rw [if_neg fun h => hx h.1, heldFor_eq_none (h.map_fst.symm ▸ hx),
        heldFor_eq_none (h.map_fst_right.symm ▸ hx)]
      exact ⟨rfl, rfl⟩

end BindAlike

section

variable {ev : Evaluator} {ev' : Nat → Evaluator} {env env' : Env}

theorem optionRel_ite {α β : Type} {R : α → β → Prop} {a : α} {b : β} {c c' : Bool} (hc : c = c')
    (h : R a b) : OptionRel R (if c then some a else none) (if c' then some b else none) := by
  subst hc
  cases c with
  | true => exact .some h
  | false => exact .none

theorem matchInto_alike {formal a b : Expr} {names : List String}
    {bound bound' : List (String × Expr)} (hf : IsSimpleOf .timely formal) (ha : Alike voc a b)
    (hb : BindAlike voc names bound bound') :
    Follows sameDepth () (fun _ => OptionRel (BindAlike voc (names ++ formal.boundNames)))
      (matchInto ev env formal a bound) fun k => matchInto (ev' k) env' formal b bound' := by
  have hsame : BindAlike voc (names ++ []) bound bound' := by rwa [List.append_nil]
  cases hf with
  | identifier name =>
    refine .pure (.some ?_)
    rw [Expr.boundNames]
    split
    · exact hsame
    · exact hb.append_singleton name ha
  | number n => exact .pure (optionRel_ite (equal_alike (.number n) ha) hsame)
  | text s => exact .pure (optionRel_ite (equal_alike (.text s) ha) hsame)
  | label name => exact .pure (optionRel_ite (equal_alike (.label name) ha) hsame)
  | list hitems => exact .pure (optionRel_ite (equal_alike (.list hitems) ha) hsame)
  | @cons _ head tail hhead htail =>
    have hsplit := split?_alike head ha
    simp only [matchInto]
    generalize split? head a = parts at hsplit
    generalize split? head b = parts' at hsplit
    cases hsplit with
    | none => exact .pure .none
    | some hparts =>
      refine (matchInto_alike hhead hparts.1 hb).bind fun _ r r' _ hr => ?_
      cases hr with
      | none => exact .pure .none
      | some hbound =>
        rw [Expr.boundNames, ← List.append_assoc]
        exact matchInto_alike htail hparts.2 hbound
termination_by sizeOf formal

end

end ClauseLang
