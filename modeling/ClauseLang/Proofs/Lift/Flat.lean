import ClauseLang.Proofs.Lift.Shape

/-!
Lifted programs are flat and closed. There are no patterns left inside the lifted ones, apart from
conditions that are constant and lists that are only compared, and a lifted pattern needs no names but
the builtins, the patterns before it, and its own.
-/

namespace ClauseLang

open Lifting

namespace Expr

mutual

def hasPattern : Expr → Bool
  | .pattern _ _ => true
  | .application items | .list items => itemsHavePattern items
  | .cons head tail => head.hasPattern || tail.hasPattern
  | .letIn _ values body => itemsHavePattern values || body.hasPattern
  | .guarded inner condition _ => inner.hasPattern || condition.hasPattern
  | .identifier _ | .label _ | .text _ | .number _ | .builtin _ => false

def itemsHavePattern : List Expr → Bool
  | [] => false
  | item :: items => item.hasPattern || itemsHavePattern items

end

/-- There are no patterns in a formal, except in constant conditions and in closed lists. -/
def isFlatFormal : Expr → Bool
  | .guarded inner condition constant =>
    inner.isFlatFormal && (constant || !condition.hasPattern)
  | .cons head tail => head.isFlatFormal && tail.isFlatFormal
  | .list _ => true
  | formal => !formal.hasPattern

end Expr

/-- There are no patterns in a clause, except in constant conditions and in closed lists of its
row. -/
def Clause.isFlat (clause : Clause) : Bool :=
  clause.row.all Expr.isFlatFormal && !clause.body.hasPattern

theorem itemsHavePattern_eq_any (items : List Expr) :
    Expr.itemsHavePattern items = items.any Expr.hasPattern := by
  induction items with
  | nil => rfl
  | cons item items ih => rw [Expr.itemsHavePattern, ih, List.any_cons]

theorem hasPattern_call (name : String) (arguments : List String) :
    (call name arguments).hasPattern = false := by
  unfold call
  split
  · rfl
  · simp [Expr.hasPattern, itemsHavePattern_eq_any]

abbrev OuterFlat : List (String × Expr) → Prop :=
  OuterAll fun e => e.hasPattern = false

theorem hasPattern_wrap {bindings : List (String × Expr)} {e : Expr} (h : OuterFlat bindings)
    (he : e.hasPattern = false) : (wrap bindings e).hasPattern = false := by
  unfold wrap
  split
  · exact he
  · rw [Expr.hasPattern, itemsHavePattern_eq_any, he, Bool.or_false, List.any_map,
      List.any_eq_false]
    exact fun p hp => by simp [h p hp]

section

variable {voc : Vocabulary}

theorem LiftedPattern.hasPattern_eq_false {table : LiftTable} {defined : List String}
    {self : Option String} {clauses : List Clause} {e' : Expr}
    (h : LiftedPattern voc false table defined self clauses e') : e'.hasPattern = false := by
  cases h with
  | lifted => exact hasPattern_call _ _

mutual

theorem Lifted.hasPattern_eq_false {table : LiftTable} {defined : List String} {e e' : Expr}
    (h : Lifted voc false table defined e e') : e'.hasPattern = false := by
  match e, h with
  | _, .identifier _ | _, .label _ | _, .text _ | _, .number _ => rfl
  | .application items, .application h | .list items, .list h => exact h.hasPattern_eq_false
  | .letIn names values body, .letIn hb h =>
    rw [Expr.hasPattern, hb.hasPattern_eq_false, h.hasPattern_eq_false]
    rfl
  | .pattern clauses _, .pattern h => exact h.hasPattern_eq_false
termination_by sizeOf e

theorem LiftedItems.hasPattern_eq_false {table : LiftTable} {defined : List String}
    {items items' : List Expr} (h : LiftedItems voc false table defined items items') :
    Expr.itemsHavePattern items' = false := by
  match items, h with
  | [], .nil => rfl
  | item :: items, .cons h hs =>
    rw [Expr.itemsHavePattern, h.hasPattern_eq_false, hs.hasPattern_eq_false]
    rfl
termination_by sizeOf items

theorem LiftedBindings.hasPattern_eq_false {table : LiftTable} {defined inner names : List String}
    {values values' : List Expr}
    (h : LiftedBindings voc false table defined names values values' inner) :
    Expr.itemsHavePattern values' = false := by
  match values, h with
  | [], .nil => rfl
  | .pattern clauses _ :: values, .pattern h hs =>
    rw [Expr.itemsHavePattern, h.hasPattern_eq_false, hs.hasPattern_eq_false]
    rfl
  | value :: values, .value _ h hs =>
    rw [Expr.itemsHavePattern, h.hasPattern_eq_false, hs.hasPattern_eq_false]
    rfl
termination_by sizeOf values

end

theorem LiftedFormal.isFlatFormal {table : LiftTable} {defined : List String}
    {outer : List (String × Expr)} {e e' : Expr}
    (h : LiftedFormal voc false table defined outer e e') (houter : OuterFlat outer) :
    e'.isFlatFormal := by
  match e, h with
  | _, .identifier _ | _, .label _ | _, .text _ | _, .number _ | _, .list _ => rfl
  | .cons head tail, .cons hhead htail =>
    rw [Expr.isFlatFormal, hhead.isFlatFormal houter, htail.isFlatFormal houter]
    rfl
  | .guarded inner condition _, .constant hinner =>
    rw [Expr.isFlatFormal, hinner.isFlatFormal houter]
    rfl
  | .guarded inner condition _, .guarded hinner h =>
    have hwrap := hasPattern_wrap (houter.mentioned condition) h.hasPattern_eq_false
    rw [Expr.isFlatFormal, hinner.isFlatFormal houter, hwrap]
    rfl
termination_by sizeOf e

theorem LiftedRow.all_isFlatFormal {table : LiftTable} {defined bound : List String}
    {outer : List (String × Expr)} {row row' : List Expr}
    (h : LiftedRow voc false table defined outer bound row row') (houter : OuterFlat outer) :
    row'.all Expr.isFlatFormal := by
  induction row generalizing bound row' with
  | nil =>
    cases h
    rfl
  | cons formal row ih =>
    cases h with
    | cons h hs => rw [List.all_cons, h.isFlatFormal (houter.outside _), ih hs, Bool.and_self]

theorem LiftedClauses.isFlat {table : LiftTable} {defined captured : List String}
    {self : Option String} {name : String} {clauses clauses' : List Clause}
    (h : LiftedClauses voc false table defined self name captured clauses clauses') :
    ∀ clause ∈ clauses', clause.isFlat := by
  induction clauses generalizing clauses' with
  | nil =>
    cases h
    simp
  | cons clause clauses ih =>
    cases h with
    | @cons _ _ _ _ params _ _ row _ body _ _ _ _ _ hrow hbody hs =>
      have houter : OuterFlat (outerNames captured params self name) :=
        .outerNames (fun _ _ => rfl) (hasPattern_call name params) self
      have hparams : (params.map Expr.identifier).all Expr.isFlatFormal := by
        simp [Expr.isFlatFormal, Expr.hasPattern]
      have hbody' := hasPattern_wrap ((houter.outside (Expr.rowNames row)).mentioned body)
        hbody.hasPattern_eq_false
      simp only [List.mem_cons, forall_eq_or_imp]
      refine ⟨?_, ih hs⟩
      rw [Clause.isFlat, Clause.row, Clause.body, List.all_append, hparams,
        hrow.all_isFlatFormal houter, hbody']
      rfl

theorem isPattern_eq_false_of_hasPattern {e : Expr} (h : e.hasPattern = false) :
    e.isPattern = false := by
  cases e with
  | pattern => cases h
  | _ => rfl

theorem mem_itemsFree_map_identifier {x : String} {names : List String} :
    x ∈ Expr.itemsFree (names.map .identifier) ↔ x ∈ names := by
  induction names with
  | nil => simp [Expr.itemsFree]
  | cons name names ih => simp [Expr.itemsFree, Expr.free, ih]

theorem mem_free_call {x name : String} {arguments : List String} :
    x ∈ (call name arguments).free ↔ x = name ∨ x ∈ arguments := by
  unfold call
  split
  next h => simp [Expr.free, List.isEmpty_iff.1 h]
  · rw [Expr.free, mem_itemsFree_map_identifier, List.mem_cons]

variable {x : String}

theorem LiftedPattern.mem_free {table : LiftTable} {defined : List String} {self : Option String}
    {clauses : List Clause} {e' : Expr}
    (h : LiftedPattern voc false table defined self clauses e') (hx : x ∈ e'.free) :
    (x ∈ Expr.clausesFree clauses ∧ self ≠ some x) ∨ x ∈ table.map Prod.fst := by
  cases h with
  | @lifted _ before _ _ name captured _ clauses' hcaptured _ htable =>
    rcases mem_free_call.1 hx with rfl | hx
    · refine .inr ((htable.map Prod.fst).subset ?_)
      simp
    · have hmem := ((freeNames_accounts hcaptured).1.mem_iff x).1 hx
      exact .inl ⟨hmem.1, hmem.2.2.2.1⟩

mutual

theorem Lifted.mem_free {table : LiftTable} {defined : List String} {e e' : Expr}
    (h : Lifted voc false table defined e e') (hx : x ∈ e'.free) :
    x ∈ e.free ∨ x ∈ table.map Prod.fst := by
  match e, h with
  | _, .identifier _ | _, .label _ | _, .text _ | _, .number _ => exact .inl hx
  | .application items, .application h | .list items, .list h => exact h.mem_free hx
  | .letIn names values body, .letIn hb h => exact hb.mem_free (fun hx => h.mem_free hx) hx
  | .pattern clauses _, .pattern h => exact (h.mem_free hx).imp_left And.left
termination_by sizeOf e

theorem LiftedItems.mem_free {table : LiftTable} {defined : List String} {items items' : List Expr}
    (h : LiftedItems voc false table defined items items') (hx : x ∈ Expr.itemsFree items') :
    x ∈ Expr.itemsFree items ∨ x ∈ table.map Prod.fst := by
  match items, h with
  | [], .nil => exact .inl hx
  | item :: items, .cons h hs =>
    rw [Expr.itemsFree, List.mem_append] at hx ⊢
    rcases hx with hx | hx
    · exact (h.mem_free hx).imp_left .inl
    · exact (hs.mem_free hx).imp_left .inr
termination_by sizeOf items

theorem LiftedBindings.mem_free {table : LiftTable} {defined inner names rest rest' : List String}
    {values values' : List Expr}
    (h : LiftedBindings voc false table defined names values values' inner)
    (hrest : x ∈ rest' → x ∈ rest ∨ x ∈ table.map Prod.fst)
    (hx : x ∈ Expr.bindingsFree names values' rest') :
    x ∈ Expr.bindingsFree names values rest ∨ x ∈ table.map Prod.fst := by
  match names, values, h with
  | [], [], .nil => exact hrest hx
  | name :: names, .pattern clauses _ :: values, .pattern h hs =>
    have hvalue := isPattern_eq_false_of_hasPattern h.hasPattern_eq_false
    rw [Expr.bindingsFree_of_isPattern_eq_false _ _ _ _ hvalue, List.mem_append,
      Expr.mem_without] at hx
    rw [Expr.bindingsFree_pattern, List.mem_append, Expr.mem_without, Expr.mem_without]
    rcases hx with hx | ⟨hx, hname⟩
    · refine (h.mem_free hx).imp_left fun ⟨hx, hself⟩ => .inl ⟨hx, fun hbound => hself ?_⟩
      rw [Expr.boundNames] at hbound
      split at hbound
      · cases hbound
      · rw [List.mem_singleton.1 hbound]
    · exact (hs.mem_free hrest hx).imp_left fun hx => .inr ⟨hx, hname⟩
  | name :: names, value :: values, .value hpattern h hs =>
    have hvalue := isPattern_eq_false_of_hasPattern h.hasPattern_eq_false
    rw [Expr.bindingsFree_of_isPattern_eq_false _ _ _ _ hvalue, List.mem_append,
      Expr.mem_without] at hx
    rw [Expr.bindingsFree_of_isPattern_eq_false _ _ _ _ hpattern, List.mem_append, Expr.mem_without]
    rcases hx with hx | ⟨hx, hname⟩
    · exact (h.mem_free hx).imp_left .inl
    · exact (hs.mem_free hrest hx).imp_left fun hx => .inr ⟨hx, hname⟩
termination_by sizeOf values

end

theorem formalFree_of_isSimple {e : Expr} (h : IsSimple e) : e.formalFree = [] := by
  cases h with
  | cons hhead htail =>
    rw [Expr.formalFree, formalFree_of_isSimple hhead, formalFree_of_isSimple htail]
    rfl
  | _ => rfl
termination_by sizeOf e

theorem formalFree_guarded (name : String) (condition : Expr) (constant : Bool) :
    (Expr.guarded (.identifier name) condition constant).formalFree =
      Expr.without (Expr.identifier name).boundNames condition.free := by
  rw [Expr.formalFree, formalFree_of_isSimple (.identifier name), List.nil_append]

theorem mem_free_wrap {bindings : List (String × Expr)} {e : Expr} (h : OuterFlat bindings)
    (hx : x ∈ (wrap bindings e).free) :
    (∃ p ∈ bindings, x ∈ p.2.free) ∨ (x ∈ e.free ∧ (x ∈ bindings.map Prod.fst → x = discard)) := by
  have hbindings : x ∈ Expr.bindingsFree (bindings.map Prod.fst) (bindings.map Prod.snd) e.free := by
    cases bindings with
    | nil => exact hx
    | cons p bindings => exact hx
  clear hx
  induction bindings with
  | nil => exact .inr ⟨hbindings, by simp⟩
  | cons p bindings ih =>
    have hpattern := isPattern_eq_false_of_hasPattern (h p List.mem_cons_self)
    rw [List.map_cons, List.map_cons, Expr.bindingsFree_of_isPattern_eq_false _ _ _ _ hpattern,
      List.mem_append, Expr.mem_without] at hbindings
    rcases hbindings with hx | ⟨hx, hname⟩
    · exact .inl ⟨p, List.mem_cons_self, hx⟩
    · rcases ih (fun q hq => h q (List.mem_cons_of_mem _ hq)) hx with ⟨q, hq, hx⟩ | ⟨hx, hlater⟩
      · exact .inl ⟨q, List.mem_cons_of_mem _ hq, hx⟩
      · refine .inr ⟨hx, fun hmem => ?_⟩
        rcases List.mem_cons.1 hmem with rfl | hmem
        · by_contra hne
          simp [Expr.boundNames, hne] at hname
        · exact hlater hmem

/-- What a name that is free in a pattern may be, if the pattern can be lifted. -/
def IsForeseen (voc : Vocabulary) (self : Option String) (captured : List String) (x : String) :
    Prop :=
  x = discard ∨ self = some x ∨ x ∈ captured ∨ x ∈ voc.builtins

/-- What a name that is free in a lifted pattern is. -/
def IsClosedName (voc : Vocabulary) (table : LiftTable) (name x : String) : Prop :=
  x = discard ∨ x ∈ voc.builtins ∨ x ∈ table.map Prod.fst ∨ x = name

section

variable {table : LiftTable} {defined locals captured params : List String} {self : Option String}
  {name : String}

theorem isClosedName_of_mem_wrap {e e' : Expr} {seen : List String}
    (hleading : IsLeading voc.program locals captured params)
    (hlifted : x ∈ e'.free → x ∈ e.free ∨ x ∈ table.map Prod.fst)
    (hforeseen : x ∈ e.free → IsForeseen voc self captured x)
    (hx : x ∈ (wrap (mentioned e (outside seen (outerNames captured params self name))) e').free)
    (hseen : x ∉ seen) (hparam : x ∉ params) : IsClosedName voc table name x := by
  have hflat : OuterFlat (outerNames captured params self name) :=
    .outerNames (fun _ _ => rfl) (hasPattern_call name params) self
  rcases mem_free_wrap ((hflat.outside seen).mentioned e) hx with ⟨p, hp, hx⟩ | ⟨hx, hrebound⟩
  · have houter : OuterAll (fun held => x ∈ held.free → x = name ∨ x ∈ params)
        (outerNames captured params self name) := by
      refine .outerNames (fun param hp hx => ?_) (fun hx => mem_free_call.1 hx) self
      rw [Expr.free, List.mem_singleton] at hx
      exact .inr (hx ▸ hp)
    rcases ((houter.outside seen).mentioned e) p hp hx with hname | hx
    · exact .inr (.inr (.inr hname))
    · exact absurd hx hparam
  · rcases hlifted hx with hx | hx
    · have hmentioned (h : self = some x ∨ (x ∈ captured ∧ x ∉ params)) : x = discard :=
        hrebound (mem_mentioned hleading h hseen (Expr.mem_identifiers_of_mem_free hx))
      rcases hforeseen hx with hdiscard | hself | hcaptured | hbuiltin
      · exact .inl hdiscard
      · exact .inl (hmentioned (.inl hself))
      · exact .inl (hmentioned (.inr ⟨hcaptured, hparam⟩))
      · exact .inr (.inl hbuiltin)
    · exact .inr (.inr (.inl hx))

theorem LiftedRow.isClosedName {row row' : List Expr} {bound rest rest' : List String}
    (h : LiftedRow voc false table defined (outerNames captured params self name) bound row row')
    (hcode : ∀ formal ∈ row, IsFormal formal)
    (hleading : IsLeading voc.program locals captured params)
    (hforeseen : x ∈ Expr.rowFree row rest → IsForeseen voc self captured x)
    (hrest : x ∈ rest' → x ∉ bound → x ∉ Expr.rowNames row → IsClosedName voc table name x)
    (hx : x ∈ Expr.rowFree row' rest') (hbound : x ∉ bound) (hparam : x ∉ params) :
    IsClosedName voc table name x := by
  induction row generalizing bound row' with
  | nil =>
    cases h
    exact hrest hx hbound (by simp [Expr.rowNames])
  | cons formal row ih =>
    rw [List.forall_mem_cons] at hcode
    cases h with
    | cons h hs =>
      rw [Expr.rowFree, List.mem_append, Expr.mem_without, h.boundNames_eq] at hx
      simp only [Expr.rowFree, List.mem_append, Expr.mem_without] at hforeseen
      simp only [Expr.rowNames, List.flatMap_cons, List.mem_append, not_or] at hrest
      rcases hx with hx | ⟨hx, hformal⟩
      · have hguard {bindingName : String} {condition condition' : Expr}
            (hlifted : x ∈ condition'.free → x ∈ condition.free ∨ x ∈ table.map Prod.fst)
            (hsource : x ∈ condition.free ∧ x ∉ (Expr.identifier bindingName).boundNames →
              IsForeseen voc self captured x)
            (hx : x ∈ (wrap (mentioned condition (outside
              (bound ++ (Expr.identifier bindingName).boundNames)
              (outerNames captured params self name))) condition').free ∧
                x ∉ (Expr.identifier bindingName).boundNames) : IsClosedName voc table name x := by
          refine isClosedName_of_mem_wrap hleading hlifted (fun hc => hsource ⟨hc, hx.2⟩) hx.1 ?_
            hparam
          rw [List.mem_append, not_or]
          exact ⟨hbound, hx.2⟩
        cases hcode.1 with
        | simple hsimple =>
          rw [h.eq_of_isSimple hsimple, formalFree_of_isSimple hsimple] at hx
          cases hx
        | guarded bindingName constant =>
          cases h with
          | constant hinner =>
            rw [hinner.eq_of_isSimple (.identifier bindingName)] at hx
            simp only [formalFree_guarded, Expr.mem_without] at hx hforeseen
            exact hguard .inl (fun hc => hforeseen (.inl hc)) hx
          | guarded hinner h =>
            rw [hinner.eq_of_isSimple (.identifier bindingName)] at hx
            simp only [formalFree_guarded, Expr.mem_without] at hx hforeseen
            exact hguard h.mem_free (fun hc => hforeseen (.inl hc)) hx
      · refine ih hs hcode.2 (fun hrow => hforeseen (.inr ⟨hrow, hformal⟩)) (fun hx' hb hr => ?_) hx ?_
        · rw [List.mem_append, not_or] at hb
          exact hrest hx' hb.1 ⟨hb.2, hr⟩
        · rw [List.mem_append, not_or]
          exact ⟨hbound, hformal⟩

theorem mem_rowFree_params {row : List Expr} {rest : List String} :
    x ∈ Expr.rowFree (params.map .identifier ++ row) rest →
      x ∈ Expr.rowFree row rest ∧ (x ∈ params → x = discard) := by
  induction params with
  | nil => exact fun hx => ⟨hx, by simp⟩
  | cons param params ih =>
    intro hx
    rw [List.map_cons, List.cons_append, Expr.rowFree, Expr.formalFree, List.nil_append,
      Expr.mem_without] at hx
    · obtain ⟨hrow, hlater⟩ := ih hx.1
      refine ⟨hrow, fun hmem => ?_⟩
      rcases List.mem_cons.1 hmem with rfl | hmem
      · by_contra hne
        simp [Expr.boundNames, hne] at hx
      · exact hlater hmem
    all_goals exact fun _ _ => nofun

theorem LiftedClauses.isClosedName {arity : Nat} {clauses clauses' : List Clause}
    (h : LiftedClauses voc false table defined self name captured clauses clauses')
    (hcode : ∀ clause ∈ clauses, IsClause arity clause)
    (hforeseen : x ∈ Expr.clausesFree clauses → IsForeseen voc self captured x)
    (hx : x ∈ Expr.clausesFree clauses') : IsClosedName voc table name x := by
  induction clauses generalizing clauses' with
  | nil =>
    cases h
    cases hx
  | cons clause clauses ih =>
    rw [List.forall_mem_cons] at hcode
    cases h with
    | @cons _ _ _ _ params _ _ _ _ _ _ _ _ hleading _ hrow hbody hs =>
      rw [Expr.clausesFree, List.mem_append] at hx hforeseen
      rcases hx with hx | hx
      · obtain ⟨hx, hdiscard⟩ := mem_rowFree_params hx
        by_cases hparam : x ∈ params
        · exact .inl (hdiscard hparam)
        · refine hrow.isClosedName hcode.1.isFormal_of_mem hleading (fun h => hforeseen (.inl h))
            (fun hx' _ hlocals => ?_) hx List.not_mem_nil hparam
          exact isClosedName_of_mem_wrap hleading hbody.mem_free
            (fun hb => hforeseen (.inl (mem_rowFree hb hlocals))) hx' hlocals hparam
      · exact ih hs hcode.2 (fun h => hforeseen (.inr h)) hx

end

theorem IsEntry.isClosedName {before : LiftTable} {name : String} {clauses' : List Clause}
    (h : IsEntry .shallow voc before name clauses') (hx : x ∈ Expr.clausesFree clauses') :
    IsClosedName voc before name x := by
  obtain ⟨defined, self, captured, clauses, hcaptured, hlifted, hcode, -⟩ := h
  cases hcode with
  | pattern _ _ hcode =>
    refine hlifted.isClosedName hcode (fun hx => ?_) hx
    rcases foreseen_of_freeNames hcaptured hx with h | h | h | h
    · exact .inl h
    · exact .inr (.inl h)
    · exact .inr (.inr (.inl h))
    · exact .inr (.inr (.inr h.1))

theorem IsEntry.isFlat {g : Guarding} {before : LiftTable} {name : String} {clauses' : List Clause}
    (h : IsEntry g voc before name clauses') : ∀ clause ∈ clauses', clause.isFlat := by
  obtain ⟨_, _, _, _, -, hlifted, -, -⟩ := h
  exact hlifted.isFlat

theorem LiftedPattern.ne_nil {table : LiftTable} {defined : List String} {self : Option String}
    {clauses : List Clause} {e' : Expr}
    (h : LiftedPattern voc false table defined self clauses e') : table ≠ [] := by
  cases h with
  | lifted _ _ htable =>
    rintro rfl
    simp at htable

mutual

theorem Lifted.ne_nil {table : LiftTable} {defined : List String} {e e' : Expr}
    (h : Lifted voc false table defined e e') (hpattern : e.hasPattern) : table ≠ [] := by
  match e, h with
  | _, .identifier _ | _, .label _ | _, .text _ | _, .number _ => cases hpattern
  | .application items, .application h | .list items, .list h => exact h.ne_nil hpattern
  | .letIn names values body, .letIn hb h =>
    rw [Expr.hasPattern, Bool.or_eq_true] at hpattern
    exact hpattern.elim hb.ne_nil h.ne_nil
  | .pattern clauses _, .pattern h => exact h.ne_nil
termination_by sizeOf e

theorem LiftedItems.ne_nil {table : LiftTable} {defined : List String} {items items' : List Expr}
    (h : LiftedItems voc false table defined items items')
    (hpattern : Expr.itemsHavePattern items) : table ≠ [] := by
  match items, h with
  | [], .nil => cases hpattern
  | item :: items, .cons h hs =>
    rw [Expr.itemsHavePattern, Bool.or_eq_true] at hpattern
    exact hpattern.elim h.ne_nil hs.ne_nil
termination_by sizeOf items

theorem LiftedBindings.ne_nil {table : LiftTable} {defined inner names : List String}
    {values values' : List Expr}
    (h : LiftedBindings voc false table defined names values values' inner)
    (hpattern : Expr.itemsHavePattern values) : table ≠ [] := by
  match values, h with
  | [], .nil => cases hpattern
  | .pattern clauses _ :: values, .pattern h _ => exact h.ne_nil
  | value :: values, .value _ h hs =>
    rw [Expr.itemsHavePattern, Bool.or_eq_true] at hpattern
    exact hpattern.elim h.ne_nil hs.ne_nil
termination_by sizeOf values

end

end

/-- A `letIn` of patterns that are flat, around a body without patterns. Each pattern needs no names but
the builtins, the ones before its own, and its own. -/
structure IsFlatLetIn (table : LiftTable) (body l : Expr) : Prop where
  ne_nil : table ≠ []
  eq_letIn : l = .letIn (table.map Prod.fst) (table.map fun entry => .pattern entry.2 []) body
  body_flat : body.hasPattern = false
  entries_flat : ∀ entry ∈ table, ∀ clause ∈ entry.2, clause.isFlat
  entries_closed : ∀ before name clauses after, table = before ++ (name, clauses) :: after →
    ∀ x ∈ (Expr.pattern clauses []).free,
      x = discard ∨ x ∈ Builtin.names ∨ x ∈ before.map Prod.fst ∨ x = name

/-- Lifting a program with patterns makes a flat and closed program of it. -/
theorem lift_isFlatLetIn {source : String} {p l : Expr} (hp : parse source = .ok p)
    (hpattern : p.hasPattern) (hl : lift p = .ok l) : ∃ table body, IsFlatLetIn table body l := by
  obtain ⟨voc, table, body, hbuiltins, hlifts, rfl⟩ := liftsTo_of_lift (isCode_of_parse hp) hl
  have hne : table ≠ [] := hlifts.lifted.ne_nil hpattern
  refine ⟨table, body, hne, ?_, hlifts.lifted.hasPattern_eq_false, ?_, ?_⟩
  · rw [wrap, if_neg (by simpa using hne), List.map_map, List.map_map]
    rfl
  · intro entry hentry
    obtain ⟨before, after, htable⟩ := List.append_of_mem hentry
    exact (hlifts.isTable.isEntry htable).isFlat
  · intro before name clauses after htable x hx
    rw [Expr.free] at hx
    have hclosed := (hlifts.isTable.isEntry htable).isClosedName hx
    rwa [IsClosedName, hbuiltins] at hclosed

/-- Patterns in a body, in a guard and in a constant condition. -/
def nestedPatterns : String :=
  "let k = 2 let f = \x7b x : (\x7b y -> (> y k) \x7d x) z :: (\x7b w -> .true \x7d z) ->" ++
    " \x7b v -> (f v x) \x7d \x7d (f 3 1)"

theorem lift_isFlatLetIn_nestedPatterns :
    ∃ p l, parse nestedPatterns = .ok p ∧ p.hasPattern ∧ lift p = .ok l ∧
      ∃ table body, IsFlatLetIn table body l := by
  have hall : ((parse nestedPatterns).toOption.bind fun p => (lift p).toOption.bind fun _ =>
      some p.hasPattern) = some true := by decide +kernel
  obtain ⟨p, l, hp, hl, hpattern⟩ := exists_parse_lift hall
  have hpattern : p.hasPattern := Option.some.inj hpattern
  exact ⟨p, l, hp, hpattern, hl, lift_isFlatLetIn hp hpattern hl⟩

end ClauseLang
