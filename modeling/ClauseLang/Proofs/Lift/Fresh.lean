import ClauseLang.Lift.Basic
import Mathlib.Data.List.Nodup
import Mathlib.Data.List.Perm.Subperm

/-!
The names that lifting makes up. A new name is none of the names of the program and none that was
made up before, and the search for it ends whatever names are taken.
-/

namespace ClauseLang

namespace Lifting

theorem numbered_injective (stem : String) : Function.Injective (numbered stem) := by
  intro n n' h
  have hdigits : stem.toList ++ "_".toList ++ (Nat.repr n).toList =
      stem.toList ++ "_".toList ++ (Nat.repr n').toList := by
    simpa only [numbered, String.toList_append] using congrArg String.toList h
  have hvalue := congrArg (Nat.ofDigitChars 10 · 0) (List.append_cancel_left hdigits)
  simpa [Nat.repr_eq_ofList_toDigits] using hvalue

theorem numbered_ne_discard (stem : String) (n : Nat) : numbered stem n ≠ discard := by
  intro h
  have hlength := congrArg String.length h
  have hdigits : 0 < (Nat.repr n).length := Nat.length_repr_pos
  simp only [numbered, String.length_append, discard] at hlength
  have hbar : "_".length = 1 := rfl
  omega

/-- If the search ends at a name that is taken, so were all the names that it came by. -/
theorem mem_of_firstFree_mem {taken : List String} {stem : String} {tries n : Nat}
    (h : numbered stem (firstFree taken stem tries n) ∈ taken) :
    ∀ i ≤ tries, numbered stem (n + i) ∈ taken := by
  induction tries generalizing n with
  | zero =>
    intro i hi
    obtain rfl : i = 0 := by omega
    exact h
  | succ tries ih =>
    rw [firstFree] at h
    split at h
    · intro i hi
      cases i with
      | zero => assumption
      | succ i =>
        have := ih h i (by omega)
        rwa [Nat.add_assoc, Nat.add_comm 1 i] at this
    · exact absurd h ‹_›

theorem firstFree_not_mem (taken : List String) (stem : String) (n : Nat) :
    numbered stem (firstFree taken stem (taken.length + 1) n) ∉ taken := by
  intro h
  have hall := mem_of_firstFree_mem h
  have hinjective : Function.Injective fun i => numbered stem (n + i) :=
    (numbered_injective stem).comp fun _ _ => Nat.add_left_cancel
  have hnodup : ((List.range (taken.length + 1)).map fun i => numbered stem (n + i)).Nodup :=
    List.nodup_range.map hinjective
  have hsubset : (List.range (taken.length + 1)).map (fun i => numbered stem (n + i)) ⊆ taken := by
    intro name hname
    obtain ⟨i, hi, rfl⟩ := List.mem_map.1 hname
    exact hall i (Nat.le_of_lt (List.mem_range.1 hi))
  have hlength := (List.subperm_of_subset hnodup hsubset).length_le
  rw [List.length_map, List.length_range] at hlength
  omega

/-- The search for a free number, with no bound on the tries: a number that makes a taken name is
followed by the next one. -/
inductive Seeks (taken : List String) (stem : String) : Nat → Nat → Prop
  | found {n : Nat} : numbered stem n ∉ taken → Seeks taken stem n n
  | next {n found : Nat} : numbered stem n ∈ taken → Seeks taken stem (n + 1) found →
    Seeks taken stem n found

theorem seeks_firstFree {taken : List String} {stem : String} {tries n : Nat}
    (h : numbered stem (firstFree taken stem tries n) ∉ taken) :
    Seeks taken stem n (firstFree taken stem tries n) := by
  induction tries generalizing n with
  | zero => exact .found h
  | succ tries ih =>
    rw [firstFree] at h ⊢
    by_cases htaken : numbered stem n ∈ taken
    · rw [if_pos htaken] at h ⊢
      exact .next htaken (ih h)
    · rw [if_neg htaken]
      exact .found htaken

theorem fresh_seeks (stem : String) (s : LiftState) :
    ∃ n, Seeks s.taken stem s.counter n ∧ fresh stem s =
      .ok (numbered stem n) { s with taken := numbered stem n :: s.taken, counter := n + 1 } :=
  ⟨_, seeks_firstFree (firstFree_not_mem s.taken stem s.counter), rfl⟩

theorem numbered_not_mem_builtins (stem : String) (n : Nat) : numbered stem n ∉ Builtin.names := by
  intro h
  have hbar : '_' ∈ (numbered stem n).toList := by simp [numbered]
  have hall : ∀ name ∈ Builtin.names, '_' ∉ name.toList := by decide
  exact hall _ h hbar

end Lifting

namespace LiftState

variable {program pending : List String} {s s' s'' : LiftState}

def tableNames (s : LiftState) : List String :=
  s.lifted.map Prod.fst

structure Extends (s s' : LiftState) : Prop where
  taken : s.taken ⊆ s'.taken
  lifted : s.lifted <+: s'.lifted
  fresh : ∀ name ∈ s'.tableNames, name ∈ s.taken → name ∈ s.tableNames

theorem Extends.refl (s : LiftState) : s.Extends s :=
  ⟨List.Subset.refl _, List.prefix_refl _, fun _ h _ => h⟩

theorem Extends.trans (h : s.Extends s') (h' : s'.Extends s'') : s.Extends s'' where
  taken := List.Subset.trans h.taken h'.taken
  lifted := h.lifted.trans h'.lifted
  fresh name hn ht := h.fresh name (h'.fresh name hn (h.taken ht)) ht

/-- The names of patterns: those lifted so far, and the `pending` ones whose clauses are being
lifted. -/
def patternNames (pending : List String) (s : LiftState) : List String :=
  pending ++ s.tableNames

/-- The names of patterns are new and all different. -/
structure NamesApart (program pending : List String) (s : LiftState) : Prop where
  program_subset : program ⊆ s.taken
  subset_taken : s.patternNames pending ⊆ s.taken
  not_mem_program : ∀ name ∈ s.patternNames pending, name ∉ program
  nodup : (s.patternNames pending).Nodup
  ne_discard : discard ∉ s.patternNames pending

end LiftState

namespace Lifting

variable {program pending : List String} {s s' : LiftState}

theorem of_fresh_eq_ok {stem name : String} (h : fresh stem s = .ok name s') :
    name ∉ s.taken ∧ name ≠ discard ∧ s'.taken = name :: s.taken ∧ s'.lifted = s.lifted := by
  cases h
  exact ⟨firstFree_not_mem s.taken stem s.counter, numbered_ne_discard _ _, rfl, rfl⟩

theorem exists_of_bind_eq_ok {α β : Type} {x : Lifting α} {f : α → Lifting β} {b : β}
    (h : (x >>= f) s = .ok b s') : ∃ a s₁, x s = .ok a s₁ ∧ f a s₁ = .ok b s' := by
  change EStateM.bind x f s = .ok b s' at h
  unfold EStateM.bind at h
  cases hx : x s with
  | ok a s₁ =>
    rw [hx] at h
    exact ⟨a, s₁, rfl, h⟩
  | error e s₁ =>
    rw [hx] at h
    cases h

theorem leading_cons (locals : List String) (old : String) (captured : List String) :
    leading locals (old :: captured) = (do
      let param ← (if old ∈ locals then fresh old else pure old : Lifting String)
      return param :: (← leading locals captured)) := by
  rw [leading]
  split <;> rfl

/-- Leading formals for the captured names: a name that the row binds has got a new one. -/
structure IsLeading (program locals captured params : List String) : Prop where
  renames : List.Forall₂ (fun old param => if old ∈ locals then param ∉ program else param = old)
    captured params
  nodup : params.Nodup
  ne_discard : discard ∉ params

theorem IsLeading.length_eq {locals captured params : List String}
    (h : IsLeading program locals captured params) : params.length = captured.length :=
  h.renames.length_eq.symm

theorem leading_apart {locals captured params : List String}
    (h : leading locals captured s = .ok params s') (hprogram : program ⊆ s.taken)
    (hcaptured : captured ⊆ s.taken) (hnodup : captured.Nodup) (hdiscard : discard ∉ captured) :
    IsLeading program locals captured params ∧ s'.lifted = s.lifted ∧ s.taken ⊆ s'.taken ∧
      params ⊆ s'.taken ∧ ∀ param ∈ params, param ∈ captured ∨ param ∉ s.taken := by
  induction captured generalizing s params with
  | nil =>
    cases h
    exact ⟨⟨.nil, List.nodup_nil, by simp⟩, rfl, List.Subset.refl _, by simp, by simp⟩
  | cons old captured ih =>
    rw [leading_cons] at h
    obtain ⟨param, s₁, hparam, h⟩ := exists_of_bind_eq_ok h
    obtain ⟨params, s₂, hparams, h⟩ := exists_of_bind_eq_ok h
    cases h
    simp only [List.cons_subset] at hcaptured
    simp only [List.nodup_cons] at hnodup
    simp only [List.mem_cons, not_or] at hdiscard
    have hfirst : s₁.lifted = s.lifted ∧ s.taken ⊆ s₁.taken ∧ param ∈ s₁.taken ∧
        (if old ∈ locals then param ∉ s.taken else param = old) ∧ param ≠ discard := by
      split at hparam
      · obtain ⟨hnew, hne, htaken, hlifted⟩ := of_fresh_eq_ok hparam
        rw [if_pos ‹_›, htaken]
        exact ⟨hlifted, List.subset_cons_self _ _, List.mem_cons_self, hnew, hne⟩
      · cases hparam
        rw [if_neg ‹_›]
        exact ⟨rfl, List.Subset.refl _, hcaptured.1, rfl, Ne.symm hdiscard.1⟩
    obtain ⟨hlifted, htaken, hmem, hrename, hne⟩ := hfirst
    obtain ⟨hleading, hlifted', htaken', hsubset, hnew⟩ :=
      ih hparams (List.Subset.trans hprogram htaken) (List.Subset.trans hcaptured.2 htaken) hnodup.2
        hdiscard.2
    have hparam : param ∉ params := by
      intro hin
      rcases hnew param hin with hold | hold
      · split at hrename
        · exact hrename (hcaptured.2 hold)
        · exact hnodup.1 (hrename ▸ hold)
      · exact hold hmem
    refine ⟨⟨.cons ?_ hleading.renames, ?_, ?_⟩, hlifted'.trans hlifted,
      List.Subset.trans htaken htaken', ?_, ?_⟩
    · split
      · rw [if_pos ‹_›] at hrename
        exact fun h => hrename (hprogram h)
      · rwa [if_neg ‹_›] at hrename
    · exact List.nodup_cons.2 ⟨hparam, hleading.nodup⟩
    · simpa using ⟨Ne.symm hne, hleading.ne_discard⟩
    · exact List.cons_subset.2 ⟨htaken' hmem, hsubset⟩
    · intro p hp
      rcases List.mem_cons.1 hp with rfl | hp
      · split at hrename
        · exact .inr hrename
        · exact .inl (hrename ▸ List.mem_cons_self)
      · exact (hnew p hp).imp (List.mem_cons_of_mem _) fun h hp => h (htaken hp)

end Lifting

namespace LiftState

variable {s s' s'' : LiftState} {names names' : List String}

/-- The second state comes of the first one by making up the given names, one after the other, while
lifted patterns are added to the table. -/
inductive Draws : LiftState → List String → LiftState → Prop
  | refl (s : LiftState) : Draws s [] s
  | fresh {s s₁ s' : LiftState} {stem name : String} {names : List String} :
    Lifting.fresh stem s = .ok name s₁ → Draws s₁ names s' → Draws s (name :: names) s'
  | add {s s' : LiftState} {names : List String} (entry : String × List Clause) :
    Draws { s with lifted := s.lifted ++ [entry] } names s' → Draws s names s'

namespace Draws

theorem trans (h : s.Draws names s') (h' : s'.Draws names' s'') :
    s.Draws (names ++ names') s'' := by
  induction h with
  | refl s => exact h'
  | fresh hfresh _ ih => exact .fresh hfresh (ih h')
  | add entry _ ih => exact .add entry (ih h')

theorem taken_eq (h : s.Draws names s') : s'.taken = names.reverse ++ s.taken := by
  induction h with
  | refl s => rfl
  | fresh hfresh _ ih =>
    rw [ih, (Lifting.of_fresh_eq_ok hfresh).2.2.1, List.reverse_cons, List.append_assoc]
    rfl
  | add entry _ ih => exact ih

theorem taken_subset (h : s.Draws names s') : s.taken ⊆ s'.taken :=
  h.taken_eq ▸ List.subset_append_right _ _

theorem not_mem_taken (h : s.Draws names s') : ∀ name ∈ names, name ∉ s.taken := by
  induction h with
  | refl s => simp
  | fresh hfresh _ ih =>
    obtain ⟨hnew, -, htaken, -⟩ := Lifting.of_fresh_eq_ok hfresh
    rw [htaken] at ih
    exact List.forall_mem_cons.2 ⟨hnew, fun name hn h => ih name hn (List.mem_cons_of_mem _ h)⟩
  | add entry _ ih => exact ih

theorem nodup (h : s.Draws names s') : names.Nodup := by
  induction h with
  | refl s => exact List.nodup_nil
  | fresh hfresh hrest ih =>
    refine List.nodup_cons.2 ⟨fun hmem => ?_, ih⟩
    have htaken := (Lifting.of_fresh_eq_ok hfresh).2.2.1
    exact hrest.not_mem_taken _ hmem (htaken ▸ List.mem_cons_self)
  | add entry _ ih => exact ih

theorem exists_numbered (h : s.Draws names s') :
    ∀ name ∈ names, ∃ stem n, name = Lifting.numbered stem n := by
  induction h with
  | refl s => simp
  | fresh hfresh _ ih =>
    cases hfresh
    exact List.forall_mem_cons.2 ⟨⟨_, _, rfl⟩, ih⟩
  | add entry _ ih => exact ih

end Draws

end LiftState

end ClauseLang
