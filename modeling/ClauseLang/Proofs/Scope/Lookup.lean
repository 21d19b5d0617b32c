import ClauseLang.Scope.Basic
import Mathlib.Data.List.Induction

namespace ClauseLang

/-- The last of the values that a name is given. -/
def heldFor (x : String) (values : List (String × Expr)) : Option Expr :=
  values.foldl (fun found (name, held) => if name = x then some held else found) none

variable {x name : String} {v held : Expr} {values : List (String × Expr)} {env : Env}

theorem heldFor_append_singleton :
    heldFor x (values ++ [(name, v)]) = if name = x then some v else heldFor x values := by
  simp [heldFor]

theorem heldFor_cons :
    heldFor x ((name, v) :: values) = (heldFor x values).or (if name = x then some v else none) := by
  suffices h : ∀ found, values.foldl (fun found (name, held) => if name = x then some held else found)
      found = (heldFor x values).or found from h _
  induction values using List.reverseRecOn with
  | nil => exact fun _ => rfl
  | append_singleton values p ih =>
    obtain ⟨name, held⟩ := p
    intro found
    rw [List.foldl_append, ih, heldFor_append_singleton]
    dsimp only [List.foldl_cons, List.foldl_nil]
    split <;> rfl

theorem heldFor_eq_none (h : x ∉ values.map Prod.fst) : heldFor x values = none := by
  induction values with
  | nil => rfl
  | cons p values ih =>
    obtain ⟨name, held⟩ := p
    rw [List.map_cons, List.mem_cons, not_or] at h
    rw [heldFor_cons, ih h.2, if_neg (Ne.symm h.1)]
    rfl

theorem isSome_heldFor (h : x ∈ values.map Prod.fst) : (heldFor x values).isSome := by
  induction values with
  | nil => cases h
  | cons p values ih =>
    obtain ⟨name, held⟩ := p
    rw [heldFor_cons, Option.isSome_or, Bool.or_eq_true]
    rcases List.mem_cons.1 h with rfl | h
    · exact .inr (by simp)
    · exact .inl (ih h)

theorem heldFor_of_mem (hnodup : (values.map Prod.fst).Nodup) (h : (x, v) ∈ values) :
    heldFor x values = some v := by
  induction values with
  | nil => cases h
  | cons p values ih =>
    obtain ⟨name, held⟩ := p
    rw [List.map_cons, List.nodup_cons] at hnodup
    rw [heldFor_cons]
    rcases List.mem_cons.1 h with hp | h
    · cases hp
      rw [heldFor_eq_none hnodup.1, if_pos rfl]
      rfl
    · rw [ih hnodup.2 h]
      rfl

theorem forall_mem_setBinding {Q : Binding → Prop} {frame : List Binding} (hframe : ∀ b ∈ frame, Q b)
    (hv : Q (.value name v)) : ∀ b ∈ setBinding name v frame, Q b := by
  induction frame with
  | nil => simpa [setBinding] using hv
  | cons binding frame ih =>
    simp only [List.mem_cons, forall_eq_or_imp] at hframe
    rw [setBinding]
    split
    · simpa using ⟨hv, hframe.2⟩
    · simpa using ⟨hframe.1, ih hframe.2⟩

theorem forall_mem_frameOf {Q : Binding → Prop} (h : ∀ p ∈ values, Q (.value p.1 p.2)) :
    ∀ b ∈ frameOf values, Q b := by
  refine List.foldlRecOn (motive := fun frame => ∀ b ∈ frame, Q b) values _ (by simp)
    fun frame hframe p hp => ?_
  dsimp only
  split
  · exact hframe
  · exact forall_mem_setBinding hframe (h p hp)

theorem find?_setBinding (frame : List Binding) :
    (setBinding name held frame).find? (·.name = x) =
      if name = x then some (.value name held) else frame.find? (·.name = x) := by
  have hvalue : (Binding.value name held).name = name := rfl
  induction frame with
  | nil =>
    rw [setBinding, List.find?_cons, hvalue]
    by_cases h : name = x <;> simp [h]
  | cons binding frame ih =>
    rw [setBinding]
    by_cases hbinding : binding.name = name
    · rw [if_pos hbinding, List.find?_cons, List.find?_cons, hvalue, hbinding]
      by_cases h : name = x <;> simp [h]
    · rw [if_neg hbinding, List.find?_cons, List.find?_cons, ih]
      by_cases h : binding.name = x
      · simp [h, Ne.symm (h ▸ hbinding)]
      · simp [h]

theorem find?_frameOf (hx : x ≠ discard) :
    (frameOf values).find? (·.name = x) = (heldFor x values).map (.value x) := by
  suffices h : ∀ (frame : List Binding) (found : Option Expr),
      frame.find? (·.name = x) = found.map (.value x) →
        (values.foldl (fun frame (name, held) =>
          if name = discard then frame else setBinding name held frame) frame).find? (·.name = x) =
          (values.foldl (fun found (name, held) => if name = x then some held else found)
            found).map (.value x) from h [] none rfl
  induction values with
  | nil => exact fun _ _ h => h
  | cons p values ih =>
    obtain ⟨name, held⟩ := p
    intro frame found h
    rw [List.foldl_cons, List.foldl_cons]
    refine ih _ _ ?_
    dsimp only
    by_cases hname : name = x
    · subst hname
      rw [if_neg hx, if_pos rfl, find?_setBinding, if_pos rfl]
      rfl
    · rw [if_neg hname]
      split
      · exact h
      · rw [find?_setBinding, if_neg hname, h]

/-- None of the builtins that a program can name has an operand already. -/
theorem Builtin.binary_or_unary {op : Builtin} (h : op ∈ Builtin.table) :
    (∃ operator, op = .binary operator) ∨ ∃ operator, op = .unary operator := by
  rcases List.mem_append.1 h with h | h
  · obtain ⟨operator, -, rfl⟩ := List.mem_map.1 h
    exact .inl ⟨operator, rfl⟩
  · obtain ⟨operator, -, rfl⟩ := List.mem_map.1 h
    exact .inr ⟨operator, rfl⟩

namespace Env

theorem get?_discard (env : Env) : env.get? discard = none := by
  rw [get?, if_pos rfl]

theorem get?_of_ne (hx : x ≠ discard) : env.get? x = env.find? x := by
  rw [get?, if_neg hx]

theorem get?_extend (mark : Nat) (hx : x ≠ discard) :
    (env.extend mark values).get? x = (heldFor x values).or (env.get? x) := by
  have hframe : (frameOf values).find? (·.name = x) = (heldFor x values).map (.value x) :=
    find?_frameOf hx
  rw [get?_of_ne hx, get?_of_ne hx, extend]
  split
  next h =>
    rw [h, List.find?_nil] at hframe
    cases hheld : heldFor x values with
    | none => rfl
    | some held =>
      rw [hheld] at hframe
      cases hframe
  · rw [find?, hframe]
    cases heldFor x values <;> rfl

theorem get?_extend_singleton (env : Env) (mark : Nat) (hx : x ≠ discard) :
    (env.extend mark [(name, v)]).get? x = if name = x then some v else env.get? x := by
  rw [get?_extend mark hx, ← List.nil_append [(name, v)], heldFor_append_singleton]
  split <;> rfl

theorem get?_extendRecursive (env : Env) (mark : Nat) (clauses : List Clause) (hx : x ≠ discard) :
    (env.extendRecursive mark name clauses).get? x =
      if name = x then some (.closeOver clauses (env.extendRecursive mark name clauses))
      else env.get? x := by
  rw [get?_of_ne hx, get?_of_ne hx]
  by_cases hname : name = x
  · subst hname
    rw [if_pos rfl, extendRecursive, if_neg hx, find?]
    simp [Binding.name, Binding.resolve]
  · rw [if_neg hname, extendRecursive]
    split
    · rfl
    · rw [find?]
      simp [Binding.name, hname]

theorem get?_extend_of_ne (env : Env) (mark : Nat) (v : Expr) (hx : x ≠ name) :
    (env.extend mark [(name, v)]).get? x = env.get? x := by
  by_cases hdiscard : x = discard
  · rw [hdiscard, get?_discard, get?_discard]
  · rw [get?_extend_singleton _ _ hdiscard, if_neg (Ne.symm hx)]

theorem get?_extendRecursive_of_ne (env : Env) (mark : Nat) (clauses : List Clause)
    (hx : x ≠ name) : (env.extendRecursive mark name clauses).get? x = env.get? x := by
  by_cases hdiscard : x = discard
  · rw [hdiscard, get?_discard, get?_discard]
  · rw [get?_extendRecursive _ _ _ hdiscard, if_neg (Ne.symm hx)]

end Env

end ClauseLang
