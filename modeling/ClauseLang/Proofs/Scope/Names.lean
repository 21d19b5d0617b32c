import ClauseLang.Proofs.Expr.Equal
import ClauseLang.Proofs.Scope.Lookup

/-!
The names of a scope. In each frame that is made every name stands once, and `_` nowhere, so that a
name is in scope just if it stands for something: for what the innermost frame that has it says. A
pattern bound under its own name finds itself there.
-/

namespace ClauseLang

@[simp] theorem mem_distinct {x : String} {xs : List String} : x ∈ distinct xs ↔ x ∈ xs := by
  induction xs with
  | nil => simp [distinct]
  | cons y ys ih =>
    rw [distinct, List.mem_cons, List.mem_filter, ih, List.mem_cons]
    grind

theorem nodup_distinct (xs : List String) : (distinct xs).Nodup := by
  induction xs with
  | nil => exact List.nodup_nil
  | cons y ys ih =>
    rw [distinct, List.nodup_cons]
    exact ⟨by simp, ih.filter _⟩

theorem distinct_filter (p : String → Bool) (xs : List String) :
    distinct (xs.filter p) = (distinct xs).filter p := by
  induction xs with
  | nil => rfl
  | cons x xs ih =>
    by_cases hx : p x
    · rw [List.filter_cons_of_pos hx, distinct, distinct, List.filter_cons_of_pos hx, ih,
        List.filter_filter, List.filter_filter]
      simp only [Bool.and_comm]
    · rw [List.filter_cons_of_neg hx, distinct, List.filter_cons_of_neg hx, ih, List.filter_filter]
      refine List.filter_congr fun y _ => ?_
      by_cases hy : y = x
      · subst hy
        simp [hx]
      · simp [hy]

theorem distinct_eq_eraseDups (xs : List String) : distinct xs = xs.eraseDups := by
  match xs with
  | [] => rfl
  | x :: xs =>
    have hother : (fun y => decide (y ≠ x)) = fun y => !(y == x) := by
      funext y
      by_cases hy : y = x <;> simp [hy]
    rw [distinct, List.eraseDups_cons, ← distinct_filter, distinct_eq_eraseDups, hother]
termination_by xs.length
decreasing_by
  exact Nat.lt_succ_of_le (List.length_filter_le ..)

theorem distinct_append (xs ys : List String) :
    distinct (xs ++ ys) = distinct xs ++ (distinct ys).filter (· ∉ xs) := by
  have hrest : ys.removeAll xs = ys.filter (· ∉ xs) := by simp [List.removeAll]
  rw [← distinct_filter, distinct_eq_eraseDups, distinct_eq_eraseDups, distinct_eq_eraseDups,
    List.eraseDups_append, hrest]

theorem distinct_of_nodup {xs : List String} (h : xs.Nodup) : distinct xs = xs := by
  induction xs with
  | nil => rfl
  | cons x xs ih =>
    rw [List.nodup_cons] at h
    rw [distinct, ih h.2, List.filter_eq_self.2]
    intro y hy
    exact decide_eq_true fun hyx => h.1 (hyx ▸ hy)

theorem find?_of_mem_nodup {frame : List Binding} {binding : Binding}
    (hnodup : (frame.map Binding.name).Nodup) (h : binding ∈ frame) :
    frame.find? (·.name = binding.name) = some binding := by
  induction frame with
  | nil => cases h
  | cons first frame ih =>
    rw [List.map_cons, List.nodup_cons] at hnodup
    rcases List.mem_cons.1 h with rfl | h
    · exact List.find?_cons_of_pos (by simp)
    · have hne : first.name ≠ binding.name := fun he => hnodup.1 (he ▸ List.mem_map_of_mem h)
      rw [List.find?_cons_of_neg (by simpa using hne), ih hnodup.2 h]

/-! ### Frames -/

theorem heldFor_eq_some_iff {x : String} {v : Expr} {values : List (String × Expr)} :
    heldFor x values = some v ↔
      ∃ before after, values = before ++ (x, v) :: after ∧ x ∉ after.map Prod.fst := by
  constructor
  · intro h
    induction values with
    | nil => cases h
    | cons p values ih =>
      obtain ⟨name, held⟩ := p
      rw [heldFor_cons] at h
      cases hrest : heldFor x values with
      | some w =>
        rw [hrest] at h
        cases h
        obtain ⟨before, after, rfl, hafter⟩ := ih hrest
        exact ⟨(name, held) :: before, after, rfl, hafter⟩
      | none =>
        rw [hrest, Option.none_or] at h
        split at h
        next hname =>
          cases h
          subst hname
          refine ⟨[], values, rfl, fun hmem => ?_⟩
          simpa [hrest] using isSome_heldFor hmem
        · cases h
  · rintro ⟨before, after, rfl, hafter⟩
    induction before with
    | nil => rw [List.nil_append, heldFor_cons, heldFor_eq_none hafter, if_pos rfl, Option.none_or]
    | cons p before ih => rw [List.cons_append, heldFor_cons, ih, Option.some_or]

theorem names_setBinding (name : String) (held : Expr) (frame : List Binding) :
    (setBinding name held frame).map Binding.name =
      if name ∈ frame.map Binding.name then frame.map Binding.name
      else frame.map Binding.name ++ [name] := by
  induction frame with
  | nil => rfl
  | cons binding frame ih =>
    rw [setBinding]
    by_cases h : binding.name = name
    · rw [if_pos h, if_pos (by simp [h]), List.map_cons, List.map_cons, h]
      rfl
    · rw [if_neg h, List.map_cons, List.map_cons, ih]
      by_cases hmem : name ∈ frame.map Binding.name
      · rw [if_pos hmem, if_pos (List.mem_cons_of_mem _ hmem)]
      · have hnot : name ∉ binding.name :: frame.map Binding.name := by
          simpa [Ne.symm h] using hmem
        rw [if_neg hmem, if_neg hnot, List.cons_append]

/-- The names of a frame are those that are given values, in the order of their first occurrences. -/
theorem names_frameOf (values : List (String × Expr)) :
    (frameOf values).map Binding.name =
      distinct ((values.map Prod.fst).filter (· ≠ discard)) := by
  induction values using List.reverseRecOn with
  | nil => rfl
  | append_singleton values p ih =>
    obtain ⟨name, held⟩ := p
    have hstep : frameOf (values ++ [(name, held)]) =
        if name = discard then frameOf values else setBinding name held (frameOf values) := by
      rw [frameOf, List.foldl_append]
      rfl
    rw [hstep, List.map_append, List.filter_append]
    by_cases h : name = discard
    · rw [if_pos h, ih]
      simp [h]
    · have hone : ([(name, held)].map Prod.fst).filter (· ≠ discard) = [name] := by simp [h]
      have hkept : [name].filter (· ∉ (values.map Prod.fst).filter (· ≠ discard)) =
          if name ∈ (frameOf values).map Binding.name then [] else [name] := by
        rw [ih]
        by_cases hmem : name ∈ values.map Prod.fst <;> simp_all
      rw [if_neg h, names_setBinding, hone, distinct_append, ← ih]
      change _ = _ ++ [name].filter _
      rw [hkept]
      split
      · exact (List.append_nil _).symm
      · rfl

theorem exists_of_mem_frameOf {values : List (String × Expr)} {binding : Binding}
    (h : binding ∈ frameOf values) :
    ∃ x v, binding = .value x v ∧ heldFor x values = some v := by
  have hnames := names_frameOf values
  have hmem : binding.name ∈ (frameOf values).map Binding.name := List.mem_map_of_mem h
  have hx : binding.name ≠ discard := by
    rw [hnames, mem_distinct, List.mem_filter] at hmem
    exact of_decide_eq_true hmem.2
  have hfind := find?_of_mem_nodup (hnames ▸ nodup_distinct _) h
  rw [find?_frameOf hx] at hfind
  obtain ⟨v, hv, hbinding⟩ := Option.map_eq_some_iff.1 hfind
  exact ⟨binding.name, v, hbinding.symm, hv⟩

namespace Env

/-! ### Chains -/

def frameNames (env : Env) : List String :=
  env.bindings.map Binding.name

def chain : Env → List Env
  | .root mark bindings => [.root mark bindings]
  | .child mark bindings parent => .child mark bindings parent :: parent.chain

/-- The innermost scope whose own frame has the name. -/
def holder? (env : Env) (x : String) : Option Env :=
  env.chain.find? (x ∈ ·.frameNames)

/-- How many frames there are before the innermost one that has the name. -/
def level (env : Env) (x : String) : Nat :=
  env.chain.findIdx (x ∈ ·.frameNames)

/-- The first name is found further in than the second, or in the same frame and before it. -/
def Precedes (env : Env) (x y : String) : Prop :=
  env.level x < env.level y ∨ ∃ scope, env.holder? x = some scope ∧ env.holder? y = some scope ∧
    [x, y].Sublist scope.frameNames

/-- The innermost frame has no name twice and does not have `_`, and the patterns in it that can name
themselves have clauses. -/
structure HasProperFrame (scope : Env) : Prop where
  nodup : scope.frameNames.Nodup
  discard_not_mem : discard ∉ scope.frameNames
  ne_nil : ∀ x clauses, .recursive x clauses ∈ scope.bindings → clauses ≠ []

def IsProper (env : Env) : Prop :=
  ∀ scope ∈ env.chain, scope.HasProperFrame

/-- The scopes that are made from root scopes by extending them. A single value is bound by an
extension with a list of one. -/
inductive Built : Env → Prop
  | empty (mark : Nat) : Built (.empty mark)
  | withBuiltins (mark : Nat) : Built (.withBuiltins mark)
  | extend {env : Env} (h : Built env) (mark : Nat) (values : List (String × Expr)) :
    Built (env.extend mark values)
  | extendRecursive {env : Env} {clauses : List Clause} (h : Built env) (mark : Nat)
    (name : String) (hne : clauses ≠ []) : Built (env.extendRecursive mark name clauses)

section

variable {env parent scope : Env} {mark : Nat} {bindings : List Binding} {x y : String}

theorem IsProper.child (h : parent.IsProper)
    (hframe : (Env.child mark bindings parent).HasProperFrame) :
    (Env.child mark bindings parent).IsProper :=
  List.forall_mem_cons.2 ⟨hframe, h⟩

theorem IsProper.extend (h : env.IsProper) (mark : Nat) (values : List (String × Expr)) :
    (env.extend mark values).IsProper := by
  unfold Env.extend
  split
  · exact h
  next frame =>
    have hnames : (Env.child mark (frameOf values) env).frameNames =
      distinct ((values.map Prod.fst).filter (· ≠ discard)) := names_frameOf values
    refine h.child ⟨?_, fun hmem => ?_, fun x clauses hmem => ?_⟩
    · rw [hnames]
      exact nodup_distinct _
    · rw [hnames, mem_distinct, List.mem_filter] at hmem
      exact of_decide_eq_true hmem.2 rfl
    · obtain ⟨_, _, hvalue, -⟩ := exists_of_mem_frameOf hmem
      cases hvalue

theorem IsProper.extendRecursive {clauses : List Clause} (h : env.IsProper) (mark : Nat)
    (name : String) (hne : clauses ≠ []) : (env.extendRecursive mark name clauses).IsProper := by
  unfold Env.extendRecursive
  split
  · exact h
  next hname =>
    refine h.child ⟨List.pairwise_singleton .., ?_, fun x clauses' hmem => ?_⟩
    · simpa [frameNames, Env.bindings, Binding.name] using Ne.symm hname
    · cases List.mem_singleton.1 hmem
      exact hne

theorem Built.isProper (h : env.Built) : env.IsProper := by
  induction h with
  | empty mark =>
    exact List.forall_mem_singleton.2 ⟨List.nodup_nil, List.not_mem_nil, by simp [bindings]⟩
  | withBuiltins mark =>
    have hnames : (Env.withBuiltins mark).frameNames = Builtin.table.map Builtin.name := by
      rw [frameNames, Env.withBuiltins, Env.bindings, List.map_map]
      rfl
    refine List.forall_mem_singleton.2 ⟨?_, ?_, fun x clauses hmem => ?_⟩
    · rw [← Env.withBuiltins, hnames]
      decide
    · rw [← Env.withBuiltins, hnames]
      decide
    · obtain ⟨_, -, hvalue⟩ := List.mem_map.1 hmem
      cases hvalue
  | extend _ mark values ih => exact ih.extend mark values
  | extendRecursive _ mark name hne ih => exact ih.extendRecursive mark name hne

/-! ### Views -/

theorem names_child (mark : Nat) (bindings : List Binding) (parent : Env) :
    (Env.child mark bindings parent).names =
      distinct (bindings.map Binding.name) ++
        parent.names.filter (· ∉ bindings.map Binding.name) := by
  rw [names, allNames, distinct_append]
  rfl

theorem IsProper.discard_not_mem_names {env : Env} (h : env.IsProper) : discard ∉ env.names := by
  match env with
  | .root mark bindings =>
    rw [names, mem_distinct]
    exact (List.forall_mem_singleton.1 h).discard_not_mem
  | .child mark bindings parent =>
    obtain ⟨hframe, hparent⟩ := List.forall_mem_cons.1 h
    have hrest : discard ∉ parent.names := IsProper.discard_not_mem_names hparent
    rw [names_child, List.mem_append, mem_distinct, List.mem_filter]
    exact fun hmem => hmem.elim hframe.discard_not_mem fun hmem => hrest hmem.1
termination_by sizeOf env

theorem mem_map_name_iff {bindings : List Binding} :
    x ∈ bindings.map Binding.name ↔ (bindings.find? (·.name = x)).isSome := by
  simp [List.find?_isSome]

theorem mem_names_iff_isSome_find? (env : Env) : x ∈ env.names ↔ (env.find? x).isSome := by
  match env with
  | .root mark bindings =>
    rw [names, mem_distinct, find?, Option.isSome_map]
    exact mem_map_name_iff
  | .child mark bindings parent =>
    rw [names_child, List.mem_append, mem_distinct, List.mem_filter,
      mem_names_iff_isSome_find? parent, decide_eq_true_eq, mem_map_name_iff, find?]
    cases bindings.find? (·.name = x) <;> simp
termination_by sizeOf env

theorem IsProper.mem_names_iff (h : env.IsProper) : x ∈ env.names ↔ (env.get? x).isSome := by
  by_cases hx : x = discard
  · subst hx
    simp [h.discard_not_mem_names, get?_discard]
  · rw [get?_of_ne hx]
    exact mem_names_iff_isSome_find? env

theorem holder?_of_mem (h : x ∈ env.frameNames) : env.holder? x = some env := by
  cases env <;> exact List.find?_cons_of_pos (decide_eq_true h)

theorem holder?_child_of_not_mem (h : x ∉ bindings.map Binding.name) :
    (Env.child mark bindings parent).holder? x = parent.holder? x :=
  List.find?_cons_of_neg (by simpa [frameNames, Env.bindings] using h)

theorem level_of_mem (h : x ∈ env.frameNames) : env.level x = 0 := by
  cases env <;> exact (List.findIdx_cons ..).trans (by rw [decide_eq_true h]; rfl)

theorem level_child_of_not_mem (h : x ∉ bindings.map Binding.name) :
    (Env.child mark bindings parent).level x = parent.level x + 1 :=
  (List.findIdx_cons ..).trans (by
    rw [decide_eq_false (p := x ∈ (Env.child mark bindings parent).frameNames) h]
    rfl)

theorem pairwise_frameNames (h : env.frameNames.Nodup) :
    (distinct env.frameNames).Pairwise env.Precedes := by
  rw [distinct_of_nodup h, List.pairwise_iff_forall_sublist]
  intro x y hxy
  have hmem := hxy.subset
  exact .inr ⟨env, holder?_of_mem (hmem (by simp)), holder?_of_mem (hmem (by simp)), hxy⟩

/-- A frame in front that has neither name leaves their order as it is. -/
theorem Precedes.child (h : parent.Precedes x y) (hx : x ∉ bindings.map Binding.name)
    (hy : y ∉ bindings.map Binding.name) : (Env.child mark bindings parent).Precedes x y := by
  rcases h with hlevel | ⟨scope, hscope⟩
  · refine .inl ?_
    rw [level_child_of_not_mem hx, level_child_of_not_mem hy]
    exact Nat.succ_lt_succ hlevel
  · refine .inr ⟨scope, ?_⟩
    rwa [holder?_child_of_not_mem hx, holder?_child_of_not_mem hy]

theorem IsProper.pairwise_names {env : Env} (h : env.IsProper) :
    env.names.Pairwise env.Precedes := by
  match env with
  | .root mark bindings => exact pairwise_frameNames (List.forall_mem_singleton.1 h).nodup
  | .child mark bindings parent =>
    obtain ⟨hframe, hparent⟩ := List.forall_mem_cons.1 h
    have hrest : parent.names.Pairwise parent.Precedes := IsProper.pairwise_names hparent
    have hkept {x : String} (hx : x ∈ parent.names.filter (· ∉ bindings.map Binding.name)) :
        x ∉ bindings.map Binding.name := of_decide_eq_true (List.mem_filter.1 hx).2
    rw [names_child, List.pairwise_append]
    refine ⟨pairwise_frameNames hframe.nodup, ?_, ?_⟩
    · exact (hrest.filter _).imp_of_mem fun hx hy hxy => hxy.child (hkept hx) (hkept hy)
    · intro x hx y hy
      refine .inl ?_
      rw [level_of_mem (mem_distinct.1 hx), level_child_of_not_mem (hkept hy)]
      exact Nat.succ_pos _
termination_by sizeOf env

/-- The innermost scope that has the name decides what it stands for. -/
theorem find?_of_holder {env : Env} (h : env.holder? x = some scope) :
    env.find? x = scope.find? x := by
  match env with
  | .root mark bindings =>
    cases List.mem_singleton.1 (List.mem_of_find?_eq_some h)
    rfl
  | .child mark bindings parent =>
    by_cases hx : x ∈ bindings.map Binding.name
    · rw [holder?_of_mem hx] at h
      cases h
      rfl
    · rw [holder?_child_of_not_mem hx] at h
      rw [find?, Option.not_isSome_iff_eq_none.1 (mt mem_map_name_iff.2 hx)]
      exact find?_of_holder h
termination_by sizeOf env

theorem find?_of_mem_bindings {binding : Binding} (hnodup : scope.frameNames.Nodup)
    (h : binding ∈ scope.bindings) :
    scope.find? binding.name = some (binding.resolve scope) := by
  cases scope with
  | root mark frame =>
    have hfind : frame.find? (·.name = binding.name) = some binding := find?_of_mem_nodup hnodup h
    rw [find?, hfind]
    rfl
  | child mark frame parent =>
    have hfind : frame.find? (·.name = binding.name) = some binding := find?_of_mem_nodup hnodup h
    rw [find?, hfind]

/-- A closure that comes from a recursive binding has captured scopes in which its name stands for the
closure itself. -/
theorem IsProper.get?_of_recursive {clauses : List Clause} (h : env.IsProper)
    (hholder : env.holder? x = some scope) (hbinding : .recursive x clauses ∈ scope.bindings) :
    clauses ≠ [] ∧ env.get? x = some (.closeOver clauses scope) ∧
      scope.get? x = some (.closeOver clauses scope) := by
  have hframe := h scope (List.mem_of_find?_eq_some hholder)
  have hmem : x ∈ scope.frameNames := List.mem_map_of_mem (f := Binding.name) hbinding
  have hx : x ≠ discard := fun hx => hframe.discard_not_mem (hx ▸ hmem)
  have hfind : scope.find? x = some (.closeOver clauses scope) :=
    find?_of_mem_bindings hframe.nodup hbinding
  rw [get?_of_ne hx, get?_of_ne hx, find?_of_holder hholder]
  exact ⟨hframe.ne_nil x clauses hbinding, hfind, hfind⟩

end

/-- The ways to look at a scope agree with each other. -/
structure Coherent (env : Env) : Prop where
  nodup_names : env.names.Nodup
  discard_not_mem_names : discard ∉ env.names
  mem_names_iff_contains : ∀ x, x ∈ env.names ↔ env.contains x
  contains_iff_isSome_get? : ∀ x, env.contains x ↔ (env.get? x).isSome
  pairwise_names : env.names.Pairwise env.Precedes
  /-- In an extension, a name stands for the last value that it is given. -/
  get?_extend_of_last : ∀ mark before after x v, x ≠ discard → x ∉ after.map Prod.fst →
    (env.extend mark (before ++ (x, v) :: after)).get? x = some v
  /-- A name that is given no value stands for what it stood for before. -/
  get?_extend_of_not_mem : ∀ mark values x, x = discard ∨ x ∉ values.map Prod.fst →
    (env.extend mark values).get? x = env.get? x
  /-- A pattern that is bound under its own name stands for its closure over the scope in which it is
  bound so; the other names stand for what they stood for before. -/
  get?_extendRecursive : ∀ mark name clauses x, x ≠ discard →
    (env.extendRecursive mark name clauses).get? x =
      if name = x then some (.closeOver clauses (env.extendRecursive mark name clauses))
      else env.get? x
  /-- What a recursive binding stands for is a closure, and in each scope that this has captured the
  name stands for an equal one. -/
  get?_of_recursive : ∀ x scope clauses, env.holder? x = some scope →
    .recursive x clauses ∈ scope.bindings → ∃ captured,
      env.get? x = some (.pattern clauses captured) ∧ captured ≠ [] ∧
      ∀ e ∈ captured, ∃ closure, e.get? x = some closure ∧
        closure.equal (.pattern clauses captured)

theorem Built.coherent {env : Env} (h : env.Built) : env.Coherent where
  nodup_names := nodup_distinct _
  discard_not_mem_names := h.isProper.discard_not_mem_names
  mem_names_iff_contains _ := h.isProper.mem_names_iff
  contains_iff_isSome_get? _ := Iff.rfl
  pairwise_names := h.isProper.pairwise_names
  get?_extend_of_last mark before after x v hx hafter := by
    rw [get?_extend mark hx, heldFor_eq_some_iff.2 ⟨before, after, rfl, hafter⟩, Option.some_or]
  get?_extend_of_not_mem mark values x hx := by
    by_cases hdiscard : x = discard
    · rw [hdiscard, get?_discard, get?_discard]
    · rw [get?_extend mark hdiscard, heldFor_eq_none (hx.resolve_left hdiscard), Option.none_or]
  get?_extendRecursive mark _ clauses _ hx := Env.get?_extendRecursive env mark clauses hx
  get?_of_recursive x scope clauses hholder hbinding := by
    obtain ⟨hne, hget, hself⟩ := h.isProper.get?_of_recursive hholder hbinding
    refine ⟨List.replicate clauses.length scope, hget, ?_, fun e he => ?_⟩
    · simpa using hne
    · rw [List.eq_of_mem_replicate he]
      exact ⟨_, hself, Expr.equal_refl _⟩

/-- Names that are given twice in a frame, hidden by a later frame, discarded, and bound to a pattern
that can name itself. -/
def layered : Env :=
  (((Env.withBuiltins 0).extend 1
    [("a", .number 1), ("_", .number 9), ("b", .number 2), ("a", .number 3)]).extendRecursive 2 "f"
      [.mk [.identifier "n"] (.identifier "f")]).extend 3 [("b", .number 4)]

theorem coherent_layered :
    layered.Built ∧ layered.Coherent ∧ layered.names.take 3 = ["b", "f", "a"] := by
  have hbuilt : layered.Built :=
    (((Built.withBuiltins 0).extend 1 _).extendRecursive 2 "f" (by simp)).extend 3 _
  exact ⟨hbuilt, Built.coherent hbuilt, by decide⟩

end Env

end ClauseLang
