import ClauseLang.Proofs.Machine.Data
import ClauseLang.Proofs.Scope.Rename
import Mathlib.Data.Nat.Basic

namespace ClauseLang

/-- All marks are smaller. -/
def Expr.Below (n : Nat) (e : Expr) : Prop :=
  ∀ k ∈ e.marks, k < n

def Clause.Below (n : Nat) (clause : Clause) : Prop :=
  ∀ k ∈ clause.marks, k < n

def Env.Below (n : Nat) (env : Env) : Prop :=
  ∀ k ∈ env.marks, k < n

theorem Expr.Below.mono {n n' : Nat} {e : Expr} (h : e.Below n) (hn : n ≤ n') : e.Below n' :=
  fun k hk => (h k hk).trans_le hn

theorem Clause.Below.mono {n n' : Nat} {clause : Clause} (h : clause.Below n) (hn : n ≤ n') :
    clause.Below n' :=
  fun k hk => (h k hk).trans_le hn

theorem Env.Below.mono {n n' : Nat} {env : Env} (h : env.Below n) (hn : n ≤ n') : env.Below n' :=
  fun k hk => (h k hk).trans_le hn

/-- Different marks stay different, and marks from `start` on stay one after another. -/
structure Renaming where
  toFun : Nat → Nat
  injective : Function.Injective toFun
  start : Nat
  toFun_succ : ∀ k, start ≤ k → toFun (k + 1) = toFun k + 1

/-- A host function cannot tell scopes apart other than by looking up names, and makes none. -/
def Host.IsBlind (host : Host) : Prop :=
  ∀ (ρ : Nat → Nat), Function.Injective ρ → ∀ name argument safe,
    ExceptRel (fun v v' => v' = v.rename ρ ∧ ∀ k ∈ v.marks, k ∈ argument.marks)
      (host name argument safe) (host name (argument.rename ρ) safe)

theorem isBlind_default : (Config.host {}).IsBlind :=
  fun _ _ _ _ _ => .error rfl

namespace Renaming

open Eval

variable (ρ : Renaming)

/-- The second machine gives out the renamed marks. The world is the first mark not given out. -/
def link : Link Nat where
  Holds n m m' :=
    ρ.start ≤ n ∧ m.nextMark = n ∧ m'.nextMark = ρ.toFun n ∧ m.depth = m'.depth
  depth_eq h := h.2.2.2
  setDepth _ _ _ h := ⟨h.1, h.2.1, h.2.2.1, rfl⟩
  setPrinted _ _ h := h

/-- The second value is the first one renamed. -/
def Rel (n : Nat) (v v' : Expr) : Prop :=
  v.Below n ∧ v' = v.rename ρ.toFun

def EnvRel (n : Nat) (env env' : Env) : Prop :=
  env.Below n ∧ env' = env.rename ρ.toFun

def ValuesRel (n : Nat) (values values' : List (String × Expr)) : Prop :=
  (∀ p ∈ values, p.2.Below n) ∧ values' = renameValues ρ.toFun values

def StageRel (n : Nat) (s s' : Clause × Env) : Prop :=
  s.1.Below n ∧ s.2.Below n ∧ s' = (s.1.rename ρ.toFun, s.2.rename ρ.toFun)

/-- Evaluation goes the same way after renaming. -/
def Respects (ev : Evaluator) : Prop :=
  ∀ {n e env}, e.Below n → env.Below n →
    Tracks ρ.link ρ.Rel ev (fun _ => ev) n e env (e.rename ρ.toFun) (env.rename ρ.toFun)

variable {ρ} {n : Nat}

theorem rel_grows : Grows ρ.Rel :=
  fun _ _ _ _ h hv => ⟨hv.1.mono h, hv.2⟩

theorem forall₂_rel_iff {xs ys : List Expr} :
    List.Forall₂ (ρ.Rel n) xs ys ↔ (∀ x ∈ xs, x.Below n) ∧ ys = xs.map (·.rename ρ.toFun) := by
  induction xs generalizing ys with
  | nil => simp
  | cons x xs ih =>
    rw [List.forall₂_cons_left_iff]
    constructor
    · rintro ⟨y, ys, ⟨hx, rfl⟩, hxs, rfl⟩
      obtain ⟨hbelow, rfl⟩ := ih.1 hxs
      exact ⟨by simpa using ⟨hx, hbelow⟩, rfl⟩
    · rintro ⟨hxs, rfl⟩
      simp only [List.mem_cons, forall_eq_or_imp] at hxs
      exact ⟨_, _, ⟨hxs.1, rfl⟩, ih.2 ⟨hxs.2, rfl⟩, rfl⟩

theorem below_items {xs : List Expr} :
    (∀ k ∈ itemsMarks xs, k < n) ↔ ∀ x ∈ xs, x.Below n := by
  simp only [itemsMarks_eq, List.mem_flatMap, Expr.Below]
  constructor
  · exact fun h x hx k hk => h k ⟨x, hx, hk⟩
  · rintro h k ⟨x, hx, hk⟩
    exact h x hx k hk

theorem dataRel (n : Nat) : DataRel (ρ.Rel n) where
  sameData := by
    rintro a _ ⟨ha, rfl⟩
    cases a with
    | number n => exact .number n
    | text s => exact .text s
    | label name => exact .label name
    | list xs =>
      rw [Expr.rename, renameItems_eq]
      exact .list (forall₂_rel_iff.2 ⟨below_items.1 ha, rfl⟩)
    | _ => exact .other rfl rfl
  number _ := ⟨fun _ h => (List.not_mem_nil h).elim, rfl⟩
  text _ := ⟨fun _ h => (List.not_mem_nil h).elim, rfl⟩
  label _ := ⟨fun _ h => (List.not_mem_nil h).elim, rfl⟩
  list h := by
    obtain ⟨hxs, rfl⟩ := forall₂_rel_iff.1 h
    exact ⟨below_items.2 hxs, by rw [Expr.rename, renameItems_eq]⟩

/-- Giving out a mark on both sides. -/
theorem fresh_follows {α β : Type} {R : Nat → α → β → Prop} {f : Nat → α} {g : Nat → β}
    (h : R (n + 1) (f n) (g (ρ.toFun n))) :
    Follows ρ.link n R (f <$> freshMark) fun _ => g <$> freshMark := by
  rintro m m' ⟨hstart, hn, hn', hd⟩
  have hlater : ρ.link.Holds (n + 1) { m with nextMark := m.nextMark + 1 }
      { m' with nextMark := m'.nextMark + 1 } := by
    refine ⟨hstart.trans n.le_succ, congrArg (· + 1) hn, ?_, hd⟩
    rw [ρ.toFun_succ n hstart, ← hn']
  rw [← hn', ← hn] at h
  rw [← hn] at hlater ⊢
  exact .ok (m.nextMark.le_succ) hlater h (.const _)

theorem extend_follows {env env' : Env} {values values' : List (String × Expr)}
    (henv : ρ.EnvRel n env env') (hvalues : ρ.ValuesRel n values values') :
    Follows ρ.link n ρ.EnvRel (Eval.extend env values) fun _ => Eval.extend env' values' := by
  obtain ⟨henv, rfl⟩ := henv
  obtain ⟨hvalues, rfl⟩ := hvalues
  have hrel : ρ.EnvRel (n + 1) (env.extend n values)
      ((env.rename ρ.toFun).extend (ρ.toFun n) (renameValues ρ.toFun values)) := by
    refine ⟨fun k hk => ?_, (env.extend_rename n values).symm⟩
    rcases Env.mem_marks_extend hk with rfl | ⟨p, hp, hk⟩ | hk
    · exact k.lt_succ_self
    · exact (hvalues p hp k hk).trans n.lt_succ_self
    · exact (henv k hk).trans n.lt_succ_self
  exact fresh_follows (f := fun mark => env.extend mark values)
    (g := fun mark => (env.rename ρ.toFun).extend mark (renameValues ρ.toFun values)) hrel

theorem extendRecursive_follows {env env' : Env} (name : String) {clauses : List Clause}
    (henv : ρ.EnvRel n env env') (hclauses : ∀ clause ∈ clauses, clause.Below n) :
    Follows ρ.link n ρ.EnvRel (Eval.extendRecursive env name clauses)
      fun _ => Eval.extendRecursive env' name (clauses.map (·.rename ρ.toFun)) := by
  obtain ⟨henv, rfl⟩ := henv
  have hrel : ρ.EnvRel (n + 1) (env.extendRecursive n name clauses)
      ((env.rename ρ.toFun).extendRecursive (ρ.toFun n) name
        (clauses.map (·.rename ρ.toFun))) := by
    refine ⟨fun k hk => ?_, (env.extendRecursive_rename n name clauses).symm⟩
    rcases Env.mem_marks_extendRecursive hk with rfl | ⟨clause, hc, hk⟩ | hk
    · exact k.lt_succ_self
    · exact (hclauses clause hc k hk).trans n.lt_succ_self
    · exact (henv k hk).trans n.lt_succ_self
  exact fresh_follows (f := fun mark => env.extendRecursive mark name clauses)
    (g := fun mark => (env.rename ρ.toFun).extendRecursive mark name
      (clauses.map (·.rename ρ.toFun))) hrel

theorem split?_rename (head argument : Expr) (r : Nat → Nat) :
    split? (head.rename r) (argument.rename r) =
      (split? head argument).map fun (front, rest) => (front.rename r, rest.rename r) := by
  have hwidth (value : String) : splitText? (head.rename r) value = splitText? head value := by
    cases head <;> rfl
  cases argument with
  | list items =>
    cases items with
    | nil => rfl
    | cons first rest => rfl
  | text value =>
    simp only [Expr.rename, split?, hwidth, Option.map_map]
    rfl
  | _ => rfl

theorem below_of_split? {head argument front rest : Expr} (h : argument.Below n)
    (hs : split? head argument = some (front, rest)) : front.Below n ∧ rest.Below n := by
  unfold split? at hs
  split at hs
  · cases hs
    have hitems := below_items.1 h
    simp only [List.mem_cons, forall_eq_or_imp] at hitems
    exact ⟨hitems.1, below_items.2 hitems.2⟩
  · obtain ⟨⟨s, t⟩, -, hst⟩ := Option.map_eq_some_iff.1 hs
    cases hst
    exact ⟨fun _ h => (List.not_mem_nil h).elim, fun _ h => (List.not_mem_nil h).elim⟩
  · cases hs

variable {ev : Evaluator} {env : Env}

theorem matchInto_follows (hev : ρ.Respects ev) {n : Nat} {formal argument : Expr}
    {bound : List (String × Expr)} (hf : formal.Below n) (ha : argument.Below n)
    (henv : env.Below n) (hb : ∀ p ∈ bound, p.2.Below n) :
    Follows ρ.link n (fun n => OptionRel (ρ.ValuesRel n)) (matchInto ev env formal argument bound)
      fun _ => matchInto ev (env.rename ρ.toFun) (formal.rename ρ.toFun)
        (argument.rename ρ.toFun) (renameValues ρ.toFun bound) := by
  have hkept (e : Expr) (f : Expr) : Follows ρ.link n (fun n => OptionRel (ρ.ValuesRel n))
      (Pure.pure (if e.equal f then some bound else none)) fun _ => Pure.pure
        (if (e.rename ρ.toFun).equal (f.rename ρ.toFun) then some (renameValues ρ.toFun bound)
          else none) := by
    rw [Expr.equal_rename ρ.injective]
    split
    · exact .pure (.some ⟨hb, rfl⟩)
    · exact .pure .none
  match formal with
  | .identifier name =>
    refine .pure (.some ?_)
    by_cases hname : name = discard
    · simp only [if_pos hname]
      exact ⟨hb, rfl⟩
    · simp only [if_neg hname]
      refine ⟨fun p hp => ?_, by simp [renameValues]⟩
      rcases List.mem_append.1 hp with hp | hp
      · exact hb p hp
      · rw [List.mem_singleton.1 hp]
        exact ha
  | .guarded inner condition constant =>
    have hinner : inner.Below n := fun k hk => hf k (List.mem_append_left _ hk)
    have hcondition : condition.Below n := fun k hk => hf k (List.mem_append_right _ hk)
    rw [Expr.rename, matchInto, matchInto]
    refine (matchInto_follows hev hinner ha henv hb).bind fun n₁ r r' hn₁ hr => ?_
    cases hr with
    | none => exact .pure .none
    | some hbound =>
      refine (extend_follows ⟨henv.mono hn₁, rfl⟩ hbound).bind fun n₂ scope scope' hn₂ hscope => ?_
      obtain ⟨hscope, rfl⟩ := hscope
      refine (hev (hcondition.mono (hn₁.trans hn₂)) hscope n₂ true le_rfl).bind
        fun n₃ v v' hn₃ hv => .pure ?_
      rw [((dataRel n₃).sameData hv).isTruthy_eq]
      split
      · exact .some ⟨fun p hp => (hbound.1 p hp).mono (hn₂.trans hn₃), hbound.2⟩
      · exact .none
  | .cons head tail =>
    have hhead : head.Below n := fun k hk => hf k (List.mem_append_left _ hk)
    have htail : tail.Below n := fun k hk => hf k (List.mem_append_right _ hk)
    rw [Expr.rename, matchInto, matchInto, split?_rename]
    cases hs : split? head argument with
    | none => exact .pure .none
    | some parts =>
      obtain ⟨front, rest⟩ := parts
      obtain ⟨hfront, hrest⟩ := below_of_split? ha hs
      refine (matchInto_follows hev hhead hfront henv hb).bind fun n₁ r r' hn₁ hr => ?_
      cases hr with
      | none => exact .pure .none
      | some hbound =>
        obtain ⟨hbound, rfl⟩ := hbound
        exact matchInto_follows hev (htail.mono hn₁) (hrest.mono hn₁) (henv.mono hn₁) hbound
  | .number value => exact hkept (.number value) argument
  | .text value => exact hkept (.text value) argument
  | .label name => exact hkept (.label name) argument
  | .list items => exact hkept (.list items) argument
  | .application _ | .letIn _ _ _ | .pattern _ _ | .builtin _ => exact .fail rfl
termination_by sizeOf formal

theorem tryMatch_follows (hev : ρ.Respects ev) {formal argument : Expr} (hf : formal.Below n)
    (ha : argument.Below n) (henv : env.Below n) :
    Follows ρ.link n (fun n => OptionRel (ρ.EnvRel n)) (tryMatch ev formal argument env)
      fun _ => tryMatch ev (formal.rename ρ.toFun) (argument.rename ρ.toFun)
        (env.rename ρ.toFun) := by
  have hnone : ∀ p ∈ ([] : List (String × Expr)), p.2.Below n := by simp
  refine (matchInto_follows hev hf ha henv hnone).bind fun n₁ r r' hn₁ hr => ?_
  cases hr with
  | none => exact .pure .none
  | some hbound =>
    exact (extend_follows ⟨henv.mono hn₁, rfl⟩ hbound).bind fun _ _ _ _ h => .pure (.some h)

theorem stageRel (hev : ρ.Respects ev) :
    ClauseLang.StageRel ρ.link ρ.Rel ev (fun _ => ev) ρ.StageRel where
  grows _ _ _ _ hn h := ⟨h.1.mono hn, h.2.1.mono hn, h.2.2⟩
  length_row := by
    rintro n ⟨⟨row, body⟩, env⟩ _ ⟨-, -, rfl⟩
    simp [Clause.rename, Clause.row]
  advance := by
    rintro n ⟨⟨row, body⟩, env⟩ _ a _ ⟨hclause, henv, rfl⟩ ⟨ha, rfl⟩
    cases row with
    | nil => exact .fail rfl
    | cons formal row =>
      simp only [Clause.Below, Clause.marks, itemsMarks, List.mem_append] at hclause
      refine (tryMatch_follows hev (fun k hk => hclause k (.inl (.inl hk))) ha henv).bind
        fun n₁ r r' hn₁ hr => ?_
      cases hr with
      | none => exact .pure .none
      | some hscope =>
        obtain ⟨hscope, rfl⟩ := hscope
        refine .pure (.some ⟨fun k hk => ?_, hscope, ?_⟩)
        · simp only [Clause.marks, List.mem_append] at hk
          rcases hk with hk | hk
          · exact (hclause k (.inl (.inr hk))).trans_le hn₁
          · exact (hclause k (.inr hk)).trans_le hn₁
        · simp [Clause.rename]
  body := by
    rintro n ⟨⟨row, body⟩, env⟩ _ ⟨hclause, henv, rfl⟩ -
    exact hev (fun k hk => hclause k (List.mem_append_right _ hk)) henv n false le_rfl

theorem forall₂_stageRel_iff {stages stages' : List (Clause × Env)} :
    List.Forall₂ (ρ.StageRel n) stages stages' ↔ (∀ s ∈ stages, s.1.Below n ∧ s.2.Below n) ∧
      stages' = stages.map fun s => (s.1.rename ρ.toFun, s.2.rename ρ.toFun) := by
  induction stages generalizing stages' with
  | nil => simp
  | cons s stages ih =>
    rw [List.forall₂_cons_left_iff]
    constructor
    · rintro ⟨_, _, ⟨hclause, henv, rfl⟩, hstages, rfl⟩
      obtain ⟨hbelow, rfl⟩ := ih.1 hstages
      exact ⟨List.forall_mem_cons.2 ⟨⟨hclause, henv⟩, hbelow⟩, rfl⟩
    · rintro ⟨hbelow, rfl⟩
      simp only [List.mem_cons, forall_eq_or_imp] at hbelow
      exact ⟨_, _, ⟨hbelow.1.1, hbelow.1.2, rfl⟩, ih.2 ⟨hbelow.2, rfl⟩, rfl⟩

theorem below_pattern_iff {clauses : List Clause} {captured : List Env} :
    (Expr.pattern clauses captured).Below n ↔
      (∀ clause ∈ clauses, clause.Below n) ∧ ∀ env ∈ captured, env.Below n := by
  simp only [Expr.Below, Expr.marks, clausesMarks_eq, scopesMarks_eq, List.mem_append,
    List.mem_flatMap, Clause.Below, Env.Below]
  constructor
  · intro h
    exact ⟨fun c hc k hk => h k (.inl ⟨c, hc, hk⟩), fun e he k hk => h k (.inr ⟨e, he, hk⟩)⟩
  · rintro ⟨hc, he⟩ k (⟨c, hm, hk⟩ | ⟨e, hm, hk⟩)
    · exact hc c hm k hk
    · exact he e hm k hk

variable {cfg : Config}

theorem compute_follows (op : BinaryOp) {left right left' right' : Expr}
    (hl : ρ.Rel n left left') (hr : ρ.Rel n right right') :
    ExceptRel (ρ.Rel n) (op.compute left right) (op.compute left' right') := by
  have hdata := dataRel (ρ := ρ) n
  have hequal : left'.equal right' = left.equal right := by
    rw [hl.2, hr.2, Expr.equal_rename ρ.injective]
  by_cases he : op = .equal
  · subst he
    simp only [BinaryOp.compute, hequal]
    exact .ok (hdata.ofBool _)
  · by_cases hne : op = .notEqual
    · subst hne
      simp only [BinaryOp.compute, hequal]
      exact .ok (hdata.ofBool _)
    · exact BinaryOp.compute_alike hdata he hne (hdata.sameData hl) (hdata.sameData hr)

theorem call_follows (hhost : cfg.host.IsBlind) (op : Builtin) {argument argument' : Expr}
    (hop : ρ.Rel n (.builtin op) (.builtin (op.rename ρ.toFun)))
    (ha : ρ.Rel n argument argument') (safe : Bool) :
    Follows ρ.link n ρ.Rel (op.call cfg argument safe)
      fun _ => (op.rename ρ.toFun).call cfg argument' safe := by
  have hdata := dataRel (ρ := ρ) n
  cases op with
  | unary op =>
    cases op with
    | abs => exact .ofExcept (absolute_alike hdata (hdata.sameData ha))
    | len => exact .ofExcept (size_alike hdata (hdata.sameData ha))
    | print =>
      exact (Follows.print (R := fun _ _ _ => True) trivial).bind fun _ _ _ hn _ =>
        .pure (rel_grows hn ha)
  | binary op =>
    obtain ⟨hargument, rfl⟩ := ha
    exact .pure ⟨hargument, rfl⟩
  | waiting op left => exact .ofExcept (compute_follows op ⟨hop.1, rfl⟩ ha)
  | host name =>
    obtain ⟨hargument, rfl⟩ := ha
    have hr := hhost ρ.toFun ρ.injective name argument safe
    refine .ofExcept ?_
    generalize cfg.host name argument safe = r at hr
    generalize cfg.host name (argument.rename ρ.toFun) safe = r' at hr
    cases hr with
    | ok h => exact .ok ⟨fun k hk => hargument k (h.2 k hk), h.1⟩
    | error h => exact .error h

theorem apply_follows (hhost : cfg.host.IsBlind) (hev : ρ.Respects ev) :
    AppliesAlike ρ.link ρ.Rel cfg ev fun _ => ev := by
  rintro n f _ a _ safe ⟨hf, rfl⟩ ha
  refine .contain ?_ fun n => (dataRel n).label "false"
  cases f with
  | pattern clauses captured =>
    have hbelow := below_pattern_iff.1 hf
    simp only [Expr.rename, renameClauses_eq, renameScopes_eq]
    refine applyPattern_follows rel_grows (stageRel hev) ?_ (by simp) ?_ ha
    · rintro n stages stages' hstages -
      obtain ⟨hbelow, rfl⟩ := forall₂_stageRel_iff.1 hstages
      refine ⟨below_pattern_iff.2 ⟨?_, ?_⟩, by simp [Expr.rename, Function.comp_def]⟩
      · rintro clause hc
        obtain ⟨s, hs, rfl⟩ := List.mem_map.1 hc
        exact (hbelow s hs).1
      · rintro env he
        obtain ⟨s, hs, rfl⟩ := List.mem_map.1 he
        exact (hbelow s hs).2
    · rw [List.zip_map]
      refine forall₂_stageRel_iff.2 ⟨fun s hs => ?_, rfl⟩
      obtain ⟨hc, he⟩ := List.of_mem_zip hs
      exact ⟨hbelow.1 _ hc, hbelow.2 _ he⟩
  | builtin op => exact (call_follows hhost op ⟨hf, rfl⟩ ha safe).during
  | _ => exact .fail rfl

theorem evalBindings_follows (hev : ρ.Respects ev) (safe : Bool) (names : List String)
    {values : List Expr} (hvalues : ∀ v ∈ values, v.Below n) (henv : env.Below n) :
    Follows ρ.link n ρ.EnvRel (evalBindings ev safe names values env)
      fun _ => evalBindings ev safe names (values.map (·.rename ρ.toFun))
        (env.rename ρ.toFun) := by
  induction names generalizing n values env with
  | nil => exact .pure ⟨henv, rfl⟩
  | cons name names ih =>
    cases values with
    | nil => exact .pure ⟨henv, rfl⟩
    | cons value values =>
      simp only [List.mem_cons, forall_eq_or_imp] at hvalues
      obtain ⟨hvalue, hvalues⟩ := hvalues
      by_cases hpattern : ∃ clauses, value = .pattern clauses []
      · obtain ⟨clauses, rfl⟩ := hpattern
        have hclauses := (below_pattern_iff.1 hvalue).1
        simp only [List.map_cons, Expr.rename, renameClauses_eq, renameScopes_eq, List.map_nil,
          evalBindings_pattern]
        refine (extendRecursive_follows name ⟨henv, rfl⟩ hclauses).bind
          fun n₁ scope scope' hn₁ hs => ?_
        obtain ⟨hs, rfl⟩ := hs
        exact ih (fun v hv => (hvalues v hv).mono hn₁) hs
      · have hpattern' : ∀ clauses, value.rename ρ.toFun ≠ .pattern clauses [] := by
          intro clauses hc
          cases value with
          | pattern clauses captured =>
            simp only [Expr.rename, renameScopes_eq, Expr.pattern.injEq, List.map_eq_nil_iff] at hc
            exact hpattern ⟨clauses, by rw [hc.2]⟩
          | _ => cases hc
        simp only [List.map_cons, evalBindings_of_ne _ _ _ _ _ _ (not_exists.1 hpattern),
          evalBindings_of_ne _ _ _ _ _ _ hpattern']
        refine (hev hvalue henv n safe le_rfl).during.bind fun n₁ v v' hn₁ hv => ?_
        obtain ⟨hv, rfl⟩ := hv
        have hone : ρ.ValuesRel n₁ [(name, v)] [(name, v.rename ρ.toFun)] :=
          ⟨by simpa using hv, rfl⟩
        refine (extend_follows ⟨henv.mono hn₁, rfl⟩ hone).bind fun n₂ scope scope' hn₂ hs => ?_
        obtain ⟨hs, rfl⟩ := hs
        exact ih (fun v hv => (hvalues v hv).mono (hn₁.trans hn₂)) hs

theorem evalLevel_follows (hhost : cfg.host.IsBlind) (hev : ρ.Respects ev) {e : Expr}
    (he : e.Below n) (henv : env.Below n) (safe : Bool) :
    Follows ρ.link n ρ.Rel (evalLevel cfg ev e env safe)
      fun _ => evalLevel cfg ev (e.rename ρ.toFun) (env.rename ρ.toFun) safe := by
  have hitems {items : List Expr} (h : ∀ item ∈ items, item.Below n) :
      List.Forall₂ (fun e e' => Tracks ρ.link ρ.Rel ev (fun _ => ev) n e env e'
        (env.rename ρ.toFun)) items (items.map (·.rename ρ.toFun)) := by
    rw [List.forall₂_map_right_iff, List.forall₂_same]
    exact fun item hi => hev (h item hi) henv
  cases e with
  | identifier name =>
    simp only [Expr.rename, evalLevel, Env.get?_rename]
    cases hg : env.get? name with
    | none => exact .fail rfl
    | some v => exact .pure ⟨fun k hk => henv k (Env.mem_marks_of_get? hg hk), rfl⟩
  | number | text | label | builtin => exact .pure ⟨he, rfl⟩
  | list items =>
    simp only [Expr.rename, renameItems_eq, evalLevel]
    exact (evalElements_follows rel_grows safe 0 (hitems (below_items.1 he))).bind
      fun n₁ _ _ _ hvs => .pure ((dataRel n₁).list hvs)
  | application items =>
    have hbelow := below_items.1 he
    cases items with
    | nil => exact .fail rfl
    | cons item items =>
      simp only [List.mem_cons, forall_eq_or_imp] at hbelow
      simp only [Expr.rename, renameItems_eq, List.map_cons, evalLevel]
      exact (hev hbelow.1 henv n safe le_rfl).during.bind fun n₁ f f' hn₁ hf =>
        applyAll_follows rel_grows (apply_follows hhost hev) safe 1 (hitems hbelow.2) hn₁ hf
  | letIn names values body =>
    have hvalues : ∀ v ∈ values, v.Below n :=
      below_items.1 fun k hk => he k (List.mem_append_left _ hk)
    have hbody : body.Below n := fun k hk => he k (List.mem_append_right _ hk)
    simp only [Expr.rename, renameItems_eq, evalLevel]
    refine (evalBindings_follows hev safe names hvalues henv).bind fun n₁ scope scope' hn₁ hs => ?_
    obtain ⟨hs, rfl⟩ := hs
    exact (hev (hbody.mono hn₁) hs n₁ safe le_rfl).during
  | pattern clauses captured =>
    cases captured with
    | nil =>
      refine .pure ⟨fun k hk => ?_, ?_⟩
      · rcases Expr.mem_marks_closeOver hk with ⟨clause, hc, hk⟩ | hk
        · exact (below_pattern_iff.1 he).1 clause hc k hk
        · exact henv k hk
      · rw [Expr.rename_closeOver, renameClauses_eq]
    | cons => exact .pure ⟨he, rfl⟩
  | cons | guarded => exact .fail rfl

theorem eval_respects (hhost : cfg.host.IsBlind) (fuel : Nat) : ρ.Respects (eval cfg fuel) := by
  induction fuel with
  | zero => exact fun _ _ _ _ _ _ _ _ => .outOfFuel
  | succ fuel ih =>
    intro n e env he henv n' safe hn
    simp only [eval_succ]
    exact .contain (evalLevel_follows hhost ih (he.mono hn) (henv.mono hn) safe)
      fun n => (dataRel n).label "false"

end Renaming

end ClauseLang
