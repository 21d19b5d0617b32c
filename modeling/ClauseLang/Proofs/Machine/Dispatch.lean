import ClauseLang.Proofs.Machine.Ensures
import ClauseLang.Proofs.Machine.Later
import ClauseLang.Proofs.Machine.Rename

/-!
How a closure picks its clause. Applying it to arguments one after another keeps all clauses that may
still match, each in a scope of its own, yet comes to what matching one whole row after the other
would give: the first clause whose row matches.

The scopes are those of the whole rows up to the marks of their new frames, for marks are given out
in another order.
-/

namespace ClauseLang

/-- Match the formals of a row with arguments from left to right, as far as there are arguments. -/
def rowMatch (ev : Evaluator) : List Expr → List Expr → Env → Eval (Option Env)
  | formal :: row, argument :: arguments, env => do
    match ← tryMatch ev formal argument env with
    | none => return none
    | some scope => rowMatch ev row arguments scope
  | _, _, env => pure (some env)

def applyEach (cfg : Config) (ev : Evaluator) : Expr → List Expr → Eval Expr
  | callee, [] => pure callee
  | callee, argument :: arguments => do
    applyEach cfg ev (← apply cfg ev callee argument false) arguments

/-- The clauses whose rows match the arguments as far as these go, in order. Their rows are
shortened, and each has the scope that its formals have led to. All rows are matched from one
state. -/
def matching (ev : Evaluator) (m : Machine) (arguments : List Expr)
    (stages : List (Clause × Env)) : List (Clause × Env) :=
  stages.filterMap fun (clause, env) =>
    match rowMatch ev clause.row arguments env m with
    | .ok (some scope) _ => some (.mk (clause.row.drop arguments.length) clause.body, scope)
    | _ => none

def Expr.isFormal : Expr → Bool
  | .identifier _ | .label _ | .text _ | .number _ | .list _ => true
  | .cons head tail => head.isFormal && tail.isFormal
  | .guarded inner _ _ => inner.isFormal
  | .application _ | .letIn _ _ _ | .pattern _ _ | .builtin _ => false

/-- The scopes are the same up to marks from `n` on. -/
def Env.Alike (n : Nat) (env env' : Env) : Prop :=
  ∃ ρ : Nat → Nat, Function.Injective ρ ∧ (∀ k < n, ρ k = k) ∧ env' = env.rename ρ

section

open Eval

variable {cfg : Config} {ev : Evaluator} {fuel : Nat}

theorem matchInto_ensures_of_isFormal {env : Env} {formal argument : Expr}
    {bound : List (String × Expr)} (hf : formal.isFormal) :
    (matchInto (eval cfg fuel) env formal argument bound).Ensures (fun _ => True)
      fun _ => False := by
  match formal with
  | .identifier _ | .label _ | .text _ | .number _ | .list _ => exact .pure trivial
  | .cons head tail =>
    simp only [Expr.isFormal, Bool.and_eq_true] at hf
    rw [matchInto]
    split
    · exact .pure trivial
    · refine (matchInto_ensures_of_isFormal hf.1).bind fun r _ => ?_
      cases r with
      | none => exact .pure trivial
      | some bound => exact matchInto_ensures_of_isFormal hf.2
  | .guarded inner condition constant =>
    have hinner : inner.isFormal := hf
    rw [matchInto]
    refine (matchInto_ensures_of_isFormal hinner).bind fun r _ => ?_
    cases r with
    | none => exact .pure trivial
    | some bound =>
      refine (Ensures.extend (P := fun _ => True) fun _ => trivial).bind fun scope _ => ?_
      exact (eval_safe_ensures cfg fuel condition scope).bind fun _ _ => .pure trivial
termination_by sizeOf formal

theorem tryMatch_ensures_of_isFormal {formal : Expr} (hf : formal.isFormal) (argument : Expr)
    (env : Env) :
    (tryMatch (eval cfg fuel) formal argument env).Ensures (fun _ => True) fun _ => False := by
  refine (matchInto_ensures_of_isFormal hf).bind fun r _ => ?_
  cases r with
  | none => exact .pure trivial
  | some bound =>
    refine (Ensures.extend (P := fun _ => True) fun _ => trivial).bind fun scope _ => ?_
    exact .pure trivial

end

/-- Two machines have come to one scope but for its marks. What was there at the beginning has marks
below `n`. -/
structure Tracked (n : Nat) (m m' : Machine) (env env' : Env) : Prop where
  depth_eq : m.depth = m'.depth
  le_nextMark : n ≤ m.nextMark
  below : env.Below m.nextMark
  renamed : ∃ ρ : Nat → Nat, Function.Injective ρ ∧ (∀ k < n, ρ k = k) ∧
    (∀ k < m.nextMark, ρ k < m'.nextMark) ∧ env' = env.rename ρ

namespace Tracked

variable {n : Nat} {m m' m'' : Machine} {env env' : Env}

theorem refl (hn : n ≤ m.nextMark) (henv : env.Below m.nextMark) : Tracked n m m env env where
  depth_eq := rfl
  le_nextMark := hn
  below := henv
  renamed := ⟨id, Function.injective_id, fun _ _ => rfl, fun _ hk => hk, env.rename_id.symm⟩

theorem later {limit : Nat} (h : Tracked n m m' env env') (hm : m'.Later limit m'') :
    Tracked n m m'' env env' := by
  obtain ⟨ρ, hρ, hfixed, hbound, hscope⟩ := h.renamed
  exact { h with
    depth_eq := h.depth_eq.trans hm.depth_eq.symm
    renamed := ⟨ρ, hρ, hfixed, fun k hk => (hbound k hk).trans_le hm.nextMark_le, hscope⟩ }

theorem alike (h : Tracked n m m' env env') : Env.Alike n env env' := by
  obtain ⟨ρ, hρ, hfixed, -, hscope⟩ := h.renamed
  exact ⟨ρ, hρ, hfixed, hscope⟩

/-- A renaming of the marks before `start`, and one of those to come. -/
def continued {start next : Nat} {ρ : Nat → Nat} (hρ : Function.Injective ρ)
    (hbound : ∀ k < start, ρ k < next) : Renaming where
  toFun k := if k < start then ρ k else k - start + next
  injective := by
    intro a b hab
    dsimp only at hab
    split at hab <;> split at hab
    · exact hρ hab
    · have := hbound a ‹_›
      omega
    · have := hbound b ‹_›
      omega
    · omega
  start := start
  toFun_succ k hk := by
    simp only [show ¬ k < start by omega, show ¬ k + 1 < start by omega, if_false]
    omega

theorem tryMatch {cfg : Config} (hhost : cfg.host.IsBlind) {fuel : Nat} {formal argument : Expr}
    (hf : formal.Below n) (ha : argument.Below n) (h : Tracked n m m' env env') {r : Option Env}
    {m₁ : Machine} (hr : tryMatch (eval cfg fuel) formal argument env m = .ok r m₁) :
    ∃ r' m₁', ClauseLang.tryMatch (eval cfg fuel) formal argument env' m' = .ok r' m₁' ∧
      m'.Later cfg.maxDepth m₁' ∧ OptionRel (Tracked n m₁ m₁') r r' := by
  obtain ⟨ρ₀, hρ₀, hfixed, hbound, rfl⟩ := h.renamed
  have hle := h.le_nextMark
  let ρ := continued hρ₀ hbound
  have hold : ∀ k < m.nextMark, ρ.toFun k = ρ₀ k := fun k hk => if_pos hk
  have hnew : ∀ k, m.nextMark ≤ k → ρ.toFun k = k - m.nextMark + m'.nextMark :=
    fun k hk => if_neg (by omega)
  have hsame : ∀ e : Expr, e.Below n → e.rename ρ.toFun = e := fun e he =>
    Expr.rename_eq_self fun k hk => by
      have hk := he k hk
      rw [hold k (by omega), hfixed k hk]
  have henv : env.rename ρ.toFun = env.rename ρ₀ :=
    env.rename_congr fun k hk => hold k (h.below k hk)
  have hlink : ρ.link.Holds m.nextMark m m' :=
    ⟨le_rfl, rfl, by rw [hnew _ le_rfl]; omega, h.depth_eq⟩
  have hfollows := Renaming.tryMatch_follows (Renaming.eval_respects (ρ := ρ) hhost fuel)
    (hf.mono hle) (ha.mono hle) h.below m m' hlink
  rw [hr, hsame formal hf, hsame argument ha, henv] at hfollows
  cases hfollows with
  | @ok n₁ _ r' _ m₁' _ hn₁ hL hrel hsettled =>
    obtain ⟨-, hnext, hnext', hdepth⟩ := hL
    rw [hnew n₁ hn₁] at hnext'
    obtain ⟨k, hk⟩ := hsettled
    have hr' : ClauseLang.tryMatch (eval cfg fuel) formal argument (env.rename ρ₀) m' = .ok r' m₁' :=
      hk k le_rfl
    have hlater := tryMatch_advances cfg fuel formal argument (env.rename ρ₀) m'
    rw [Eval.endState, hr'] at hlater
    refine ⟨r', m₁', hr', hlater, ?_⟩
    cases hrel with
    | none => exact .none
    | some hscope =>
      refine .some ⟨hdepth, by omega, hnext ▸ hscope.1, ρ.toFun, ρ.injective, ?_, ?_, hscope.2⟩
      · intro k hk
        rw [hold k (by omega), hfixed k hk]
      · intro k hk
        by_cases hkm : k < m.nextMark
        · have := hbound k hkm
          rw [hold k hkm]
          omega
        · rw [hnew k (by omega)]
          omega

end Tracked

/-- A clause whose row is matched on its own, with the scope and the state that it has come to. -/
structure Thread where
  clause : Clause
  scope : Env
  machine : Machine

namespace Thread

def after (ev : Evaluator) (arguments : List Expr) (t : Thread) : Option Thread :=
  match rowMatch ev t.clause.row arguments t.scope t.machine with
  | .ok (some scope) m => some ⟨.mk (t.clause.row.drop arguments.length) t.clause.body, scope, m⟩
  | _ => none

def Ends (ev : Evaluator) (arguments : List Expr) (t : Thread) : Prop :=
  Eval.ends (rowMatch ev t.clause.row arguments t.scope) t.machine

/-- What is left of the clause has so many formals, with marks below `n`. -/
structure Takes (n arity : Nat) (t : Thread) : Prop where
  length_row : t.clause.row.length = arity
  isFormal : ∀ formal ∈ t.clause.row, formal.isFormal
  below : t.clause.Below n

/-- The machine has the clause in a scope that is the thread's but for its marks. -/
def On (n : Nat) (m : Machine) (t : Thread) (stage : Clause × Env) : Prop :=
  stage.1 = t.clause ∧ Tracked n t.machine m t.scope stage.2

theorem On.later {n limit : Nat} {m m' : Machine} {t : Thread} {stage : Clause × Env}
    (h : t.On n m stage) (hm : m.Later limit m') : t.On n m' stage :=
  ⟨h.1, h.2.later hm⟩

variable {ev : Evaluator} {formal a : Expr} {row arguments : List Expr} {body : Expr} {env : Env}
  {m : Machine}

theorem rowMatch_cons (ev : Evaluator) (formal a : Expr) (row arguments : List Expr) (env : Env) :
    rowMatch ev (formal :: row) (a :: arguments) env = (do
      match ← tryMatch ev formal a env with
      | none => return none
      | some scope => rowMatch ev row arguments scope) :=
  rfl

theorem rowMatch_of_some {scope : Env} {m' : Machine}
    (h : tryMatch ev formal a env m = .ok (some scope) m') :
    rowMatch ev (formal :: row) (a :: arguments) env m = rowMatch ev row arguments scope m' := by
  simp only [rowMatch_cons, bind, EStateM.bind, h]

theorem rowMatch_of_none {m' : Machine} (h : tryMatch ev formal a env m = .ok none m') :
    rowMatch ev (formal :: row) (a :: arguments) env m = .ok none m' := by
  simp only [rowMatch_cons, bind, EStateM.bind, h]
  rfl

theorem rowMatch_append (ev : Evaluator) (row as bs : List Expr) (env : Env) :
    rowMatch ev row (as ++ bs) env = (do
      match ← rowMatch ev row as env with
      | none => return none
      | some scope => rowMatch ev (row.drop as.length) bs scope) := by
  induction as generalizing row env with
  | nil => cases row <;> rfl
  | cons a as ih =>
    cases row with
    | nil => cases bs <;> rfl
    | cons formal row =>
      funext m
      simp only [List.cons_append, rowMatch_cons, ih, List.length_cons, List.drop_succ_cons, bind,
        EStateM.bind]
      cases tryMatch ev formal a env m with
      | error => rfl
      | ok r m' => cases r <;> rfl

theorem after_append (ev : Evaluator) (as bs : List Expr) (t : Thread) :
    t.after ev (as ++ bs) = (t.after ev as).bind (after ev bs) := by
  obtain ⟨⟨row, body⟩, scope, machine⟩ := t
  simp only [after, Clause.row, Clause.body, rowMatch_append, bind, EStateM.bind]
  cases rowMatch ev row as scope machine with
  | error => rfl
  | ok r m =>
    cases r with
    | none => rfl
    | some scope =>
      simp only [Option.bind_some, after, Clause.row, Clause.body, List.length_append,
        List.drop_drop]

theorem after_nil (ev : Evaluator) (t : Thread) : t.after ev [] = some t := by
  obtain ⟨⟨row, body⟩, scope, machine⟩ := t
  cases row <;> rfl

theorem filterMap_after_nil (ev : Evaluator) (threads : List Thread) :
    threads.filterMap (after ev []) = threads := by
  rw [funext (after_nil ev), List.filterMap_some]

theorem filterMap_after_append (ev : Evaluator) (as bs : List Expr) (threads : List Thread) :
    threads.filterMap (after ev (as ++ bs)) =
      (threads.filterMap (after ev as)).filterMap (after ev bs) := by
  rw [List.filterMap_filterMap, funext (after_append ev as bs)]

theorem after_of_some {scope : Env} {m' : Machine}
    (h : tryMatch ev formal a env m = .ok (some scope) m') :
    after ev [a] ⟨.mk (formal :: row) body, env, m⟩ = some ⟨.mk row body, scope, m'⟩ := by
  simp only [after, Clause.row, Clause.body, rowMatch_of_some h]
  cases row <;> rfl

theorem after_of_none {m' : Machine} (h : tryMatch ev formal a env m = .ok none m') :
    after ev [a] ⟨.mk (formal :: row) body, env, m⟩ = none := by
  simp only [after, Clause.row, rowMatch_of_none h]

variable {n arity : Nat} {cfg : Config} {fuel : Nat} {t : Thread} {stage : Clause × Env}

theorem Ends.tryMatch (hf : formal.isFormal)
    (h : Ends (eval cfg fuel) (a :: arguments) ⟨.mk (formal :: row) body, env, m⟩) :
    ∃ r m', tryMatch (eval cfg fuel) formal a env m = .ok r m' := by
  have hmatch : Eval.Meets _ _ (ClauseLang.tryMatch (eval cfg fuel) formal a env m) :=
    tryMatch_ensures_of_isFormal hf a env m
  match hr : ClauseLang.tryMatch (eval cfg fuel) formal a env m with
  | .ok r m' => exact ⟨r, m', rfl⟩
  | .error (.error e) m' =>
    rw [hr] at hmatch
    exact hmatch.elim
  | .error .outOfFuel m' =>
    simp [Ends, Eval.ends, Clause.row, rowMatch_cons, bind, EStateM.bind, hr] at h

theorem On.advance (hhost : cfg.host.IsBlind) (ha : a.Below n) (ht : t.Takes n (arity + 1))
    (hends : t.Ends (eval cfg fuel) (a :: arguments)) (h : t.On n m stage) :
    ∃ r m', advance (eval cfg fuel) a stage m = .ok r m' ∧ m.Later cfg.maxDepth m' ∧
      OptionRel (fun t => t.On n m') (t.after (eval cfg fuel) [a]) r ∧
      ∀ t' ∈ t.after (eval cfg fuel) [a], t'.Takes n arity ∧ t'.Ends (eval cfg fuel) arguments := by
  obtain ⟨⟨row, body⟩, scope, machine⟩ := t
  obtain ⟨stageClause, stageScope⟩ := stage
  obtain ⟨rfl, htracked⟩ := h
  obtain ⟨hlength, hformals, hbelow⟩ := ht
  cases row with
  | nil => cases hlength
  | cons formal row =>
    simp only [Clause.row, List.mem_cons, forall_eq_or_imp] at hformals
    simp only [Clause.Below, Clause.marks, itemsMarks, List.mem_append] at hbelow
    obtain ⟨r, machine', hr⟩ := hends.tryMatch hformals.1
    obtain ⟨r', m', hr', hlater, hrel⟩ :=
      htracked.tryMatch hhost (fun k hk => hbelow k (.inl (.inl hk))) ha hr
    cases hrel with
    | none =>
      rw [after_of_none hr]
      refine ⟨none, m', ?_, hlater, .none, by simp⟩
      simp only [ClauseLang.advance, bind, EStateM.bind, hr']
      rfl
    | @some scope₁ scope₁' hscope =>
      rw [after_of_some hr]
      refine ⟨some (.mk row body, scope₁'), m', ?_, hlater, .some ⟨rfl, hscope⟩, ?_⟩
      · simp only [ClauseLang.advance, bind, EStateM.bind, hr']
        rfl
      · rintro _ ⟨rfl⟩
        refine ⟨⟨by simpa [Clause.row] using hlength, hformals.2, fun k hk => ?_⟩, ?_⟩
        · rcases List.mem_append.1 hk with hk | hk
          · exact hbelow k (.inl (.inr hk))
          · exact hbelow k (.inr hk)
        · simpa only [Ends, Eval.ends, Clause.row, rowMatch_of_some hr] using hends

theorem surviving_eq (hhost : cfg.host.IsBlind) (ha : a.Below n) {threads : List Thread}
    (ht : ∀ t ∈ threads, t.Takes n (arity + 1) ∧ t.Ends (eval cfg fuel) (a :: arguments))
    {stages : List (Clause × Env)} (h : List.Forall₂ (fun t => t.On n m) threads stages) :
    ∃ stages' m', surviving (eval cfg fuel) a stages m = .ok stages' m' ∧
      m.Later cfg.maxDepth m' ∧
      List.Forall₂ (fun t => t.On n m') (threads.filterMap (after (eval cfg fuel) [a])) stages' ∧
      ∀ t' ∈ threads.filterMap (after (eval cfg fuel) [a]),
        t'.Takes n arity ∧ t'.Ends (eval cfg fuel) arguments := by
  induction threads generalizing m stages with
  | nil =>
    cases h
    exact ⟨[], m, rfl, .refl _ m, .nil, by simp⟩
  | cons t threads ih =>
    simp only [List.mem_cons, forall_eq_or_imp] at ht
    cases h with
    | @cons _ stage _ stages hon hrest =>
      obtain ⟨r, m₁, hadvance, hlater₁, hrel, hnext⟩ := hon.advance hhost ha ht.1.1 ht.1.2
      obtain ⟨stages', m₂, hsurviving, hlater₂, hrels, hnexts⟩ :=
        ih ht.2 (hrest.imp fun _ _ h => h.later hlater₁)
      rw [List.filterMap_cons]
      generalize t.after (eval cfg fuel) [a] = next at hrel hnext
      cases hrel with
      | none =>
        refine ⟨stages', m₂, ?_, hlater₁.trans hlater₂, hrels, hnexts⟩
        simp only [surviving, bind, EStateM.bind, hadvance, hsurviving]
      | @some t' stage' hstage =>
        refine ⟨stage' :: stages', m₂, ?_, hlater₁.trans hlater₂,
          .cons (hstage.later hlater₂) hrels, List.forall_mem_cons.2 ⟨hnext t' rfl, hnexts⟩⟩
        simp only [surviving, bind, EStateM.bind, hadvance, hsurviving]
        rfl

end Thread

section

variable {cfg : Config} {ev : Evaluator}

theorem applyEach_append (cfg : Config) (ev : Evaluator) (f : Expr) (as bs : List Expr) :
    applyEach cfg ev f (as ++ bs) = (do applyEach cfg ev (← applyEach cfg ev f as) bs) := by
  induction as generalizing f with
  | nil => rfl
  | cons a as ih =>
    simp only [List.cons_append, applyEach, ih, bind_assoc]

end

section

open Eval Thread

variable {cfg : Config} {fuel n : Nat} {threads : List Thread} {m : Machine}

theorem length_row_of_on {arity : Nat} {stages : List (Clause × Env)}
    (h : List.Forall₂ (fun t => t.On n m) threads stages)
    (ht : ∀ t ∈ threads, t.Takes n arity) : ∀ s ∈ stages, s.1.row.length = arity := by
  induction h with
  | nil => simp
  | cons hon _ ih =>
    simp only [List.mem_cons, forall_eq_or_imp] at ht ⊢
    exact ⟨by rw [hon.1, ht.1.length_row], ih ht.2⟩

theorem applyEach_eq (hhost : cfg.host.IsBlind) {arguments rest : List Expr} {k : Nat}
    (ha : ∀ a ∈ arguments, a.Below n)
    (ht : ∀ t ∈ threads, t.Takes n (arguments.length + (k + 1)) ∧
      t.Ends (eval cfg fuel) (arguments ++ rest))
    {stages : List (Clause × Env)} (h : List.Forall₂ (fun t => t.On n m) threads stages)
    (hne : threads.filterMap (after (eval cfg fuel) arguments) ≠ []) :
    ∃ stages' m', applyEach cfg (eval cfg fuel) (.ofStages stages) arguments m =
        .ok (.ofStages stages') m' ∧ m.Later cfg.maxDepth m' ∧
      List.Forall₂ (fun t => t.On n m') (threads.filterMap (after (eval cfg fuel) arguments))
        stages' ∧
      ∀ t' ∈ threads.filterMap (after (eval cfg fuel) arguments),
        t'.Takes n (k + 1) ∧ t'.Ends (eval cfg fuel) rest := by
  induction arguments generalizing threads m stages with
  | nil =>
    simp only [List.length_nil, Nat.zero_add, List.nil_append] at ht
    rw [filterMap_after_nil]
    exact ⟨stages, m, rfl, .refl _ m, h, ht⟩
  | cons a arguments ih =>
    simp only [List.mem_cons, forall_eq_or_imp] at ha
    have hcons : threads.filterMap (after (eval cfg fuel) (a :: arguments)) =
        (threads.filterMap (after (eval cfg fuel) [a])).filterMap
          (after (eval cfg fuel) arguments) :=
      filterMap_after_append (eval cfg fuel) [a] arguments threads
    rw [hcons] at hne ⊢
    have ht' : ∀ t ∈ threads, t.Takes n (arguments.length + (k + 1) + 1) ∧
        t.Ends (eval cfg fuel) (a :: (arguments ++ rest)) := by
      intro t hm
      have htakes := (ht t hm).1
      rw [List.length_cons, show arguments.length + 1 + (k + 1) = arguments.length + (k + 1) + 1 by
        omega] at htakes
      exact ⟨htakes, (ht t hm).2⟩
    obtain ⟨stages₁, m₁, hsurviving, hlater₁, hon, hnext⟩ := surviving_eq hhost ha.1 ht' h
    have hstages : stages ≠ [] := by
      rintro rfl
      cases h
      exact hne rfl
    have hstages₁ : stages₁ ≠ [] := by
      rintro rfl
      rw [List.forall₂_nil_right_iff.1 hon] at hne
      exact hne rfl
    obtain ⟨stages', m', happly, hlater₂, hon', hnext'⟩ := ih ha.2 hnext hon hne
    refine ⟨stages', m', ?_, hlater₁.trans hlater₂, hon', hnext'⟩
    have hrows : ∀ s ∈ stages₁, s.1.row.length = arguments.length + k + 1 :=
      length_row_of_on hon fun t hm => (hnext t hm).1
    have hstep := apply_of_surviving cfg hstages hsurviving hstages₁ hrows
    simp only [applyEach, bind, EStateM.bind, hstep, happly]

/-- The clauses of a closure as threads that begin in one state. -/
def threadsOf (m : Machine) (stages : List (Clause × Env)) : List Thread :=
  stages.map fun s => ⟨s.1, s.2, m⟩

theorem matching_eq (ev : Evaluator) (m : Machine) (arguments : List Expr)
    (stages : List (Clause × Env)) :
    matching ev m arguments stages =
      ((threadsOf m stages).filterMap (after ev arguments)).map fun t => (t.clause, t.scope) := by
  rw [threadsOf, List.filterMap_map, List.map_filterMap, matching]
  congr 1
  funext ⟨clause, env⟩
  simp only [Function.comp, after]
  split <;> simp_all

theorem matching_eq_nil_iff (ev : Evaluator) (m : Machine) (arguments : List Expr)
    (stages : List (Clause × Env)) :
    matching ev m arguments stages = [] ↔
      (threadsOf m stages).filterMap (after ev arguments) = [] := by
  rw [matching_eq, List.map_eq_nil_iff]

/-- A closure with one scope for each clause and rows of one length, and as many arguments. All of
them were there before the machine gives out its next mark, and every row comes to a match or to
none. -/
structure Dispatches (ev : Evaluator) (m : Machine) (clauses : List Clause) (captured : List Env)
    (arguments : List Expr) : Prop where
  length_captured : captured.length = clauses.length
  arguments_ne_nil : arguments ≠ []
  length_row : ∀ clause ∈ clauses, clause.row.length = arguments.length
  isFormal : ∀ clause ∈ clauses, ∀ formal ∈ clause.row, formal.isFormal
  below_closure : (Expr.pattern clauses captured).Below m.nextMark
  below_arguments : ∀ a ∈ arguments, a.Below m.nextMark
  ends : ∀ s ∈ clauses.zip captured, (rowMatch ev s.1.row arguments s.2).ends m

theorem on_matched {next : List Thread} {stages : List (Clause × Env)}
    (h : List.Forall₂ (fun t => t.On n m) next stages) :
    stages.map Prod.fst = next.map Thread.clause ∧
      List.Forall₂ (Env.Alike n) (next.map Thread.scope) (stages.map Prod.snd) := by
  induction h with
  | nil => exact ⟨rfl, .nil⟩
  | cons hon _ ih => exact ⟨by simp [hon.1, ih.1], .cons hon.2.alike ih.2⟩

variable {clauses : List Clause} {captured : List Env} {arguments : List Expr} {k : Nat}

theorem Dispatches.ofStages_zip {ev : Evaluator} (h : Dispatches ev m clauses captured arguments) :
    Expr.ofStages (clauses.zip captured) = .pattern clauses captured := by
  rw [Expr.ofStages, List.map_fst_zip h.length_captured.ge, List.map_snd_zip h.length_captured.le]

/-- After the first arguments the clauses are left that match these. -/
theorem Dispatches.applyEach_take (hhost : cfg.host.IsBlind)
    (h : Dispatches (eval cfg fuel) m clauses captured arguments) (hk : k < arguments.length)
    {next : List Thread}
    (hnext : next = (threadsOf m (clauses.zip captured)).filterMap
      (after (eval cfg fuel) (arguments.take k))) (hne : next ≠ []) :
    ∃ stages' m', applyEach cfg (eval cfg fuel) (.pattern clauses captured)
        (arguments.take k) m = .ok (.ofStages stages') m' ∧ m.Later cfg.maxDepth m' ∧
      List.Forall₂ (fun t => t.On m.nextMark m') next stages' ∧
      ∀ t' ∈ next, t'.Takes m.nextMark (arguments.length - k) ∧
        t'.Ends (eval cfg fuel) (arguments.drop k) := by
  have hlength : (arguments.take k).length + (arguments.length - k - 1 + 1) = arguments.length := by
    rw [List.length_take]
    omega
  obtain ⟨hclauses, hscopes⟩ := Renaming.below_pattern_iff.1 h.below_closure
  rw [← h.ofStages_zip, show arguments.length - k = arguments.length - k - 1 + 1 by omega]
  subst hnext
  apply applyEach_eq hhost _ _ _ hne
  · exact fun a ha => h.below_arguments a (List.mem_of_mem_take ha)
  · intro t ht
    obtain ⟨s, hs, rfl⟩ := List.mem_map.1 ht
    have hc := (List.of_mem_zip hs).1
    rw [List.take_append_drop]
    exact ⟨⟨(h.length_row s.1 hc).trans hlength.symm, h.isFormal s.1 hc, hclauses s.1 hc⟩,
      h.ends s hs⟩
  · rw [threadsOf, List.forall₂_map_left_iff, List.forall₂_same]
    exact fun s hs => ⟨rfl, .refl le_rfl (hscopes s.2 (List.of_mem_zip hs).2)⟩

/-- One argument more: what the machine is left with, and the clauses that match. -/
theorem Dispatches.surviving_succ (hhost : cfg.host.IsBlind)
    (h : Dispatches (eval cfg fuel) m clauses captured arguments) (hk : k < arguments.length)
    (hne : matching (eval cfg fuel) m (arguments.take k) (clauses.zip captured) ≠ []) :
    ∃ stages m₁ left m₂, stages ≠ [] ∧
      applyEach cfg (eval cfg fuel) (.pattern clauses captured) (arguments.take (k + 1)) m =
        apply cfg (eval cfg fuel) (.ofStages stages) arguments[k] false m₁ ∧
      surviving (eval cfg fuel) arguments[k] stages m₁ = .ok left m₂ ∧ m.Later cfg.maxDepth m₂ ∧
      (∀ s ∈ left, s.1.row.length = arguments.length - (k + 1)) ∧
      List.Forall₂ (fun t => t.On m.nextMark m₂) ((threadsOf m (clauses.zip captured)).filterMap
        (after (eval cfg fuel) (arguments.take (k + 1)))) left := by
  rw [Ne, matching_eq_nil_iff] at hne
  obtain ⟨stages, m₁, happly, hlater₁, hon, ht⟩ := h.applyEach_take hhost hk rfl hne
  have htake : arguments.take (k + 1) = arguments.take k ++ [arguments[k]] :=
    List.take_succ_eq_append_getElem hk
  have hstages : stages ≠ [] := by
    rintro rfl
    exact hne (List.forall₂_nil_right_iff.1 hon)
  have ht' : ∀ t ∈ (threadsOf m (clauses.zip captured)).filterMap
      (after (eval cfg fuel) (arguments.take k)),
      t.Takes m.nextMark (arguments.length - (k + 1) + 1) ∧
        t.Ends (eval cfg fuel) (arguments[k] :: arguments.drop (k + 1)) := by
    intro t hm
    rw [← List.drop_eq_getElem_cons hk,
      show arguments.length - (k + 1) + 1 = arguments.length - k by omega]
    exact ht t hm
  have ha := h.below_arguments arguments[k] (List.getElem_mem hk)
  obtain ⟨left, m₂, hsurviving, hlater₂, hon', hnext⟩ := surviving_eq hhost ha ht' hon
  rw [htake, filterMap_after_append]
  refine ⟨stages, m₁, left, m₂, hstages, ?_, hsurviving, hlater₁.trans hlater₂,
    length_row_of_on hon' fun t hm => (hnext t hm).1, hon'⟩
  rw [applyEach_append]
  simp only [bind, EStateM.bind, happly, applyEach]
  cases apply cfg (eval cfg fuel) (.ofStages stages) arguments[k] false m₁ <;> rfl

theorem applyEach_first_match (hhost : cfg.host.IsBlind)
    (h : Dispatches (eval cfg fuel) m clauses captured arguments) :
    (∀ k < arguments.length,
      matching (eval cfg fuel) m (arguments.take k) (clauses.zip captured) ≠ [] →
      ∃ scopes m', applyEach cfg (eval cfg fuel) (.pattern clauses captured) (arguments.take k) m =
          .ok (.pattern ((matching (eval cfg fuel) m (arguments.take k)
            (clauses.zip captured)).map Prod.fst) scopes) m' ∧
        List.Forall₂ (Env.Alike m.nextMark) ((matching (eval cfg fuel) m (arguments.take k)
          (clauses.zip captured)).map Prod.snd) scopes) ∧
    (∀ clause scope others,
      matching (eval cfg fuel) m arguments (clauses.zip captured) = (clause, scope) :: others →
      ∃ scope' m', Env.Alike m.nextMark scope scope' ∧ m'.depth = m.depth ∧
        applyEach cfg (eval cfg fuel) (.pattern clauses captured) arguments m =
          Eval.during .clauseBody (saturate cfg (eval cfg fuel) clause.body scope') m') ∧
    (∀ k (hk : k < arguments.length),
      matching (eval cfg fuel) m (arguments.take k) (clauses.zip captured) ≠ [] →
      matching (eval cfg fuel) m (arguments.take (k + 1)) (clauses.zip captured) = [] →
      ∃ m', applyEach cfg (eval cfg fuel) (.pattern clauses captured) (arguments.take (k + 1)) m =
        .error (.error { fault := .noMatch arguments[k] }) m') := by
  refine ⟨fun k hk hne => ?_, fun clause scope others hmatch => ?_, fun k hk hne hnone => ?_⟩
  · rw [Ne, matching_eq_nil_iff] at hne
    obtain ⟨stages', m', happly, -, hon, -⟩ := h.applyEach_take hhost hk rfl hne
    obtain ⟨hclauses, hscopes⟩ := on_matched hon
    rw [matching_eq, List.map_map, List.map_map]
    exact ⟨stages'.map Prod.snd, m', by rw [happly, Expr.ofStages, hclauses]; rfl, hscopes⟩
  · obtain ⟨k, hk⟩ : ∃ k, arguments.length = k + 1 :=
      Nat.exists_eq_succ_of_ne_zero (mt List.length_eq_zero_iff.1 h.arguments_ne_nil)
    have hall : arguments.take (k + 1) = arguments := by rw [← hk, List.take_length]
    have hne : matching (eval cfg fuel) m (arguments.take k) (clauses.zip captured) ≠ [] := by
      intro hnone
      rw [matching_eq_nil_iff] at hnone
      rw [matching_eq, ← hall, List.take_succ_eq_append_getElem (by omega),
        filterMap_after_append, hnone] at hmatch
      cases hmatch
    obtain ⟨stages, m₁, left, m₂, hstages, happly, hsurviving, hlater, hrows, hon⟩ :=
      h.surviving_succ hhost (by omega) hne
    rw [hall] at happly hon
    rw [matching_eq] at hmatch
    generalize (threadsOf m (clauses.zip captured)).filterMap _ = next at hon hmatch
    cases hon with
    | nil => cases hmatch
    | @cons t stage next left hon hrest =>
      cases hmatch
      refine ⟨stage.2, m₂, hon.2.alike, hlater.depth_eq, ?_⟩
      rw [happly, apply_of_surviving_last cfg hstages hsurviving (by simpa [hk] using hrows), hon.1]
  · obtain ⟨stages, m₁, left, m₂, hstages, happly, hsurviving, -, -, hon⟩ :=
      h.surviving_succ hhost hk hne
    rw [matching_eq_nil_iff] at hnone
    rw [hnone, List.forall₂_nil_left_iff] at hon
    subst hon
    exact ⟨m₂, happly.trans (apply_of_surviving_nil cfg hstages hsurviving)⟩

/-- The guard of the first of these clauses does not hold of the arguments below. -/
def guardedClauses : List Clause :=
  [.mk [.cons (.identifier "x") (.identifier "xs"),
      .guarded (.identifier "y") (.application [.identifier ">", .identifier "y", .identifier "x"])
        false] (.identifier "xs"),
    .mk [.identifier "x", .number 2] (.identifier "x"),
    .mk [.identifier "_", .identifier "_"] (.label "none")]

def guardedScopes : List Env :=
  List.replicate 3 (.withBuiltins 0)

def guardedArguments : List Expr :=
  [.list [.number 3, .number 1], .number 2]

theorem applyEach_first_match_guarded :
    (Config.host {}).IsBlind ∧
    Dispatches (eval {} 8) { nextMark := 1 } guardedClauses guardedScopes guardedArguments ∧
    ∃ body scope m', body.render = "x" ∧ m'.depth = 0 ∧
      applyEach {} (eval {} 8) (.pattern guardedClauses guardedScopes) guardedArguments
          { nextMark := 1 } =
        Eval.during .clauseBody (saturate {} (eval {} 8) body scope) m' := by
  have h : Dispatches (eval {} 8) { nextMark := 1 } guardedClauses guardedScopes
      guardedArguments :=
    ⟨rfl, by simp [guardedArguments], by decide, by decide, by unfold Expr.Below; decide +kernel,
      by unfold Expr.Below; decide +kernel, by decide +kernel⟩
  have hbodies : (matching (eval {} 8) { nextMark := 1 } guardedArguments
      (guardedClauses.zip guardedScopes)).map (·.1.body.render) = ["x", ".none"] := by
    decide +kernel
  refine ⟨isBlind_default, h, ?_⟩
  match hmatch : matching (eval {} 8) { nextMark := 1 } guardedArguments
      (guardedClauses.zip guardedScopes) with
  | [] =>
    rw [hmatch] at hbodies
    cases hbodies
  | (clause, scope) :: others =>
    rw [hmatch, List.map_cons, List.cons.injEq] at hbodies
    obtain ⟨scope', m', -, hdepth, happly⟩ :=
      (applyEach_first_match isBlind_default h).2.1 clause scope others hmatch
    exact ⟨clause.body, scope', m', hbodies.1, hdepth, happly⟩

end

end ClauseLang
