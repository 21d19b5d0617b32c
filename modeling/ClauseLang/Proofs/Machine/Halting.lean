import ClauseLang.Proofs.Machine.Follows
import ClauseLang.Proofs.Machine.Throughout

/-!
Programs without guards come to an end, whatever they do. Evaluation stays within the expression
until a clause has got all its arguments; the body of the clause may be any code, but it is evaluated
one level deeper, and the depth is bounded.

So the induction is on the levels that are left, and for each of them on the expression. A guard would
break it: a condition is evaluated on the same level as the call that it belongs to.
-/

namespace ClauseLang

namespace Expr

mutual

/-- There are no guards in the expression, no closures, and no builtins but those that every program
can name. -/
def isGuardFree : Expr → Bool
  | .application items | .list items => itemsGuardFree items
  | .identifier _ | .label _ | .text _ | .number _ => true
  | .cons head tail => head.isGuardFree && tail.isGuardFree
  | .letIn _ values body => itemsGuardFree values && body.isGuardFree
  | .guarded _ _ _ => false
  | .pattern clauses captured => captured.isEmpty && clausesGuardFree clauses
  | .builtin op =>
    match op with
    | .unary _ | .binary _ => true
    | .waiting _ _ | .host _ => false

def itemsGuardFree : List Expr → Bool
  | [] => true
  | item :: items => item.isGuardFree && itemsGuardFree items

def clausesGuardFree : List Clause → Bool
  | [] => true
  | .mk row body :: clauses =>
    itemsGuardFree row && body.isGuardFree && clausesGuardFree clauses

end

end Expr

theorem Expr.itemsGuardFree_iff {items : List Expr} :
    itemsGuardFree items ↔ ∀ item ∈ items, item.isGuardFree := by
  induction items with
  | nil => simp [itemsGuardFree]
  | cons item items ih => simp [itemsGuardFree, ih]

def GuardFree (clause : Clause) (_ : Env) : Prop :=
  Expr.itemsGuardFree clause.row ∧ clause.body.isGuardFree

theorem guardFree_of_mem {clauses : List Clause} (h : Expr.clausesGuardFree clauses) (env : Env) :
    ∀ clause ∈ clauses, GuardFree clause env := by
  induction clauses with
  | nil => simp
  | cons clause clauses ih =>
    obtain ⟨row, body⟩ := clause
    simp only [Expr.clausesGuardFree, Bool.and_eq_true] at h
    simp only [List.mem_cons, forall_eq_or_imp]
    exact ⟨h.1, ih h.2⟩

namespace Eval

variable {α β : Type} {depth : Nat}

/-- A result that is not for want of fuel, at the given depth. -/
inductive Ended (depth : Nat) (P : α → Prop) : EStateM.Result Halt Machine α → Prop
  | ok {a : α} {m : Machine} : P a → m.depth = depth → Ended depth P (.ok a m)
  | error {e : RuntimeError} {m : Machine} : m.depth = depth → Ended depth P (.error (.error e) m)

/-- With enough fuel the computation comes to an end, at the depth where it begins. -/
def Halts (depth : Nat) (y : Nat → Eval α) (P : α → Prop) : Prop :=
  ∀ m : Machine, m.depth = depth → ∃ r, Settles (fun k => y k m) r ∧ Ended depth P r

namespace Halts

variable {y : Nat → Eval α} {P : α → Prop} {Q : β → Prop}

theorem pure {a : α} (h : P a) : Halts depth (fun _ => pure a) P :=
  fun _ hm => ⟨_, .const _, .ok h hm⟩

theorem fail {fault : Fault} : Halts depth (fun _ => (fail fault : Eval α)) P :=
  fun _ hm => ⟨_, .const _, .error hm⟩

theorem bind {f : Nat → α → Eval β} (hy : Halts depth y P)
    (hf : ∀ a, P a → Halts depth (fun k => f k a) Q) : Halts depth (fun k => y k >>= f k) Q := by
  intro m hm
  obtain ⟨r, hsettles, hended⟩ := hy m hm
  cases hended with
  | @ok a m₁ ha hm₁ =>
    obtain ⟨r, hsettles', hended⟩ := hf a ha m₁ hm₁
    refine ⟨r, hsettles.step (fun k hk => ?_) hsettles', hended⟩
    change EStateM.bind (y k) (f k) m = f k a m₁
    simp only [EStateM.bind, hk]
  | @error e m₁ hm₁ =>
    refine ⟨.error (.error e) m₁, hsettles.congr fun k hk => ?_, .error hm₁⟩
    change EStateM.bind (y k) (f k) m = .error (.error e) m₁
    simp only [EStateM.bind, hk]

theorem during {step : Step} (hy : Halts depth y P) :
    Halts depth (fun k => during step (y k)) P := by
  intro m hm
  obtain ⟨r, hsettles, hended⟩ := hy m hm
  cases hended with
  | ok ha hm₁ => exact ⟨_, hsettles.congr fun k hk => by simp only [Eval.during, hk], .ok ha hm₁⟩
  | @error e m₁ hm₁ =>
    exact ⟨.error (.error { e with trail := step :: e.trail }) m₁,
      hsettles.congr fun k hk => by simp only [Eval.during, hk], .error hm₁⟩

theorem contain {safe : Bool} {y : Nat → Eval Expr} {P : Expr → Prop} (hy : Halts depth y P)
    (hfalsy : P .falsy) : Halts depth (fun k => contain safe (y k)) P := by
  intro m hm
  obtain ⟨r, hsettles, hended⟩ := hy m hm
  cases hended with
  | ok ha hm₁ => exact ⟨_, hsettles.congr fun k hk => by simp only [Eval.contain, hk], .ok ha hm₁⟩
  | @error e m₁ hm₁ =>
    cases safe with
    | true =>
      exact ⟨.ok .falsy m₁, hsettles.congr fun k hk => by simp [Eval.contain, hk], .ok hfalsy hm₁⟩
    | false =>
      exact ⟨.error (.error e) m₁, hsettles.congr fun k hk => by simp [Eval.contain, hk],
        .error hm₁⟩

theorem of_succ (hy : Halts depth (fun k => y (k + 1)) P) : Halts depth y P := by
  intro m hm
  obtain ⟨r, hsettles, hended⟩ := hy m hm
  exact ⟨r, hsettles.of_succ, hended⟩

theorem extend {env : Env} {values : List (String × Expr)} {P : Env → Prop}
    (h : ∀ mark, P (env.extend mark values)) : Halts depth (fun _ => extend env values) P :=
  fun m hm => ⟨_, .const _, .ok (h m.nextMark) hm⟩

theorem extendRecursive {env : Env} {name : String} {clauses : List Clause} {P : Env → Prop}
    (h : ∀ mark, P (env.extendRecursive mark name clauses)) :
    Halts depth (fun _ => extendRecursive env name clauses) P :=
  fun m hm => ⟨_, .const _, .ok (h m.nextMark) hm⟩

theorem ofExcept {r : Except Fault Expr} {V : Expr → Prop} (h : Computed V r) :
    Halts depth (fun _ => ofExcept r) V := by
  cases h with
  | ok h => exact .pure h
  | error => exact .fail

/-- The body of a clause is left alone at the limit, and ends below it. -/
theorem saturate {cfg : Config} {ev : Nat → Evaluator} {body : Expr} {env : Env} {P : Expr → Prop}
    (h : depth < cfg.maxDepth → Halts (depth + 1) (fun k => ev k body env false) P) :
    Halts depth (fun k => saturate cfg (ev k) body env) P := by
  intro m hm
  unfold ClauseLang.saturate
  subst hm
  by_cases hlimit : cfg.maxDepth ≤ m.depth
  · simp only [if_pos hlimit]
    exact ⟨_, .const _, .error rfl⟩
  · simp only [if_neg hlimit]
    obtain ⟨r, hsettles, hended⟩ := h (by omega)
      { m with depth := m.depth + 1, peak := max m.peak (m.depth + 1) } rfl
    cases hended with
    | @ok a m₁ ha _ =>
      exact ⟨.ok a { m₁ with depth := m.depth }, hsettles.congr fun k hk => by simp only [hk],
        .ok ha rfl⟩
    | @error e m₁ _ =>
      exact ⟨.error (.error e) { m₁ with depth := m.depth },
        hsettles.congr fun k hk => by simp only [hk], .error rfl⟩

end Halts

end Eval

section

open Eval

abbrev Guardless : Expr → Prop :=
  Throughout GuardFree

variable {cfg : Config} {depth : Nat} {ev : Nat → Evaluator} {env : Env}

theorem call_halts (cfg : Config) {op : Builtin} (hop : Guardless (.builtin op)) {argument : Expr}
    (ha : Guardless argument) (safe : Bool) :
    Halts depth (fun _ => op.call cfg argument safe) Guardless := by
  have hdata := ofData_throughout GuardFree
  cases hop with
  | unary op =>
    cases op with
    | abs => exact .ofExcept (computed_absolute hdata argument)
    | len => exact .ofExcept (computed_size hdata argument)
    | print => exact fun m hm => ⟨_, .const _, .ok ha hm⟩
  | binary op => exact .pure (.waiting op ha)
  | waiting op hl => exact .ofExcept (op.computed_compute hdata hl ha)

theorem matchInto_halts {formal argument : Expr} {bound : List (String × Expr)}
    (hf : formal.isGuardFree) (ha : Guardless argument) (hb : ThroughoutValues GuardFree bound) :
    Halts depth (fun k => matchInto (ev k) env formal argument bound) fun r =>
      ∀ bound', r = some bound' → ThroughoutValues GuardFree bound' := by
  have hnone : ∀ bound', none = some bound' → ThroughoutValues GuardFree bound' :=
    fun _ h => nomatch h
  have hite (b : Bool) : ∀ bound', (if b then some bound else none) = some bound' →
      ThroughoutValues GuardFree bound' := by
    rintro bound' h
    split at h
    · cases h
      exact hb
    · cases h
  match formal with
  | .identifier name =>
    refine .pure ?_
    rintro _ ⟨rfl⟩
    split
    · exact hb
    · intro p hp
      rcases List.mem_append.1 hp with hp | hp
      · exact hb p hp
      · rw [List.mem_singleton.1 hp]
        exact ha
  | .number _ | .text _ | .label _ | .list _ => exact .pure (hite _)
  | .cons head tail =>
    simp only [Expr.isGuardFree, Bool.and_eq_true] at hf
    simp only [matchInto]
    cases hs : split? head argument with
    | none => exact .pure hnone
    | some parts =>
      obtain ⟨front, rest⟩ := parts
      obtain ⟨hfront, hrest⟩ := (ofData_throughout GuardFree).of_split? ha hs
      refine (matchInto_halts hf.1 hfront hb).bind fun r hr => ?_
      cases r with
      | none => exact .pure hnone
      | some bound => exact matchInto_halts hf.2 hrest (hr bound rfl)
  | .application _ | .letIn _ _ _ | .pattern _ _ | .builtin _ => exact .fail
termination_by sizeOf formal

theorem tryMatch_halts {formal argument : Expr} (hf : formal.isGuardFree)
    (ha : Guardless argument) (henv : ThroughoutScope GuardFree env) :
    Halts depth (fun k => tryMatch (ev k) formal argument env) fun r =>
      ∀ scope, r = some scope → ThroughoutScope GuardFree scope := by
  have hnone : ThroughoutValues GuardFree [] := fun _ h => nomatch h
  refine (matchInto_halts hf ha hnone).bind fun r hr => ?_
  cases r with
  | none => exact .pure (fun _ h => nomatch h)
  | some bound =>
    refine (Halts.extend fun mark => henv.extend (hr bound rfl) mark).bind fun scope hscope => ?_
    refine .pure ?_
    rintro _ ⟨rfl⟩
    exact hscope

theorem advance_halts {argument : Expr} (ha : Guardless argument) {stage : Clause × Env}
    (hstage : GuardFree stage.1 stage.2 ∧ ThroughoutScope GuardFree stage.2) :
    Halts depth (fun k => advance (ev k) argument stage) fun r =>
      ∀ s, r = some s → GuardFree s.1 s.2 ∧ ThroughoutScope GuardFree s.2 := by
  obtain ⟨⟨row, body⟩, env⟩ := stage
  obtain ⟨⟨hrow, hbody⟩, henv⟩ := hstage
  cases row with
  | nil => exact .fail
  | cons formal row =>
    simp only [Clause.row, Expr.itemsGuardFree, Bool.and_eq_true] at hrow
    refine (tryMatch_halts hrow.1 ha henv).bind fun r hr => ?_
    cases r with
    | none => exact .pure (fun _ h => nomatch h)
    | some scope =>
      refine .pure ?_
      rintro _ ⟨rfl⟩
      exact ⟨⟨hrow.2, hbody⟩, hr scope rfl⟩

theorem surviving_halts {argument : Expr} (ha : Guardless argument) {stages : List (Clause × Env)}
    (hstages : ThroughoutStages GuardFree stages) :
    Halts depth (fun k => surviving (ev k) argument stages) (ThroughoutStages GuardFree) := by
  induction stages with
  | nil => exact .pure (fun _ h => nomatch h)
  | cons stage stages ih =>
    simp only [ThroughoutStages, List.mem_cons, forall_eq_or_imp] at hstages
    refine (advance_halts ha hstages.1).bind fun r hr => ?_
    cases r with
    | none => exact ih hstages.2
    | some next =>
      refine (ih hstages.2).bind fun left hleft => .pure ?_
      intro s hs
      rcases List.mem_cons.1 hs with rfl | hs
      · exact hr s rfl
      · exact hleft s hs

/-- Bodies of clauses come to an end when they are evaluated from the given depth. -/
def BodiesHalt (cfg : Config) (depth : Nat) (ev : Nat → Evaluator) : Prop :=
  ∀ {body env}, body.isGuardFree → ThroughoutScope GuardFree env →
    Halts depth (fun k => saturate cfg (ev k) body env) Guardless

theorem applyPattern_halts (hbodies : BodiesHalt cfg depth ev) {clauses : List Clause}
    {captured : List Env} (hv : Guardless (.pattern clauses captured)) {argument : Expr}
    (ha : Guardless argument) :
    Halts depth (fun k => applyPattern cfg (ev k) clauses captured argument) Guardless := by
  unfold applyPattern
  split
  · exact .fail
  · simp only [survivors_eq]
    refine (surviving_halts ha hv.stages).bind fun stages hstages => ?_
    cases stages with
    | nil => exact .fail
    | cons first others =>
      obtain ⟨hfirst, hscope⟩ := hstages first List.mem_cons_self
      dsimp only
      split
      · exact .fail
      · exact (hbodies hfirst.2 hscope).during
      · exact .pure (throughout_ofStages hstages)

theorem apply_halts (hbodies : BodiesHalt cfg depth ev) {callee argument : Expr}
    (hv : Guardless callee) (ha : Guardless argument) (safe : Bool) :
    Halts depth (fun k => apply cfg (ev k) callee argument safe) Guardless := by
  refine Halts.contain ?_ throughout_falsy
  cases id hv with
  | closure => exact applyPattern_halts hbodies hv ha
  | unary | binary | waiting => exact (call_halts cfg hv ha safe).during
  | label | text | number | list => exact .fail

def HaltsFrom (cfg : Config) (depth : Nat) (e : Expr) : Prop :=
  ∀ {env} safe, ThroughoutScope GuardFree env →
    Halts depth (fun k => eval cfg k e env safe) Guardless

theorem evalElements_halts (henv : ThroughoutScope GuardFree env) (safe : Bool) (index : Nat)
    {items : List Expr} (h : ∀ item ∈ items, HaltsFrom cfg depth item) :
    Halts depth (fun k => evalElements (eval cfg k) env safe index items) fun values =>
      ∀ v ∈ values, Guardless v := by
  induction items generalizing index with
  | nil => exact .pure (fun _ h => nomatch h)
  | cons item items ih =>
    simp only [List.mem_cons, forall_eq_or_imp] at h
    refine (h.1 safe henv).during.bind fun v hv => ?_
    exact (ih (index + 1) h.2).bind fun vs hvs => .pure (by simpa using ⟨hv, hvs⟩)

theorem applyAll_halts (hbodies : BodiesHalt cfg depth (eval cfg))
    (henv : ThroughoutScope GuardFree env) (safe : Bool) (position : Nat) {callee : Expr}
    (hv : Guardless callee) {items : List Expr} (h : ∀ item ∈ items, HaltsFrom cfg depth item) :
    Halts depth (fun k => applyAll cfg (eval cfg k) env safe position callee items) Guardless := by
  induction items generalizing position callee with
  | nil => exact .pure hv
  | cons item items ih =>
    simp only [List.mem_cons, forall_eq_or_imp] at h
    refine (h.1 safe henv).during.bind fun argument ha => ?_
    exact (apply_halts hbodies hv ha safe).during.bind fun value hvalue =>
      ih (position + 1) hvalue h.2

theorem evalBindings_halts (safe : Bool) {names : List String} {values : List Expr}
    (hfree : Expr.itemsGuardFree values) (h : ∀ value ∈ values, HaltsFrom cfg depth value)
    (henv : ThroughoutScope GuardFree env) :
    Halts depth (fun k => evalBindings (eval cfg k) safe names values env)
      (ThroughoutScope GuardFree) := by
  induction names generalizing values env with
  | nil => exact .pure henv
  | cons name names ih =>
    cases values with
    | nil => exact .pure henv
    | cons value values =>
      simp only [List.mem_cons, forall_eq_or_imp] at h
      simp only [Expr.itemsGuardFree, Bool.and_eq_true] at hfree
      by_cases hpattern : ∃ clauses, value = .pattern clauses []
      · obtain ⟨clauses, rfl⟩ := hpattern
        have hclauses : Expr.clausesGuardFree clauses := by simpa [Expr.isGuardFree] using hfree.1
        refine (Halts.extendRecursive fun mark => ?_).bind fun scope hscope =>
          ih hfree.2 h.2 hscope
        exact henv.extendRecursive mark name fun _ => guardFree_of_mem hclauses _
      · simp only [evalBindings_of_ne _ safe name names values env (not_exists.1 hpattern)]
        refine (h.1 safe henv).during.bind fun held hheld => ?_
        have hone : ThroughoutValues GuardFree [(name, held)] := by
          simpa [ThroughoutValues] using hheld
        exact (Halts.extend fun mark => henv.extend hone mark).bind fun scope hscope =>
          ih hfree.2 h.2 hscope

/-- The depth stays the same, and the expression gets smaller. -/
theorem haltsFrom_of_bodiesHalt (hbodies : BodiesHalt cfg depth (eval cfg)) {e : Expr}
    (he : e.isGuardFree) : HaltsFrom cfg depth e := by
  intro env safe henv
  refine .of_succ ?_
  simp only [eval_succ]
  refine Halts.contain ?_ throughout_falsy
  match e with
  | .identifier name =>
    simp only [evalLevel]
    cases hget : env.get? name with
    | none => exact .fail
    | some v => exact .pure (henv.of_get? hget)
  | .label name => exact .pure (.label name)
  | .text value => exact .pure (.text value)
  | .number value => exact .pure (.number value)
  | .builtin (.unary op) => exact .pure (.unary op)
  | .builtin (.binary op) => exact .pure (.binary op)
  | .application [] => exact .fail
  | .application (item :: items) =>
    have hitems := Expr.itemsGuardFree_iff.1 he
    have hhalt : ∀ i ∈ item :: items, HaltsFrom cfg depth i :=
      fun i hi =>
        have hsize : sizeOf i < sizeOf (item :: items) := List.sizeOf_lt_of_mem hi
        haltsFrom_of_bodiesHalt hbodies (hitems i hi)
    simp only [List.mem_cons, forall_eq_or_imp] at hhalt
    exact (hhalt.1 safe henv).during.bind fun callee hcallee =>
      applyAll_halts hbodies henv safe 1 hcallee hhalt.2
  | .list items =>
    have hitems := Expr.itemsGuardFree_iff.1 he
    have hhalt : ∀ item ∈ items, HaltsFrom cfg depth item :=
      fun item hi => haltsFrom_of_bodiesHalt hbodies (hitems item hi)
    exact (evalElements_halts henv safe 0 hhalt).bind fun vs hvs => .pure (.list hvs)
  | .letIn names values body =>
    simp only [Expr.isGuardFree, Bool.and_eq_true] at he
    have hvalues := Expr.itemsGuardFree_iff.1 he.1
    have hhalt : ∀ value ∈ values, HaltsFrom cfg depth value :=
      fun value hv => haltsFrom_of_bodiesHalt hbodies (hvalues value hv)
    exact (evalBindings_halts safe he.1 hhalt henv).bind fun scope hscope =>
      (haltsFrom_of_bodiesHalt hbodies he.2 safe hscope).during
  | .pattern clauses captured =>
    simp only [Expr.isGuardFree, Bool.and_eq_true, List.isEmpty_iff] at he
    obtain ⟨rfl, hclauses⟩ := he
    exact .pure (throughout_closeOver (guardFree_of_mem hclauses env) henv)
  | .cons _ _ => exact .fail
termination_by sizeOf e

/-- Evaluation comes to an end however many levels are left. -/
theorem haltsFrom (left : Nat) (hleft : cfg.maxDepth ≤ depth + left) {e : Expr}
    (he : e.isGuardFree) : HaltsFrom cfg depth e := by
  induction left generalizing depth e with
  | zero => exact haltsFrom_of_bodiesHalt (fun _ _ => .saturate fun h => absurd h (by omega)) he
  | succ left ih =>
    refine haltsFrom_of_bodiesHalt (fun hbody henv => .saturate fun _ => ?_) he
    exact ih (by omega) hbody false henv

end

/-- A program without guards comes to a value or to an error, under any limit. -/
theorem run_settles_of_isGuardFree (cfg : Config) {e : Expr} (he : e.isGuardFree) (m : Machine) :
    ∃ r, Settles (fun fuel => run cfg fuel e m) r ∧ ∀ m', r ≠ .error .outOfFuel m' := by
  have hroot : Eval.Halts m.depth (fun _ => Eval.freshRoot) (ThroughoutScope GuardFree) :=
    fun m' hm => ⟨_, .const _, .ok (.withBuiltins m'.nextMark) hm⟩
  have hrun : Eval.Halts m.depth (fun fuel => run cfg fuel e) Guardless :=
    hroot.bind fun root hroot => haltsFrom cfg.maxDepth (Nat.le_add_left _ _) he false hroot
  obtain ⟨r, hsettles, hended⟩ := hrun m rfl
  refine ⟨r, hsettles, ?_⟩
  rintro m' rfl
  cases hended

def endlessCalls : Expr :=
  .letIn ["loop"]
    [.pattern [.mk [.identifier "x"] (.application [.identifier "loop", .identifier "x"])] []]
    (.application [.identifier "loop", .number 0])

theorem run_settles_of_isGuardFree_endlessCalls :
    endlessCalls.isGuardFree ∧ ∃ r, Settles (fun fuel => run {} fuel endlessCalls {}) r ∧
      ∀ m', r ≠ .error .outOfFuel m' :=
  ⟨by decide, run_settles_of_isGuardFree {} (by decide) {}⟩

end ClauseLang
