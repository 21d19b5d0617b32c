import ClauseLang.Proofs.Machine.Limit

/-!
Safe mode and plain mode. The mode goes along with an expression to its parts, is left at the body of
a clause and entered at a guard; what it decides is what becomes of a fault. So where plain mode has
no fault to report, safe mode has none to contain, and the two do the same step by step.
-/

namespace ClauseLang

open Eval

/-- A host function does the same in both modes. -/
def Host.IsSteady (host : Host) : Prop :=
  ∀ name argument, host name argument true = host name argument false

namespace Eval

variable {α β : Type} {x y : Eval α}

/-- If the first computation succeeds, the second one does the same. -/
def Supports (x y : Eval α) : Prop :=
  ∀ m a m', x m = .ok a m' → y m = .ok a m'

namespace Supports

theorem refl (x : Eval α) : Supports x x :=
  fun _ _ _ h => h

theorem trans {z : Eval α} (h : Supports x y) (h' : Supports y z) : Supports x z :=
  fun m a m' ha => h' m a m' (h m a m' ha)

/-- A computation that succeeds has come to an end. -/
theorem of_extends (h : Extends x y) : Supports x y := by
  intro m a m' ha
  rw [← ha]
  refine h m ?_
  rw [ends, ha]

theorem bind {f g : α → Eval β} (h : Supports x y) (hf : ∀ a, Supports (f a) (g a)) :
    Supports (x >>= f) (y >>= g) := by
  intro m b m' hb
  change EStateM.bind x f m = .ok b m' at hb
  change EStateM.bind y g m = .ok b m'
  unfold EStateM.bind at *
  cases hx : x m with
  | ok a m₁ =>
    rw [hx] at hb
    rw [h m a m₁ hx]
    exact hf a m₁ b m' hb
  | error e m₁ =>
    rw [hx] at hb
    cases hb

theorem during {step : Step} (h : Supports x y) : Supports (during step x) (during step y) := by
  intro m a m' ha
  unfold Eval.during at *
  match hx : x m with
  | .ok b m₁ =>
    rw [hx] at ha
    rw [h m b m₁ hx]
    exact ha
  | .error (.error e) m₁ | .error .outOfFuel m₁ =>
    rw [hx] at ha
    cases ha

theorem contain {x y : Eval Expr} (h : Supports x y) :
    Supports (contain false x) (contain true y) := by
  intro m a m' ha
  unfold Eval.contain at *
  match hx : x m with
  | .ok b m₁ =>
    rw [hx] at ha
    rw [h m b m₁ hx]
    exact ha
  | .error (.error e) m₁ | .error .outOfFuel m₁ =>
    rw [hx] at ha
    cases ha

end Supports

end Eval

section

variable {cfg : Config} {ev : Evaluator}

theorem call_safe (hhost : cfg.host.IsSteady) (op : Builtin) (argument : Expr) :
    op.call cfg argument true = op.call cfg argument false := by
  cases op with
  | host name => rw [Builtin.call, Builtin.call, hhost name argument]
  | _ => rfl

/-- The mode of an application says only what becomes of its fault. -/
theorem apply_eq (hhost : cfg.host.IsSteady) (ev : Evaluator) (callee argument : Expr) :
    ∃ x, ∀ safe, apply cfg ev callee argument safe = contain safe x := by
  cases callee with
  | builtin op =>
    refine ⟨during (.builtin op) (op.call cfg argument false), fun safe => ?_⟩
    cases safe with
    | true => rw [apply, call_safe hhost]
    | false => rfl
  | pattern clauses captured => exact ⟨applyPattern cfg ev clauses captured argument, fun _ => rfl⟩
  | _ => exact ⟨Eval.fail (.notApplicable _ argument), fun _ => rfl⟩

theorem apply_supports (hhost : cfg.host.IsSteady) (callee argument : Expr) :
    Supports (apply cfg ev callee argument false) (apply cfg ev callee argument true) := by
  obtain ⟨x, hx⟩ := apply_eq hhost ev callee argument
  rw [hx, hx]
  exact (Supports.refl x).contain

variable (hhost : cfg.host.IsSteady) (hev : ∀ e env, Supports (ev e env false) (ev e env true))

include hev in
theorem evalElements_supports (env : Env) (index : Nat) (items : List Expr) :
    Supports (evalElements ev env false index items) (evalElements ev env true index items) := by
  induction items generalizing index with
  | nil => exact .refl _
  | cons item items ih =>
    exact (hev item env).during.bind fun _ => (ih (index + 1)).bind fun _ => .refl _

include hhost hev in
theorem applyAll_supports (env : Env) (position : Nat) (callee : Expr) (items : List Expr) :
    Supports (applyAll cfg ev env false position callee items)
      (applyAll cfg ev env true position callee items) := by
  induction items generalizing position callee with
  | nil => exact .refl _
  | cons item items ih =>
    refine (hev item env).during.bind fun argument => ?_
    exact (apply_supports hhost callee argument).during.bind fun value => ih (position + 1) value

include hev in
theorem evalBindings_supports (names : List String) (values : List Expr) (env : Env) :
    Supports (evalBindings ev false names values env) (evalBindings ev true names values env) := by
  induction names generalizing values env with
  | nil => exact .refl _
  | cons name names ih =>
    cases values with
    | nil => exact .refl _
    | cons value values =>
      by_cases hpattern : ∃ clauses, value = .pattern clauses []
      · obtain ⟨clauses, rfl⟩ := hpattern
        exact (Supports.refl _).bind fun scope => ih values scope
      · rw [evalBindings_of_ne ev _ name names values env (not_exists.1 hpattern),
          evalBindings_of_ne ev _ name names values env (not_exists.1 hpattern)]
        exact (hev value env).during.bind fun _ =>
          (Supports.refl _).bind fun scope => ih values scope

include hhost hev in
theorem evalLevel_supports (e : Expr) (env : Env) :
    Supports (evalLevel cfg ev e env false) (evalLevel cfg ev e env true) := by
  cases e with
  | list items => exact (evalElements_supports hev env 0 items).bind fun _ => .refl _
  | application items =>
    cases items with
    | nil => exact .refl _
    | cons item items =>
      exact (hev item env).during.bind fun callee =>
        applyAll_supports hhost hev env 1 callee items
  | letIn names values body =>
    exact (evalBindings_supports hev names values env).bind fun scope => (hev body scope).during
  | pattern clauses captured => cases captured <;> exact .refl _
  | _ => exact .refl _

end

/-- Safe mode changes nothing where plain mode succeeds. -/
theorem eval_supports {cfg : Config} (hhost : cfg.host.IsSteady) (fuel : Nat) (e : Expr)
    (env : Env) : Supports (eval cfg fuel e env false) (eval cfg fuel e env true) := by
  induction fuel generalizing e env with
  | zero => exact fun _ _ _ h => nomatch h
  | succ fuel ih =>
    rw [eval_succ, eval_succ]
    exact .contain (evalLevel_supports hhost ih e env)

/-- Where plain mode comes to a value, safe mode comes to the same value and leaves the machine in the
same state, with the same lines printed. -/
theorem safe_of_plain {cfg : Config} (hhost : cfg.host.IsSteady) {fuel fuel' : Nat}
    (hle : fuel ≤ fuel') {m m' : Machine} {v : Expr} :
    (∀ e env, eval cfg fuel e env false m = .ok v m' → eval cfg fuel' e env true m = .ok v m') ∧
      ∀ callee argument, apply cfg (eval cfg fuel) callee argument false m = .ok v m' →
        apply cfg (eval cfg fuel') callee argument true m = .ok v m' := by
  constructor
  · intro e env
    exact (Supports.of_extends (eval_extends cfg hle e env false)).trans
      (eval_supports hhost fuel' e env) m v m'
  · intro callee argument
    have hextends := (Extends.compositional cfg).apply (eval_extends cfg hle) callee argument false
    exact (Supports.of_extends hextends).trans (apply_supports hhost callee argument) m v m'

/-- `{ x ? (print .true) -> x }`, whose guard prints. -/
def tell : List Clause :=
  [.mk [.guarded (.identifier "x") (.application [.identifier "print", .label "true"]) false]
    (.identifier "x")]

theorem safe_of_plain_tell :
    ∃ m₁ m₂, m₁.printed = #[".true"] ∧ m₂.printed = #[".true"] ∧
      eval {} 8 (.application [.pattern tell [], .label "a"]) (.withBuiltins 0) false { depth := 3 } =
        .ok (.label "a") m₁ ∧
      eval {} 9 (.application [.pattern tell [], .label "a"]) (.withBuiltins 0) true { depth := 3 } =
        .ok (.label "a") m₁ ∧
      apply {} (eval {} 8) (.pattern tell [.withBuiltins 0]) (.label "a") false { depth := 3 } =
        .ok (.label "a") m₂ ∧
      apply {} (eval {} 9) (.pattern tell [.withBuiltins 0]) (.label "a") true { depth := 3 } =
        .ok (.label "a") m₂ := by
  have hhost : (Config.host {}).IsSteady := fun _ _ => rfl
  have hle : 8 ≤ 9 := by decide
  refine ⟨_, _, ?_, ?_, rfl, ?_, rfl, ?_⟩
  · rfl
  · rfl
  · exact (safe_of_plain hhost hle).1 _ _ rfl
  · exact (safe_of_plain hhost hle).2 _ _ rfl

end ClauseLang
