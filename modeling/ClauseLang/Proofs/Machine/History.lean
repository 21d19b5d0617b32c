import ClauseLang.Proofs.Machine.Later
import ClauseLang.Proofs.Machine.Rename

/-!
A machine has no memory. Whatever it was used for, and however that ended, it is at its old depth
again; and how a run goes depends on nothing else. What was printed and how deep the machine has been
make no difference, and which marks were given out already makes a difference to marks only.
-/

namespace ClauseLang

namespace Eval

variable {α β : Type} {x : Eval α}

inductive EndsAlike : EStateM.Result Halt Machine α → EStateM.Result Halt Machine α → Prop
  | ok {a : α} {m m' : Machine} : m.depth = m'.depth → m.nextMark = m'.nextMark →
    EndsAlike (.ok a m) (.ok a m')
  | error {halt : Halt} {m m' : Machine} : m.depth = m'.depth → m.nextMark = m'.nextMark →
    EndsAlike (.error halt m) (.error halt m')

/-- The computation goes by the depth and the next mark alone. -/
def Forgets (x : Eval α) : Prop :=
  ∀ m m' : Machine, m.depth = m'.depth → m.nextMark = m'.nextMark → EndsAlike (x m) (x m')

namespace Forgets

theorem pure (a : α) : Forgets (pure a) :=
  fun _ _ hdepth hmark => .ok hdepth hmark

theorem fail (fault : Fault) : Forgets (fail fault : Eval α) :=
  fun _ _ hdepth hmark => .error hdepth hmark

theorem bind {f : α → Eval β} (hx : Forgets x) (hf : ∀ a, Forgets (f a)) : Forgets (x >>= f) := by
  intro m m' hdepth hmark
  have h := hx m m' hdepth hmark
  change EndsAlike (EStateM.bind x f m) (EStateM.bind x f m')
  unfold EStateM.bind
  generalize x m = r at h
  generalize x m' = r' at h
  cases h with
  | ok hdepth hmark => exact hf _ _ _ hdepth hmark
  | error hdepth hmark => exact .error hdepth hmark

theorem during {step : Step} (hx : Forgets x) : Forgets (during step x) := by
  intro m m' hdepth hmark
  have h := hx m m' hdepth hmark
  unfold Eval.during
  generalize x m = r at h
  generalize x m' = r' at h
  cases h with
  | ok hdepth hmark => exact .ok hdepth hmark
  | @error halt _ _ hdepth hmark => cases halt <;> exact .error hdepth hmark

theorem contain {safe : Bool} {x : Eval Expr} (hx : Forgets x) : Forgets (contain safe x) := by
  intro m m' hdepth hmark
  have h := hx m m' hdepth hmark
  unfold Eval.contain
  generalize x m = r at h
  generalize x m' = r' at h
  cases h with
  | ok hdepth hmark => exact .ok hdepth hmark
  | @error halt _ _ hdepth hmark =>
    cases halt with
    | outOfFuel => exact .error hdepth hmark
    | error e =>
      cases safe with
      | true => exact .ok hdepth hmark
      | false => exact .error hdepth hmark

theorem freshMark : Forgets freshMark := by
  intro m m' hdepth hmark
  have hnext : m.nextMark + 1 = m'.nextMark + 1 := congrArg (· + 1) hmark
  unfold Eval.freshMark
  rw [hmark] at hnext ⊢
  exact .ok hdepth hnext

theorem print (line : String) : Forgets (print line) :=
  fun _ _ hdepth hmark => .ok hdepth hmark

theorem saturate {cfg : Config} {ev : Evaluator} {body : Expr} {env : Env}
    (h : Forgets (ev body env false)) : Forgets (saturate cfg ev body env) := by
  intro m m' hdepth hmark
  unfold ClauseLang.saturate
  rw [hdepth]
  by_cases hlimit : cfg.maxDepth ≤ m'.depth
  · rw [if_pos hlimit, if_pos hlimit]
    exact .error hdepth hmark
  · rw [if_neg hlimit, if_neg hlimit]
    have hbody := h { m with depth := m'.depth + 1, peak := max m.peak (m'.depth + 1) }
      { m' with depth := m'.depth + 1, peak := max m'.peak (m'.depth + 1) } rfl hmark
    generalize ev body env false _ = r at hbody
    generalize ev body env false _ = r' at hbody
    cases hbody with
    | ok _ hmark => exact .ok rfl hmark
    | error _ hmark => exact .error rfl hmark

end Forgets

def outcome (x : Eval α) (m : Machine) : Except Halt α :=
  match x m with
  | .ok a _ => .ok a
  | .error halt _ => .error halt

theorem Forgets.outcome_eq {m m' : Machine} (h : Forgets x) (hdepth : m.depth = m'.depth)
    (hmark : m.nextMark = m'.nextMark) : x.outcome m = x.outcome m' := by
  have hends := h m m' hdepth hmark
  unfold outcome
  generalize x m = r at hends
  generalize x m' = r' at hends
  cases hends <;> rfl

end Eval

section

open Eval

theorem forgets_compositional (cfg : Config) : Compositional cfg cfg fun x _ => Forgets x where
  host_eq := rfl
  pure := .pure
  fail := .fail
  freshMark := .freshMark
  print := .print
  bind := .bind
  during _ := .during
  contain _ := .contain
  saturate := .saturate

theorem eval_forgets (cfg : Config) (fuel : Nat) (e : Expr) (env : Env) (safe : Bool) :
    Forgets (eval cfg fuel e env safe) := by
  induction fuel generalizing e env safe with
  | zero => exact fun _ _ hdepth hmark => .error hdepth hmark
  | succ fuel ih =>
    rw [eval_succ]
    exact .contain (@Compositional.evalLevel cfg cfg _ _ (eval cfg fuel)
      (forgets_compositional cfg) ih e env safe)

theorem run_forgets (cfg : Config) (fuel : Nat) (p : Expr) : Forgets (run cfg fuel p) :=
  .bind (.bind .freshMark fun _ => .pure _) fun root => eval_forgets cfg fuel p root false

theorem apply_advances (cfg : Config) (fuel : Nat) (callee argument : Expr) (safe : Bool) :
    Eval.Advances cfg.maxDepth (apply cfg (eval cfg fuel) callee argument safe) :=
  @Compositional.apply cfg cfg _ _ (eval cfg fuel) (advances_compositional cfg)
    (eval_advances cfg fuel) callee argument safe

theorem run_advances (cfg : Config) (fuel : Nat) (p : Expr) :
    Eval.Advances cfg.maxDepth (run cfg fuel p) :=
  .bind (.bind .freshMark fun _ => .pure _) fun root => eval_advances cfg fuel p root false

end

inductive Use where
  | eval (fuel : Nat) (e : Expr) (env : Env) (safe : Bool)
  | apply (fuel : Nat) (callee argument : Expr) (safe : Bool)
  | tryMatch (fuel : Nat) (formal argument : Expr) (env : Env)
  | run (fuel : Nat) (program : Expr)

namespace Use

/-- The state in which a use leaves the machine, whether it succeeds or not. -/
def after (cfg : Config) : Use → Machine → Machine
  | .eval fuel e env safe => (ClauseLang.eval cfg fuel e env safe).endState
  | .apply fuel callee argument safe =>
    (ClauseLang.apply cfg (ClauseLang.eval cfg fuel) callee argument safe).endState
  | .tryMatch fuel formal argument env =>
    (ClauseLang.tryMatch (ClauseLang.eval cfg fuel) formal argument env).endState
  | .run fuel program => (ClauseLang.run cfg fuel program).endState

theorem later_after (cfg : Config) (use : Use) (m : Machine) :
    m.Later cfg.maxDepth (use.after cfg m) := by
  cases use with
  | eval fuel e env safe => exact eval_advances cfg fuel e env safe m
  | apply fuel callee argument safe => exact apply_advances cfg fuel callee argument safe m
  | tryMatch fuel formal argument env => exact tryMatch_advances cfg fuel formal argument env m
  | run fuel program => exact run_advances cfg fuel program m

def afterAll (cfg : Config) (uses : List Use) (m : Machine) : Machine :=
  uses.foldl (fun m use => use.after cfg m) m

theorem later_afterAll (cfg : Config) (uses : List Use) (m : Machine) :
    m.Later cfg.maxDepth (afterAll cfg uses m) := by
  induction uses generalizing m with
  | nil => exact .refl _ m
  | cons use uses ih => exact (use.later_after cfg m).trans (ih _)

end Use

/-- The same outcome but for marks. Of two errors it is known that the same thing went wrong. -/
inductive SameButMarks : Except Halt Expr → Except Halt Expr → Prop
  | ok {v : Expr} {ρ : Nat → Nat} : Function.Injective ρ → SameButMarks (.ok v) (.ok (v.rename ρ))
  | error {e e' : RuntimeError} : e.fault.Similar e'.fault →
    SameButMarks (.error (.error e)) (.error (.error e'))

section

open Eval

variable {cfg : Config} {fuel n : Nat} {p : Expr}

theorem withBuiltins_rename (ρ : Nat → Nat) (mark : Nat) :
    (Env.withBuiltins mark).rename ρ = .withBuiltins (ρ mark) :=
  rfl

theorem marks_withBuiltins (mark : Nat) : (Env.withBuiltins mark).marks = [mark] :=
  rfl

theorem run_follows (fuel : Nat) (ρ : Renaming) (hhost : cfg.host.IsBlind) (hp : p.Below n) :
    Follows ρ.link n ρ.Rel (run cfg fuel p) fun _ => run cfg fuel (p.rename ρ.toFun) := by
  have hroot : Follows ρ.link n ρ.EnvRel Eval.freshRoot fun _ => Eval.freshRoot := by
    refine Renaming.fresh_follows (f := Env.withBuiltins) (g := Env.withBuiltins) ⟨?_, ?_⟩
    · intro k hk
      rw [marks_withBuiltins, List.mem_singleton] at hk
      omega
    · exact (withBuiltins_rename ρ.toFun n).symm
  refine hroot.bind fun w env env' hw henv => ?_
  obtain ⟨hbelow, rfl⟩ := henv
  exact Renaming.eval_respects hhost fuel (hp.mono hw) hbelow w false le_rfl

def Renaming.shift (d : Nat) : Renaming where
  toFun k := k + d
  injective _ _ h := Nat.add_right_cancel h
  start := 0
  toFun_succ k _ := Nat.add_right_comm k 1 d

theorem run_sameButMarks (hhost : cfg.host.IsBlind) (hp : p.marks = []) {m : Machine}
    (hdepth : m.depth = 0) (hends : (run cfg fuel p).ends {}) :
    SameButMarks ((run cfg fuel p).outcome {}) ((run cfg fuel p).outcome m) := by
  have hbelow : p.Below 0 := by simp [Expr.Below, hp]
  have hsame : p.rename (Renaming.shift m.nextMark).toFun = p :=
    Expr.rename_eq_self (by simp [hp])
  have hlink : (Renaming.shift m.nextMark).link.Holds 0 {} m :=
    ⟨le_rfl, rfl, (Nat.zero_add _).symm, hdepth.symm⟩
  have hfollows := run_follows fuel (Renaming.shift m.nextMark) hhost hbelow {} m hlink
  rw [hsame] at hfollows
  unfold Eval.ends at hends
  unfold outcome
  generalize run cfg fuel p {} = r at hfollows hends
  cases hfollows with
  | ok _ _ hv hsettles =>
    obtain ⟨-, rfl⟩ := hv
    rw [(Settles.const (run cfg fuel p m)).unique hsettles]
    exact .ok (Renaming.shift m.nextMark).injective
  | error _ _ he hsettles =>
    rw [(Settles.const (run cfg fuel p m)).unique hsettles]
    exact .error he
  | outOfFuel => cases hends

end

/-- However a machine was used, it is at its old depth and has not gone deeper than the limit. A run
then ends just as on a new machine that gives out marks from the same number on; and as on one that
has given out no marks, but for marks. -/
theorem run_after_uses (cfg : Config) (uses : List Use) (m : Machine) :
    (Use.afterAll cfg uses m).depth = m.depth ∧
      (Use.afterAll cfg uses m).peak ≤ max m.peak cfg.maxDepth ∧
      (m.depth = 0 → ∀ fuel p, (run cfg fuel p).outcome (Use.afterAll cfg uses m) =
        (run cfg fuel p).outcome { nextMark := (Use.afterAll cfg uses m).nextMark }) ∧
      (m.depth = 0 → cfg.host.IsBlind → ∀ fuel p, p.marks = [] → (run cfg fuel p).ends {} →
        SameButMarks ((run cfg fuel p).outcome {})
          ((run cfg fuel p).outcome (Use.afterAll cfg uses m))) := by
  obtain ⟨hdepth, -, -, hpeak⟩ := Use.later_afterAll cfg uses m
  refine ⟨hdepth, hpeak, fun hm fuel p => ?_, fun hm hhost fuel p hp hends => ?_⟩
  · exact (run_forgets cfg fuel p).outcome_eq (hdepth.trans hm) rfl
  · exact run_sameButMarks hhost hp (hdepth.trans hm) hends

/-- A program without end, a line that is printed, and a match whose guard fails. -/
def mixedUses : List Use :=
  [.run 16 (.letIn ["loop"] [.pattern [.mk [.identifier "x"]
      (.application [.identifier "loop", .identifier "x"])] []]
      (.application [.identifier "loop", .number 0])),
    .apply 4 (.builtin (.unary .print)) (.number 7) false,
    .tryMatch 8 (.guarded (.identifier "x") (.application [.identifier "abs", .label "a"]) false)
      (.number 1) (.withBuiltins 0)]

def usedMachine : Machine :=
  Use.afterAll { maxDepth := 1 } mixedUses {}

/-- The value of this program has captured its root scope, and so a mark. -/
def identityPattern : Expr :=
  .pattern [.mk [.identifier "x"] (.identifier "x")] []

theorem run_after_mixedUses :
    usedMachine.depth = 0 ∧ usedMachine.peak = 1 ∧ usedMachine.printed = #["7"] ∧
      usedMachine.nextMark = 5 ∧
      (run { maxDepth := 1 } 8 identityPattern).outcome usedMachine =
        (run { maxDepth := 1 } 8 identityPattern).outcome { nextMark := 5 } ∧
      SameButMarks ((run { maxDepth := 1 } 8 identityPattern).outcome {})
        ((run { maxDepth := 1 } 8 identityPattern).outcome usedMachine) := by
  have hmark : usedMachine.nextMark = 5 := by decide +kernel
  have hends : (run { maxDepth := 1 } 8 identityPattern).ends {} := by decide +kernel
  obtain ⟨hdepth, -, hsame, hbut⟩ := run_after_uses { maxDepth := 1 } mixedUses {}
  refine ⟨hdepth, by decide +kernel, by decide +kernel, hmark, ?_, ?_⟩
  · rw [← hmark]
    exact hsame rfl 8 identityPattern
  · exact hbut rfl isBlind_default 8 identityPattern (by decide) hends

end ClauseLang
