import ClauseLang.Proofs.Machine.Compositional
import Mathlib.Data.Nat.Basic

namespace ClauseLang

/-- A state that a machine may come to with the given depth limit. -/
structure Machine.Later (limit : Nat) (m m' : Machine) : Prop where
  depth_eq : m'.depth = m.depth
  nextMark_le : m.nextMark ≤ m'.nextMark
  le_peak : m.peak ≤ m'.peak
  peak_le : m'.peak ≤ max m.peak limit

namespace Machine.Later

variable {limit : Nat} {m₁ m₂ m₃ : Machine}

theorem refl (limit : Nat) (m : Machine) : Later limit m m :=
  ⟨rfl, le_rfl, le_rfl, le_max_left _ _⟩

theorem trans (h : Later limit m₁ m₂) (h' : Later limit m₂ m₃) : Later limit m₁ m₃ where
  depth_eq := h'.depth_eq.trans h.depth_eq
  nextMark_le := Nat.le_trans h.nextMark_le h'.nextMark_le
  le_peak := Nat.le_trans h.le_peak h'.le_peak
  peak_le := by
    have := h.peak_le
    have := h'.peak_le
    omega

end Machine.Later

namespace Eval

variable {α β : Type} {limit : Nat} {x : Eval α}

/-- The state in which a computation ends. -/
def endState (x : Eval α) (m : Machine) : Machine :=
  match x m with
  | .ok _ m' | .error _ m' => m'

/-- The computation comes to an end before its fuel does. -/
def ends (x : Eval α) (m : Machine) : Bool :=
  match x m with
  | .error .outOfFuel _ => false
  | _ => true

/-- The computation leads to a later state wherever it begins. -/
def Advances (limit : Nat) (x : Eval α) : Prop :=
  ∀ m : Machine, m.Later limit (x.endState m)

namespace Advances

theorem pure (a : α) : Advances limit (pure a) :=
  fun m => .refl limit m

theorem fail (fault : Fault) : Advances limit (fail fault : Eval α) :=
  fun m => .refl limit m

theorem bind {f : α → Eval β} (hx : Advances limit x) (hf : ∀ a, Advances limit (f a)) :
    Advances limit (x >>= f) := by
  intro m
  have h := hx m
  change m.Later limit (endState (EStateM.bind x f) m)
  unfold endState EStateM.bind at *
  generalize x m = r at h
  cases r with
  | ok a m' => exact h.trans (hf a m')
  | error e m' => exact h

theorem during {step : Step} (hx : Advances limit x) : Advances limit (during step x) := by
  intro m
  have h := hx m
  unfold endState Eval.during at *
  generalize x m = r at h
  match r with
  | .ok a m' => exact h
  | .error (.error e) m' => exact h
  | .error .outOfFuel m' => exact h

theorem contain {safe : Bool} {x : Eval Expr} (hx : Advances limit x) :
    Advances limit (contain safe x) := by
  intro m
  have h := hx m
  unfold endState Eval.contain at *
  generalize x m = r at h
  match r with
  | .ok a m' => exact h
  | .error (.error e) m' => cases safe <;> exact h
  | .error .outOfFuel m' => exact h

theorem freshMark : Advances limit freshMark :=
  fun m => ⟨rfl, m.nextMark.le_succ, le_rfl, le_max_left _ _⟩

theorem print (line : String) : Advances limit (print line) :=
  fun _ => ⟨rfl, le_rfl, le_rfl, le_max_left _ _⟩

theorem saturate {cfg : Config} {ev : Evaluator} {body : Expr} {env : Env}
    (h : Advances cfg.maxDepth (ev body env false)) :
    Advances cfg.maxDepth (saturate cfg ev body env) := by
  intro m
  have hbody := h { m with depth := m.depth + 1, peak := max m.peak (m.depth + 1) }
  unfold endState ClauseLang.saturate at *
  by_cases hd : cfg.maxDepth ≤ m.depth
  · rw [if_pos hd]
    exact .refl _ m
  · rw [if_neg hd]
    generalize ev body env false _ = r at hbody
    have hpeak : ∀ m', Machine.Later cfg.maxDepth
        { m with depth := m.depth + 1, peak := max m.peak (m.depth + 1) } m' →
        m.Later cfg.maxDepth { m' with depth := m.depth } := by
      rintro m' ⟨-, hmark, hle, hpeak⟩
      dsimp only at hmark hle hpeak
      exact ⟨rfl, hmark, by dsimp only; omega, by dsimp only; omega⟩
    cases r with
    | ok a m' => exact hpeak m' hbody
    | error e m' => exact hpeak m' hbody

end Advances

end Eval

section

open Eval

theorem advances_compositional (cfg : Config) :
    Compositional cfg cfg fun x _ => Advances cfg.maxDepth x where
  host_eq := rfl
  pure := .pure
  fail := .fail
  freshMark := .freshMark
  print := .print
  bind := .bind
  during _ := .during
  contain _ := .contain
  saturate := .saturate

/-- All that an evaluator does leads to later states. -/
def Evaluator.Advances (limit : Nat) (ev : Evaluator) : Prop :=
  ∀ e env safe, Eval.Advances limit (ev e env safe)

theorem eval_advances (cfg : Config) (fuel : Nat) : (eval cfg fuel).Advances cfg.maxDepth := by
  induction fuel with
  | zero => exact fun _ _ _ m => .refl _ m
  | succ fuel ih =>
    intro e env safe
    rw [eval_succ]
    exact .contain (@Compositional.evalLevel cfg cfg _ _ (eval cfg fuel)
      (advances_compositional cfg) ih e env safe)

theorem tryMatch_advances (cfg : Config) (fuel : Nat) (formal argument : Expr) (env : Env) :
    Eval.Advances cfg.maxDepth (tryMatch (eval cfg fuel) formal argument env) :=
  @Compositional.tryMatch cfg cfg _ _ (eval cfg fuel) (advances_compositional cfg)
    (eval_advances cfg fuel) formal argument env

end

end ClauseLang
