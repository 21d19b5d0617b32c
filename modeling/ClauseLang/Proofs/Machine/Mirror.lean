import ClauseLang.Proofs.Machine.Data
import ClauseLang.Proofs.Machine.Regroup

/-!
Two families of computations, with a member of each for every amount of fuel, that come to the same:
whatever a member of the one comes to, the other comes to with enough fuel, in the same state of the
machine and so with the same lines printed.
-/

namespace ClauseLang

namespace Eval

variable {α β γ δ : Type} {R : α → β → Prop} {S : γ → δ → Prop}

/-- How the members of a family may end from some amount of fuel on, if a computation has ended so. -/
inductive Reflects (R : α → β → Prop) :
    EStateM.Result Halt Machine α → (Nat → EStateM.Result Halt Machine β) → Prop
  | ok {a : α} {b : β} {m : Machine} {y : Nat → EStateM.Result Halt Machine β} :
    R a b → Settles y (.ok b m) → Reflects R (.ok a m) y
  | error {e e' : RuntimeError} {m : Machine} {y : Nat → EStateM.Result Halt Machine β} :
    e.fault.Similar e'.fault → Settles y (.error (.error e') m) → Reflects R (.error (.error e) m) y
  | outOfFuel {m : Machine} {y : Nat → EStateM.Result Halt Machine β} :
    Reflects R (.error .outOfFuel m) y

def Mirrors (R : α → β → Prop) (x : Eval α) (y : Nat → Eval β) : Prop :=
  ∀ m, Reflects R (x m) fun k => y k m

namespace Mirrors

variable {x : Eval α} {y : Nat → Eval β}

theorem pure {a : α} {b : β} (h : R a b) : Mirrors R (Pure.pure a) fun _ => Pure.pure b :=
  fun _ => .ok h (.const _)

theorem fail {fault fault' : Fault} (h : fault.Similar fault') :
    Mirrors R (Eval.fail fault) fun _ => Eval.fail fault' :=
  fun _ => .error h (.const _)

theorem self (x : Eval α) : Mirrors Eq x fun _ => x := by
  intro m
  match hx : x m with
  | .ok a m' => exact .ok rfl ⟨0, fun _ _ => hx⟩
  | .error (.error e) m' => exact .error (.refl _) ⟨0, fun _ _ => hx⟩
  | .error .outOfFuel m' => exact .outOfFuel

theorem of_succ (h : Mirrors R x fun k => y (k + 1)) : Mirrors R x y := by
  intro m
  have hx := h m
  generalize x m = r at hx
  cases hx with
  | ok hab hy => exact .ok hab hy.of_succ
  | error he hy => exact .error he hy.of_succ
  | outOfFuel => exact .outOfFuel

/-- A family may be exchanged for one that agrees with it and only gains by more fuel. -/
theorem agrees {y' : Nat → Eval β} (h : Mirrors R x y) (hy : ∀ k, Agrees Eq (y k) (y' k))
    (hmore : ∀ {k k'}, k ≤ k' → Extends (y' k) (y' k')) : Mirrors R x y' := by
  intro m
  have hx := h m
  generalize x m = r at hx
  cases hx with
  | @ok a b m' _ hab hsettles =>
    refine .ok hab (hsettles.congr fun k hk => ?_)
    have hsame := hy k m
    generalize y' k m = r' at hsame ⊢
    rw [hk] at hsame
    cases hsame with
    | ok heq => rw [heq]
  | @error e e' m' _ he hsettles =>
    obtain ⟨n, hn⟩ := hsettles
    have hsame := hy n m
    have hend : y n m = .error (.error e') m' := hn n (Nat.le_refl n)
    rw [hend] at hsame
    generalize hr : y' n m = r' at hsame
    cases hsame with
    | error he' =>
      refine .error (he.trans (congrArg Fault.ctorIdx he')) ⟨n, fun k hk => ?_⟩
      exact (hmore hk m (by rw [Eval.ends, hr])).trans hr
  | outOfFuel => exact .outOfFuel

theorem of_agrees {w : Eval α} (h : Mirrors R x y) (hw : Agrees Eq w x) : Mirrors R w y := by
  intro m
  have hwx := hw m
  have hxy := h m
  generalize w m = r at hwx
  generalize x m = r' at hwx hxy
  cases hwx with
  | ok heq => exact heq ▸ hxy
  | error he =>
    cases hxy with
    | error he' hy => exact .error ((congrArg Fault.ctorIdx he).trans he') hy
  | outOfFuel => exact .outOfFuel

theorem bind {f : α → Eval γ} {g : Nat → β → Eval δ} (h : Mirrors R x y)
    (hf : ∀ a b, R a b → Mirrors S (f a) fun k => g k b) :
    Mirrors S (x >>= f) fun k => y k >>= g k := by
  intro m
  change Reflects S (EStateM.bind x f m) fun k => EStateM.bind (y k) (g k) m
  unfold EStateM.bind
  have hx := h m
  generalize x m = r at hx
  cases hx with
  | @ok a b m' _ hab hy =>
    have hrest := hf a b hab m'
    dsimp only
    generalize f a m' = r at hrest
    cases hrest with
    | ok hcd hg => exact .ok hcd (hy.step (fun k hk => by simp only [hk]) hg)
    | error he hg => exact .error he (hy.step (fun k hk => by simp only [hk]) hg)
    | outOfFuel => exact .outOfFuel
  | error he hy => exact .error he (hy.congr fun k hk => by simp only [hk])
  | outOfFuel => exact .outOfFuel

theorem during (step step' : Step) (h : Mirrors R x y) :
    Mirrors R (Eval.during step x) fun k => Eval.during step' (y k) := by
  intro m
  unfold Eval.during
  have hx := h m
  generalize x m = r at hx
  cases hx with
  | ok hab hy => exact .ok hab (hy.congr fun k hk => by simp only [hk])
  | @error e e' _ _ he hy =>
    have hnoted : e.fault.Similar { e' with trail := step' :: e'.trail : RuntimeError }.fault := he
    exact .error hnoted (hy.congr fun k hk => by simp only [hk])
  | outOfFuel => exact .outOfFuel

theorem contain {R : Expr → Expr → Prop} {x : Eval Expr} {y : Nat → Eval Expr} (safe : Bool)
    (h : Mirrors R x y) (hfalsy : R .falsy .falsy) :
    Mirrors R (Eval.contain safe x) fun k => Eval.contain safe (y k) := by
  intro m
  unfold Eval.contain
  have hx := h m
  generalize x m = r at hx
  cases hx with
  | ok hab hy => exact .ok hab (hy.congr fun k hk => by simp only [hk])
  | error he hy =>
    cases safe with
    | true => exact .ok hfalsy (hy.congr fun k hk => by simp [hk])
    | false => exact .error he (hy.congr fun k hk => by simp [hk])
  | outOfFuel => exact .outOfFuel

theorem saturate {R : Expr → Expr → Prop} {cfg : Config} {ev : Evaluator} {ev' : Nat → Evaluator}
    {body body' : Expr} {env env' : Env}
    (h : Mirrors R (ev body env false) fun k => ev' k body' env' false) :
    Mirrors R (saturate cfg ev body env) fun k => saturate cfg (ev' k) body' env' := by
  intro m
  unfold ClauseLang.saturate
  by_cases hlimit : cfg.maxDepth ≤ m.depth
  · simp only [if_pos hlimit]
    exact .error (.refl _) (.const _)
  · simp only [if_neg hlimit]
    have hx := h { m with depth := m.depth + 1, peak := max m.peak (m.depth + 1) }
    generalize ev body env false _ = r at hx
    cases hx with
    | ok hab hy => exact .ok hab (hy.congr fun k hk => by simp only [hk])
    | error he hy => exact .error he (hy.congr fun k hk => by simp only [hk])
    | outOfFuel => exact .outOfFuel

end Mirrors

/-- What either family comes to with at most so much fuel, the other one comes to as well. -/
structure Matches (n : Nat) (R : α → β → Prop) (x : Nat → Eval α) (y : Nat → Eval β) : Prop where
  forth : ∀ k ≤ n, Mirrors R (x k) y
  back : ∀ k ≤ n, Mirrors (fun b a => R a b) (y k) x

namespace Matches

variable {n : Nat} {x : Nat → Eval α} {y : Nat → Eval β}

theorem pure {a : α} {b : β} (h : R a b) :
    Matches n R (fun _ => Pure.pure a) fun _ => Pure.pure b where
  forth _ _ := .pure h
  back _ _ := .pure h

theorem fail {fault fault' : Fault} (h : fault.Similar fault') :
    Matches n R (fun _ => Eval.fail fault) fun _ => Eval.fail fault' where
  forth _ _ := .fail h
  back _ _ := .fail h.symm

theorem self (x : Eval α) : Matches n Eq (fun _ => x) fun _ => x where
  forth _ _ := .self x
  back _ _ := by simpa only [eq_comm] using Mirrors.self x

theorem ofExcept {r : Except Fault α} {r' : Except Fault β} (h : ExceptRel R r r') :
    Matches n R (fun _ => Eval.ofExcept r) fun _ => Eval.ofExcept r' := by
  cases h with
  | ok hab => exact .pure hab
  | error he => exact .fail he

/-- Without fuel nothing comes to an end. -/
theorem of_succ (hx : ∀ m, x 0 m = .error .outOfFuel m) (hy : ∀ m, y 0 m = .error .outOfFuel m)
    (h : Matches n R (fun k => x (k + 1)) fun k => y (k + 1)) : Matches (n + 1) R x y where
  forth k hk m := by
    cases k with
    | zero =>
      rw [hx]
      exact .outOfFuel
    | succ k => exact (h.forth k (Nat.le_of_succ_le_succ hk)).of_succ m
  back k hk m := by
    cases k with
    | zero =>
      rw [hy]
      exact .outOfFuel
    | succ k => exact (h.back k (Nat.le_of_succ_le_succ hk)).of_succ m

theorem zero (hx : ∀ m, x 0 m = .error .outOfFuel m) (hy : ∀ m, y 0 m = .error .outOfFuel m) :
    Matches 0 R x y where
  forth k hk m := by
    obtain rfl := Nat.le_zero.1 hk
    rw [hx]
    exact .outOfFuel
  back k hk m := by
    obtain rfl := Nat.le_zero.1 hk
    rw [hy]
    exact .outOfFuel

theorem bind {f : Nat → α → Eval γ} {g : Nat → β → Eval δ} (h : Matches n R x y)
    (hf : ∀ a b, R a b → Matches n S (fun k => f k a) fun k => g k b) :
    Matches n S (fun k => x k >>= f k) fun k => y k >>= g k where
  forth k hk := (h.forth k hk).bind fun a b hab => (hf a b hab).forth k hk
  back k hk := (h.back k hk).bind fun b a hab => (hf a b hab).back k hk

theorem during (step step' : Step) (h : Matches n R x y) :
    Matches n R (fun k => Eval.during step (x k)) fun k => Eval.during step' (y k) where
  forth k hk := (h.forth k hk).during step step'
  back k hk := (h.back k hk).during step' step

theorem contain {R : Expr → Expr → Prop} {x y : Nat → Eval Expr} (safe : Bool)
    (h : Matches n R x y) (hfalsy : R .falsy .falsy) :
    Matches n R (fun k => Eval.contain safe (x k)) fun k => Eval.contain safe (y k) where
  forth k hk := (h.forth k hk).contain safe hfalsy
  back k hk := (h.back k hk).contain safe hfalsy

theorem saturate {R : Expr → Expr → Prop} {cfg : Config} {ev ev' : Nat → Evaluator}
    {body body' : Expr} {env env' : Env}
    (h : Matches n R (fun k => ev k body env false) fun k => ev' k body' env' false) :
    Matches n R (fun k => ClauseLang.saturate cfg (ev k) body env)
      fun k => ClauseLang.saturate cfg (ev' k) body' env' where
  forth k hk := (h.forth k hk).saturate
  back k hk := (h.back k hk).saturate

end Matches

end Eval

end ClauseLang
