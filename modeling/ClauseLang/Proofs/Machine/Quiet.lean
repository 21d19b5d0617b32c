import ClauseLang.Proofs.Machine.Ensures
import ClauseLang.Proofs.Machine.Follows
import Mathlib.Order.CompleteBooleanAlgebra
import Mathlib.Order.CompletePartialOrder

/-!
Computations that change nothing but marks, and what may stand around a computation without changing
how it ends. Machines are compared by their depth alone.
-/

namespace ClauseLang

namespace Eval

variable {α β : Type}

/-- With enough fuel the computation succeeds, at the depth where it begins. -/
def Quiet (y : Nat → Eval α) (P : α → Prop) : Prop :=
  ∀ m, ∃ a m', m'.depth = m.depth ∧ P a ∧ Settles (fun k => y k m) (.ok a m')

namespace Quiet

variable {y : Nat → Eval α} {P : α → Prop} {Q : β → Prop}

theorem pure {a : α} (h : P a) : Quiet (fun _ => pure a) P :=
  fun m => ⟨a, m, rfl, h, .const _⟩

theorem mono {Q : α → Prop} (hy : Quiet y P) (h : ∀ a, P a → Q a) : Quiet y Q := by
  intro m
  obtain ⟨a, m', hdepth, ha, hsettles⟩ := hy m
  exact ⟨a, m', hdepth, h a ha, hsettles⟩

theorem bind {f : Nat → α → Eval β} (hy : Quiet y P) (hf : ∀ a, P a → Quiet (fun k => f k a) Q) :
    Quiet (fun k => y k >>= f k) Q := by
  intro m
  obtain ⟨a, m₁, hdepth, ha, hsettles⟩ := hy m
  obtain ⟨b, m₂, hdepth', hb, hsettles'⟩ := hf a ha m₁
  refine ⟨b, m₂, hdepth'.trans hdepth, hb, hsettles.step (fun k hk => ?_) hsettles'⟩
  change EStateM.bind (y k) (f k) m = f k a m₁
  simp only [EStateM.bind, hk]

theorem during {step : Step} (hy : Quiet y P) : Quiet (fun k => during step (y k)) P := by
  intro m
  obtain ⟨a, m', hdepth, ha, hsettles⟩ := hy m
  exact ⟨a, m', hdepth, ha, hsettles.congr fun k hk => by simp only [Eval.during, hk]⟩

theorem contain {safe : Bool} {y : Nat → Eval Expr} {P : Expr → Prop} (hy : Quiet y P) :
    Quiet (fun k => contain safe (y k)) P := by
  intro m
  obtain ⟨a, m', hdepth, ha, hsettles⟩ := hy m
  exact ⟨a, m', hdepth, ha, hsettles.congr fun k hk => by simp only [Eval.contain, hk]⟩

theorem of_succ (hy : Quiet (fun k => y (k + 1)) P) : Quiet y P := by
  intro m
  obtain ⟨a, m', hdepth, ha, hsettles⟩ := hy m
  exact ⟨a, m', hdepth, ha, hsettles.of_succ⟩

theorem extend (env : Env) (values : List (String × Expr)) :
    Quiet (fun _ => Eval.extend env values) fun scope => ∃ mark, scope = env.extend mark values :=
  fun m => ⟨_, { m with nextMark := m.nextMark + 1 }, rfl, ⟨m.nextMark, rfl⟩, .const _⟩

theorem extendRecursive (env : Env) (name : String) (clauses : List Clause) :
    Quiet (fun _ => Eval.extendRecursive env name clauses) fun scope =>
      ∃ mark, scope = env.extendRecursive mark name clauses :=
  fun m => ⟨_, { m with nextMark := m.nextMark + 1 }, rfl, ⟨m.nextMark, rfl⟩, .const _⟩

theorem freshRoot : Quiet (fun _ => Eval.freshRoot) fun root => ∃ mark, root = .withBuiltins mark :=
  fun m => ⟨_, { m with nextMark := m.nextMark + 1 }, rfl, ⟨m.nextMark, rfl⟩, .const _⟩

theorem of_pure {a : α} (h : Quiet (fun _ => Pure.pure a) P) : P a := by
  obtain ⟨b, m', -, hb, hsettles⟩ := h {}
  cases hsettles.unique (.const _)
  exact hb

end Quiet

def sameDepth : Link Unit where
  Holds _ m m' := m.depth = m'.depth
  depth_eq h := h
  setDepth _ _ _ _ := rfl
  setPrinted _ _ h := h

namespace Follows

variable {γ : Type} {R : Unit → α → β → Prop} {S : Unit → α → γ → Prop} {x : Eval α}
  {y : Nat → Eval β}

theorem of_quiet {P : γ → Prop} {z : Nat → Eval γ} {f : Nat → γ → Eval β} (hz : Quiet z P)
    (hy : ∀ k c m m', z k m = .ok c m' → y k m = f k c m')
    (h : ∀ c, P c → Follows sameDepth () R x fun k => f k c) : Follows sameDepth () R x y := by
  intro m m' hm
  obtain ⟨c, m₁, hdepth, hc, hsettles⟩ := hz m'
  have hx := h c hc m m₁ (Eq.trans hm hdepth.symm)
  generalize x m = r at hx
  cases hx with
  | ok hw hL hab hf => exact .ok hw hL hab (hsettles.step (fun k => hy k c m' m₁) hf)
  | error hw hL he hf => exact .error hw hL he (hsettles.step (fun k => hy k c m' m₁) hf)
  | outOfFuel => exact .outOfFuel

theorem after_quiet {P : γ → Prop} {z : Nat → Eval γ} {f : Nat → γ → Eval β} (hz : Quiet z P)
    (h : ∀ c, P c → Follows sameDepth () R x fun k => f k c) :
    Follows sameDepth () R x fun k => z k >>= f k := by
  refine of_quiet hz (fun k c m m' hk => ?_) h
  change EStateM.bind (z k) (f k) m = f k c m'
  simp only [EStateM.bind, hk]

theorem contain_after_quiet {safe : Bool} {R : Unit → α → Expr → Prop} {P : γ → Prop}
    {z : Nat → Eval γ} {f : Nat → γ → Eval Expr} (hz : Quiet z P)
    (h : ∀ c, P c → Follows sameDepth () R x fun k => Eval.contain safe (f k c)) :
    Follows sameDepth () R x fun k => Eval.contain safe (z k >>= f k) := by
  refine of_quiet hz (fun k c m m' hk => ?_) h
  change Eval.contain safe (EStateM.bind (z k) (f k)) m = Eval.contain safe (f k c) m'
  simp only [Eval.contain, EStateM.bind, hk]

theorem of_pure {a : α} (h : Quiet y (R () a)) : Follows sameDepth () R (Pure.pure a) y := by
  intro m m' hm
  obtain ⟨b, m₁, hdepth, hb, hsettles⟩ := h m'
  exact .ok le_rfl (Eq.trans hm hdepth.symm) hb hsettles

theorem after_extend {env : Env} {values : List (String × Expr)} {f : Env → Eval α}
    (h : ∀ mark, Follows sameDepth () R (f (env.extend mark values)) y) :
    Follows sameDepth () R (Eval.extend env values >>= f) y :=
  fun m m' hm => h m.nextMark { m with nextMark := m.nextMark + 1 } m' hm

theorem after_extendRecursive {env : Env} {name : String} {clauses : List Clause}
    {f : Env → Eval α} (h : ∀ mark, Follows sameDepth () R (f (env.extendRecursive mark name clauses))
      y) : Follows sameDepth () R (Eval.extendRecursive env name clauses >>= f) y :=
  fun m m' hm => h m.nextMark { m with nextMark := m.nextMark + 1 } m' hm

theorem after_freshRoot {f : Env → Eval α}
    (h : ∀ mark, Follows sameDepth () R (f (.withBuiltins mark)) y) :
    Follows sameDepth () R (Eval.freshRoot >>= f) y :=
  fun m m' hm => h m.nextMark { m with nextMark := m.nextMark + 1 } m' hm

theorem extend {env env' : Env} {values values' : List (String × Expr)} {f : Env → Eval α}
    {g : Nat → Env → Eval β}
    (h : ∀ mark mark', Follows sameDepth () R (f (env.extend mark values)) fun k =>
      g k (env'.extend mark' values')) :
    Follows sameDepth () R (Eval.extend env values >>= f) fun k =>
      Eval.extend env' values' >>= g k := by
  refine after_extend fun mark => after_quiet (Quiet.extend env' values') ?_
  rintro _ ⟨mark', rfl⟩
  exact h mark mark'

theorem during_right {step : Step} (h : Follows sameDepth () R x y) :
    Follows sameDepth () R x fun k => Eval.during step (y k) := by
  intro m m' hm
  unfold Eval.during
  have hx := h m m' hm
  generalize x m = r at hx
  cases hx with
  | ok hw hL hab hy => exact .ok hw hL hab (hy.congr fun k hk => by simp only [hk])
  | @error _ e e' _ _ _ hw hL he hy =>
    have hnoted : e.fault.Similar { e' with trail := step :: e'.trail : RuntimeError }.fault := he
    exact .error hw hL hnoted (hy.congr fun k hk => by simp only [hk])
  | outOfFuel => exact .outOfFuel

theorem contain_right {safe : Bool} {R : Unit → α → Expr → Prop} {y : Nat → Eval Expr}
    (h : Follows sameDepth () R x y)
    (hsafe : safe = true → ∀ k, (y k).Ensures (fun _ => True) fun _ => False) :
    Follows sameDepth () R x fun k => Eval.contain safe (y k) := by
  cases safe with
  | false => simpa only [Eval.contain_false] using h
  | true =>
    intro m m' hm
    have hx := h m m' hm
    generalize x m = r at hx
    cases hx with
    | ok hw hL hab hy => exact .ok hw hL hab (hy.congr fun k hk => by simp only [Eval.contain, hk])
    | error _ _ _ hy =>
      obtain ⟨n, hn⟩ := hy
      have hfails := hn n (Nat.le_refl n)
      have hnone := hsafe rfl n m'
      dsimp only at hfails
      rw [hfails] at hnone
      exact absurd hnone id
    | outOfFuel => exact .outOfFuel

end Follows

end Eval

theorem quiet_eval_identifier {cfg : Config} {scope : Env} {safe : Bool} {x : String} {v : Expr}
    (h : scope.get? x = some v) :
    Eval.Quiet (fun k => eval cfg k (.identifier x) scope safe) (· = v) := by
  refine .of_succ ?_
  simp only [eval_identifier h]
  exact .pure rfl

end ClauseLang
