import ClauseLang.Proofs.Machine.Stages
import Mathlib.Data.List.Forall2
import Mathlib.Order.Basic

/-!
Two computations side by side. The second comes as a family, one member for each amount of fuel, and
follows the first if with enough fuel it ends as the first one does: with a related value, or with a
fault of the same kind, and in a state that is linked to that of the first.

What is related may depend on how far the computations have come. This is kept in worlds, which grow.
-/

namespace ClauseLang

/-- The same thing went wrong, whatever the details. -/
def Fault.Similar (fault other : Fault) : Prop :=
  fault.ctorIdx = other.ctorIdx

theorem Fault.Similar.refl (fault : Fault) : fault.Similar fault :=
  rfl

/-- From some member on, all members of a family are the same. -/
def Settles {γ : Type} (y : Nat → γ) (r : γ) : Prop :=
  ∃ n, ∀ k, n ≤ k → y k = r

namespace Settles

variable {γ δ : Type} {y : Nat → γ} {r s : γ}

theorem const (r : γ) : Settles (fun _ => r) r :=
  ⟨0, fun _ _ => rfl⟩

/-- Once a family has come to `r`, another one goes on from there. -/
theorem step {u v : Nat → δ} {t : δ} (h : Settles y r) (huv : ∀ k, y k = r → u k = v k)
    (hv : Settles v t) : Settles u t := by
  obtain ⟨n, hn⟩ := h
  obtain ⟨n', hn'⟩ := hv
  refine ⟨max n n', fun k hk => ?_⟩
  rw [huv k (hn k (by omega)), hn' k (by omega)]

theorem congr {u : Nat → δ} {t : δ} (h : Settles y r) (hu : ∀ k, y k = r → u k = t) :
    Settles u t :=
  h.step hu (.const t)

theorem of_succ (h : Settles (fun k => y (k + 1)) r) : Settles y r := by
  obtain ⟨n, hn⟩ := h
  refine ⟨n + 1, fun k hk => ?_⟩
  obtain ⟨k, rfl⟩ : ∃ j, k = j + 1 := ⟨k - 1, by omega⟩
  exact hn k (by omega)

theorem unique (h : Settles y r) (h' : Settles y s) : r = s := by
  obtain ⟨n, hn⟩ := h
  obtain ⟨n', hn'⟩ := h'
  rw [← hn (max n n') (by omega), hn' (max n n') (by omega)]

end Settles

/-- Which states of two machines go together in a world. They are at one depth, and it does not
matter what they print. -/
structure Link (W : Type) where
  Holds : W → Machine → Machine → Prop
  depth_eq : ∀ {w m m'}, Holds w m m' → m.depth = m'.depth
  setDepth : ∀ {w m m'} (depth peak peak' : Nat), Holds w m m' →
    Holds w { m with depth, peak } { m' with depth, peak := peak' }
  setPrinted : ∀ {w m m'} (printed printed' : Array String), Holds w m m' →
    Holds w { m with printed } { m' with printed := printed' }

namespace Eval

variable {W α β γ δ : Type} [Preorder W] {L : Link W} {w : W}

/-- How the second computation may end if the first one has ended so. -/
inductive Corresponds (L : Link W) (w : W) (R : W → α → β → Prop) :
    EStateM.Result Halt Machine α → (Nat → EStateM.Result Halt Machine β) → Prop
  | ok {w' : W} {a : α} {b : β} {m m' : Machine} {y : Nat → EStateM.Result Halt Machine β} :
    w ≤ w' → L.Holds w' m m' → R w' a b → Settles y (.ok b m') → Corresponds L w R (.ok a m) y
  | error {w' : W} {e e' : RuntimeError} {m m' : Machine}
      {y : Nat → EStateM.Result Halt Machine β} :
    w ≤ w' → L.Holds w' m m' → e.fault.Similar e'.fault → Settles y (.error (.error e') m') →
      Corresponds L w R (.error (.error e) m) y
  | outOfFuel {m : Machine} {y : Nat → EStateM.Result Halt Machine β} :
    Corresponds L w R (.error .outOfFuel m) y

/-- The second computation ends as the first one does, if it does. -/
def Follows (L : Link W) (w : W) (R : W → α → β → Prop) (x : Eval α) (y : Nat → Eval β) : Prop :=
  ∀ m m', L.Holds w m m' → Corresponds L w R (x m) fun k => y k m'

namespace Follows

variable {R : W → α → β → Prop} {S : W → γ → δ → Prop} {x : Eval α} {y z : Nat → Eval β}

theorem pure {a : α} {b : β} (h : R w a b) : Follows L w R (pure a) fun _ => pure b :=
  fun _ _ hm => .ok le_rfl hm h (.const _)

theorem fail {fault fault' : Fault} (h : fault.Similar fault') :
    Follows L w R (fail fault) fun _ => fail fault' :=
  fun _ _ hm => .error le_rfl hm h (.const _)

theorem bind {f : α → Eval γ} {g : Nat → β → Eval δ} (h : Follows L w R x y)
    (hf : ∀ w' a b, w ≤ w' → R w' a b → Follows L w' S (f a) fun k => g k b) :
    Follows L w S (x >>= f) fun k => y k >>= g k := by
  intro m m' hm
  change Corresponds L w S (EStateM.bind x f m) fun k => EStateM.bind (y k) (g k) m'
  unfold EStateM.bind
  have hx := h m m' hm
  generalize x m = r at hx
  cases hx with
  | @ok w' a b m₁ m₁' _ hw hL hab hy =>
    have hrest := hf w' a b hw hab m₁ m₁' hL
    dsimp only
    generalize f a m₁ = r at hrest
    cases hrest with
    | ok hw' hL' hcd hg =>
      exact .ok (hw.trans hw') hL' hcd (hy.step (fun k hk => by simp only [hk]) hg)
    | error hw' hL' he hg =>
      exact .error (hw.trans hw') hL' he (hy.step (fun k hk => by simp only [hk]) hg)
    | outOfFuel => exact .outOfFuel
  | error hw hL he hy => exact .error hw hL he (hy.congr fun k hk => by simp only [hk])
  | outOfFuel => exact .outOfFuel

theorem during {step step' : Step} (h : Follows L w R x y) :
    Follows L w R (during step x) fun k => during step' (y k) := by
  intro m m' hm
  unfold Eval.during
  have hx := h m m' hm
  generalize x m = r at hx
  cases hx with
  | ok hw hL hab hy => exact .ok hw hL hab (hy.congr fun k hk => by simp only [hk])
  | @error _ e e' _ _ _ hw hL he hy =>
    have hnoted : e.fault.Similar { e' with trail := step' :: e'.trail : RuntimeError }.fault := he
    exact .error hw hL hnoted (hy.congr fun k hk => by simp only [hk])
  | outOfFuel => exact .outOfFuel

theorem contain {safe : Bool} {R : W → Expr → Expr → Prop} {x : Eval Expr} {y : Nat → Eval Expr}
    (h : Follows L w R x y) (hfalsy : ∀ w, R w .falsy .falsy) :
    Follows L w R (contain safe x) fun k => contain safe (y k) := by
  intro m m' hm
  unfold Eval.contain
  have hx := h m m' hm
  generalize x m = r at hx
  cases hx with
  | ok hw hL hab hy => exact .ok hw hL hab (hy.congr fun k hk => by simp only [hk])
  | error hw hL he hy =>
    cases safe with
    | true => exact .ok hw hL (hfalsy _) (hy.congr fun k hk => by simp [hk])
    | false => exact .error hw hL he (hy.congr fun k hk => by simp [hk])
  | outOfFuel => exact .outOfFuel

theorem saturate {cfg : Config} {ev : Evaluator} {ev' : Nat → Evaluator} {body body' : Expr}
    {env env' : Env} {R : W → Expr → Expr → Prop}
    (h : Follows L w R (ev body env false) fun k => ev' k body' env' false) :
    Follows L w R (saturate cfg ev body env) fun k => saturate cfg (ev' k) body' env' := by
  intro m m' hm
  have hd := L.depth_eq hm
  unfold ClauseLang.saturate
  rw [hd]
  by_cases hlimit : cfg.maxDepth ≤ m'.depth
  · simp only [if_pos hlimit]
    exact .error le_rfl hm (.refl _) (.const _)
  · simp only [if_neg hlimit]
    have hx := h _ _ (L.setDepth (m'.depth + 1) (max m.peak (m'.depth + 1))
      (max m'.peak (m'.depth + 1)) hm)
    generalize ev body env false _ = r at hx
    cases hx with
    | @ok _ _ _ m₁ m₁' _ hw hL hab hy =>
      exact .ok hw (L.setDepth m'.depth m₁.peak m₁'.peak hL) hab
        (hy.congr fun k hk => by simp only [hk])
    | @error _ _ _ m₁ m₁' _ hw hL he hy =>
      exact .error hw (L.setDepth m'.depth m₁.peak m₁'.peak hL) he
        (hy.congr fun k hk => by simp only [hk])
    | outOfFuel => exact .outOfFuel

theorem print {line line' : String} {R : W → Unit → Unit → Prop} (h : R w () ()) :
    Follows L w R (print line) fun _ => print line' :=
  fun _ _ hm => .ok le_rfl (L.setPrinted _ _ hm) h (.const _)

theorem of_succ (h : Follows L w R x fun k => y (k + 1)) : Follows L w R x y := by
  intro m m' hm
  have hx := h m m' hm
  generalize x m = r at hx
  cases hx with
  | ok hw hL hab hy => exact .ok hw hL hab hy.of_succ
  | error hw hL he hy => exact .error hw hL he hy.of_succ
  | outOfFuel => exact .outOfFuel

end Follows

end Eval

inductive OptionRel {α β : Type} (R : α → β → Prop) : Option α → Option β → Prop
  | none : OptionRel R none none
  | some {a : α} {b : β} : R a b → OptionRel R (some a) (some b)

theorem OptionRel.exists_of_isSome {α β : Type} {R : α → β → Prop} {a? : Option α} {b? : Option β}
    (h : OptionRel R a? b?) (hsome : a?.isSome) :
    ∃ a b, a? = Option.some a ∧ b? = Option.some b ∧ R a b := by
  cases h with
  | none => cases hsome
  | some hab => exact ⟨_, _, rfl, rfl, hab⟩

theorem ne_nil_of_forall₂ {α β : Type} {R : α → β → Prop} {as : List α} {bs : List β}
    (h : List.Forall₂ R as bs) (hne : as ≠ []) : bs ≠ [] := by
  cases h with
  | nil => exact absurd rfl hne
  | cons => exact List.cons_ne_nil _ _

section Evaluators

open Eval

variable {W : Type} [Preorder W] {L : Link W} {w : W} {cfg : Config}
  {ev : Evaluator} {ev' : Nat → Evaluator}

def Grows {α β : Type} (R : W → α → β → Prop) : Prop :=
  ∀ ⦃w w' a b⦄, w ≤ w' → R w a b → R w' a b

theorem Grows.forall₂ {α β : Type} {R : W → α → β → Prop} (hR : Grows R) {w w' : W} (hw : w ≤ w')
    {as : List α} {bs : List β} (h : List.Forall₂ (R w) as bs) : List.Forall₂ (R w') as bs :=
  h.imp fun _ _ => hR hw

/-- The second evaluator follows the first one on two expressions in two scopes, now and later. -/
def Tracks (L : Link W) (V : W → Expr → Expr → Prop) (ev : Evaluator) (ev' : Nat → Evaluator)
    (w : W) (e : Expr) (env : Env) (e' : Expr) (env' : Env) : Prop :=
  ∀ w' safe, w ≤ w' → Follows L w' V (ev e env safe) fun k => ev' k e' env' safe

variable {V : W → Expr → Expr → Prop}

theorem evalElements_follows (hV : Grows V) {env env' : Env} (safe : Bool) (index : Nat)
    {items items' : List Expr}
    (h : List.Forall₂ (fun e e' => Tracks L V ev ev' w e env e' env') items items') :
    Follows L w (fun w => List.Forall₂ (V w)) (evalElements ev env safe index items)
      fun k => evalElements (ev' k) env' safe index items' := by
  suffices hlater : ∀ w', w ≤ w' → Follows L w' (fun w => List.Forall₂ (V w))
      (evalElements ev env safe index items) fun k => evalElements (ev' k) env' safe index items' from
    hlater w le_rfl
  induction h generalizing index with
  | nil => exact fun w' _ => .pure .nil
  | cons hitem _ ih =>
    intro w' hw'
    refine (hitem w' safe hw').during.bind fun w₁ v v' hw₁ hv => ?_
    refine (ih (index + 1) w₁ (hw'.trans hw₁)).bind fun w₂ vs vs' hw₂ hvs => ?_
    exact .pure (.cons (hV hw₂ hv) hvs)

def AppliesAlike (L : Link W) (V : W → Expr → Expr → Prop) (cfg : Config) (ev : Evaluator)
    (ev' : Nat → Evaluator) : Prop :=
  ∀ {w f f' a a'} safe, V w f f' → V w a a' →
    Follows L w V (apply cfg ev f a safe) fun k => apply cfg (ev' k) f' a' safe

theorem applyAll_follows (hV : Grows V) (happly : AppliesAlike L V cfg ev ev') {env env' : Env}
    (safe : Bool) (position : Nat) {items items' : List Expr}
    (h : List.Forall₂ (fun e e' => Tracks L V ev ev' w e env e' env') items items') :
    ∀ {w' f f'}, w ≤ w' → V w' f f' → Follows L w' V (applyAll cfg ev env safe position f items)
      fun k => applyAll cfg (ev' k) env' safe position f' items' := by
  induction h generalizing position with
  | nil => exact fun _ hf => .pure hf
  | cons hitem _ ih =>
    intro w' f f' hw' hf
    refine (hitem w' safe hw').during.bind fun w₁ a a' hw₁ ha => ?_
    refine (happly safe (hV hw₁ hf) ha).during.bind fun w₂ g g' hw₂ hg => ?_
    exact ih (position + 1) (hw'.trans (hw₁.trans hw₂)) hg

/-- A relation of clauses in their scopes that goes on from formal to formal. -/
structure StageRel (L : Link W) (V : W → Expr → Expr → Prop) (ev : Evaluator)
    (ev' : Nat → Evaluator) (S : W → Clause × Env → Clause × Env → Prop) : Prop where
  grows : Grows S
  length_row : ∀ {w s s'}, S w s s' → s.1.row.length = s'.1.row.length
  advance : ∀ {w s s' a a'}, S w s s' → V w a a' →
    Follows L w (fun w => OptionRel (S w)) (advance ev a s) fun k => ClauseLang.advance (ev' k) a' s'
  body : ∀ {w s s'}, S w s s' → s.1.row = [] →
    Follows L w V (ev s.1.body s.2 false) fun k => ev' k s'.1.body s'.2 false

variable {S : W → Clause × Env → Clause × Env → Prop}

theorem surviving_follows (hV : Grows V) (hS : StageRel L V ev ev' S) {a a' : Expr}
    {stages stages' : List (Clause × Env)} (ha : V w a a')
    (h : List.Forall₂ (S w) stages stages') :
    Follows L w (fun w => List.Forall₂ (S w)) (surviving ev a stages)
      fun k => surviving (ev' k) a' stages' := by
  induction stages generalizing w stages' with
  | nil =>
    cases h
    exact .pure .nil
  | cons s stages ih =>
    cases h with
    | cons hs hss =>
      refine (hS.advance hs ha).bind fun w₁ r r' hw₁ hr => ?_
      have hrest := ih (hV hw₁ ha) (Grows.forall₂ hS.grows hw₁ hss)
      cases hr with
      | none => exact hrest
      | some hnext => exact hrest.bind fun w₂ _ _ hw₂ ht => .pure (.cons (hS.grows hw₂ hnext) ht)

theorem commonArity_eq {w : W} (hS : StageRel L V ev ev' S)
    {stages stages' : List (Clause × Env)} (h : List.Forall₂ (S w) stages stages') :
    commonArity (stages.map Prod.fst) = commonArity (stages'.map Prod.fst) := by
  apply commonArity_congr
  rw [List.map_map, List.map_map]
  induction h with
  | nil => rfl
  | cons hs _ ih => simp [hS.length_row hs, ih]

theorem applyPattern_follows (hV : Grows V) (hS : StageRel L V ev ev' S)
    (hclosure : ∀ {w stages stages'}, List.Forall₂ (S w) stages stages' → stages ≠ [] →
      V w (.pattern (stages.map Prod.fst) (stages.map Prod.snd))
        (.pattern (stages'.map Prod.fst) (stages'.map Prod.snd)))
    {clauses clauses' : List Clause} {captured captured' : List Env} {a a' : Expr}
    (hempty : captured.isEmpty = captured'.isEmpty)
    (h : List.Forall₂ (S w) (clauses.zip captured) (clauses'.zip captured')) (ha : V w a a') :
    Follows L w V (applyPattern cfg ev clauses captured a)
      fun k => applyPattern cfg (ev' k) clauses' captured' a' := by
  unfold applyPattern
  rw [hempty]
  split
  · exact .fail (.refl _)
  · simp only [survivors_eq]
    refine (surviving_follows hV hS ha h).bind fun w₁ stages stages' hw₁ hstages => ?_
    have harity := commonArity_eq hS hstages
    cases id hstages with
    | nil => exact .fail rfl
    | @cons s s' _ _ hs hss =>
      dsimp only
      rw [← harity]
      cases hcommon : commonArity ((s :: _).map Prod.fst) with
      | error rows => exact .fail rfl
      | ok n =>
        cases n with
        | zero =>
          have hrow : s.1.row = [] :=
            List.length_eq_zero_iff.1 (commonArity_eq_ok_iff.1 hcommon).1.symm
          exact (Follows.saturate (hS.body hs hrow)).during
        | succ n => exact .pure (hclosure hstages (by simp))

end Evaluators

end ClauseLang
