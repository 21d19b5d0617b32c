import ClauseLang.Proofs.Machine.Ensures
import ClauseLang.Proofs.Machine.Later
import ClauseLang.Proofs.Reader.RoundTrip

/-!
What a run may depend on. More fuel does not change how a run ends. A higher depth limit does not
either, unless the run goes deeper than the lower limit allows.

It may do so in a guard, where the fault of the lower limit is contained like any other: then both
runs have a result, and not the same one.
-/

namespace ClauseLang

namespace Eval

variable {α β : Type} {x y : Eval α}

/-- The second computation ends as the first one does, if that comes to an end. -/
def Extends (x y : Eval α) : Prop :=
  ∀ m, x.ends m → y m = x m

namespace Extends

theorem refl (x : Eval α) : Extends x x :=
  fun _ _ => rfl

/-- Where the first computation runs out of fuel, nothing is said of the second. -/
theorem eq_or_outOfFuel (h : Extends x y) (m : Machine) :
    y m = x m ∨ ∃ m', x m = .error .outOfFuel m' := by
  have hm := h m
  unfold ends at hm
  match hx : x m with
  | .ok a m' | .error (.error e) m' =>
    rw [hx] at hm
    exact .inl (hm rfl)
  | .error .outOfFuel m' => exact .inr ⟨m', rfl⟩

theorem bind {f g : α → Eval β} (h : Extends x y) (hf : ∀ a, Extends (f a) (g a)) :
    Extends (x >>= f) (y >>= g) := by
  intro m hends
  change EStateM.bind y g m = EStateM.bind x f m
  change ends (EStateM.bind x f) m = true at hends
  unfold ends EStateM.bind at *
  rcases h.eq_or_outOfFuel m with heq | ⟨m', hout⟩
  · rw [heq]
    match hx : x m with
    | .ok a m' =>
      rw [hx] at hends
      exact hf a m' hends
    | .error halt m' => rfl
  · rw [hout] at hends
    cases hends

theorem during (step : Step) (h : Extends x y) : Extends (during step x) (during step y) := by
  intro m hends
  unfold ends Eval.during at *
  rcases h.eq_or_outOfFuel m with heq | ⟨m', hout⟩
  · rw [heq]
  · rw [hout] at hends
    cases hends

theorem contain {x y : Eval Expr} (safe : Bool) (h : Extends x y) :
    Extends (contain safe x) (contain safe y) := by
  intro m hends
  unfold ends Eval.contain at *
  rcases h.eq_or_outOfFuel m with heq | ⟨m', hout⟩
  · rw [heq]
  · rw [hout] at hends
    cases hends

theorem saturate {cfg : Config} {ev ev' : Evaluator} {body : Expr} {env : Env}
    (h : Extends (ev body env false) (ev' body env false)) :
    Extends (saturate cfg ev body env) (saturate cfg ev' body env) := by
  intro m hends
  unfold ends ClauseLang.saturate at *
  by_cases hd : cfg.maxDepth ≤ m.depth
  · rw [if_pos hd, if_pos hd]
  · rw [if_neg hd] at hends ⊢
    rw [if_neg hd]
    rcases h.eq_or_outOfFuel { m with depth := m.depth + 1, peak := max m.peak (m.depth + 1) }
      with heq | ⟨m', hout⟩
    · rw [heq]
    · rw [hout] at hends
      cases hends

theorem compositional (cfg : Config) : Compositional cfg cfg Extends where
  host_eq := rfl
  pure _ := refl _
  fail _ := refl _
  freshMark := refl _
  print _ := refl _
  bind := .bind
  during := .during
  contain := .contain
  saturate := .saturate

end Extends

end Eval

open Eval

theorem eval_extends (cfg : Config) {fuel fuel' : Nat} (h : fuel ≤ fuel') (e : Expr) (env : Env)
    (safe : Bool) : Extends (eval cfg fuel e env safe) (eval cfg fuel' e env safe) := by
  induction fuel generalizing fuel' e env safe with
  | zero => exact fun m hends => nomatch hends
  | succ fuel ih =>
    obtain ⟨fuel', rfl⟩ : ∃ k, fuel' = k + 1 := ⟨fuel' - 1, by omega⟩
    rw [eval_succ, eval_succ]
    exact .contain safe ((Extends.compositional cfg).evalLevel (ih (by omega)) e env safe)

theorem run_extends (cfg : Config) {fuel fuel' : Nat} (h : fuel ≤ fuel') (program : Expr) :
    Extends (run cfg fuel program) (run cfg fuel' program) :=
  (Extends.refl freshRoot).bind fun root => eval_extends cfg h program root false

theorem run_unique {cfg : Config} {fuel fuel' : Nat} {program : Expr} {m : Machine}
    (h : (run cfg fuel program).ends m) (h' : (run cfg fuel' program).ends m) :
    run cfg fuel program m = run cfg fuel' program m := by
  rcases Nat.le_total fuel fuel' with hle | hle
  · exact (run_extends cfg hle program m h).symm
  · exact run_extends cfg hle program m h'

namespace Eval

variable {α β : Type} {limit bound : Nat} {x y : Eval α}

/-- The second computation ends as the first one does, if that does not go deeper than `limit`. -/
structure Shallow (limit bound : Nat) (x y : Eval α) : Prop where
  advances : Advances bound x
  eq : ∀ m, m.depth ≤ m.peak → (x.endState m).peak ≤ limit → y m = x m

namespace Shallow

theorem of_advances (h : Advances bound x) : Shallow limit bound x x :=
  ⟨h, fun _ _ _ => rfl⟩

theorem bind {f g : α → Eval β} (h : Shallow limit bound x y)
    (hf : ∀ a, Shallow limit bound (f a) (g a)) : Shallow limit bound (x >>= f) (y >>= g) where
  advances := h.advances.bind fun a => (hf a).advances
  eq := by
    intro m hdepth hpeak
    have hlater := h.advances m
    have hx := h.eq m hdepth
    change EStateM.bind y g m = EStateM.bind x f m
    change (endState (EStateM.bind x f) m).peak ≤ limit at hpeak
    unfold endState EStateM.bind at *
    match hr : x m with
    | .ok a m' =>
      rw [hr] at hlater hx hpeak
      have hrest := ((hf a).advances m').le_peak
      have hdepth' : m'.depth ≤ m'.peak := hlater.depth_eq ▸ Nat.le_trans hdepth hlater.le_peak
      rw [hx (Nat.le_trans hrest hpeak)]
      exact (hf a).eq m' hdepth' hpeak
    | .error e m' =>
      rw [hr] at hx hpeak
      rw [hx hpeak]

theorem during (step : Step) (h : Shallow limit bound x y) :
    Shallow limit bound (during step x) (during step y) where
  advances := h.advances.during
  eq := by
    intro m hdepth hpeak
    have hx := h.eq m hdepth
    unfold endState Eval.during at *
    match hr : x m with
    | .ok a m' | .error .outOfFuel m' | .error (.error e) m' =>
      rw [hr] at hx hpeak
      rw [hx hpeak]

theorem contain {x y : Eval Expr} (safe : Bool) (h : Shallow limit bound x y) :
    Shallow limit bound (contain safe x) (contain safe y) where
  advances := h.advances.contain
  eq := by
    intro m hdepth hpeak
    have hx := h.eq m hdepth
    unfold endState Eval.contain at *
    match hr : x m with
    | .ok a m' | .error .outOfFuel m' =>
      rw [hr] at hx hpeak
      rw [hx hpeak]
    | .error (.error e) m' =>
      rw [hr] at hx hpeak
      cases safe with
      | true => rw [hx hpeak]
      | false => rw [hx hpeak]

theorem saturate {cfg cfg' : Config} (hle : cfg'.maxDepth < cfg.maxDepth) {ev ev' : Evaluator}
    {body : Expr} {env : Env}
    (h : Shallow cfg'.maxDepth cfg.maxDepth (ev body env false) (ev' body env false)) :
    Shallow cfg'.maxDepth cfg.maxDepth (saturate cfg ev body env)
      (saturate cfg' ev' body env) where
  advances := h.advances.saturate
  eq := by
    intro m hdepth hpeak
    have hlater := h.advances { m with depth := m.depth + 1, peak := max m.peak (m.depth + 1) }
    have hx := h.eq { m with depth := m.depth + 1, peak := max m.peak (m.depth + 1) }
      (le_max_right _ _)
    unfold endState ClauseLang.saturate at *
    by_cases hd : cfg.maxDepth ≤ m.depth
    · rw [if_pos hd] at hpeak
      have hpeak : m.peak ≤ cfg'.maxDepth := hpeak
      omega
    · rw [if_neg hd] at hpeak ⊢
      have hstart : m.depth + 1 ≤ max m.peak (m.depth + 1) := le_max_right _ _
      match hr : ev body env false
          { m with depth := m.depth + 1, peak := max m.peak (m.depth + 1) } with
      | .ok a m' | .error e m' =>
        rw [hr] at hlater hx hpeak
        have hpeak : m'.peak ≤ cfg'.maxDepth := hpeak
        have hreached : max m.peak (m.depth + 1) ≤ m'.peak := hlater.le_peak
        rw [if_neg (by omega), hx hpeak]

theorem compositional {cfg cfg' : Config} (hhost : cfg.host = cfg'.host)
    (hle : cfg'.maxDepth < cfg.maxDepth) :
    Compositional cfg cfg' (Shallow cfg'.maxDepth cfg.maxDepth) where
  host_eq := hhost
  pure a := of_advances (.pure a)
  fail fault := of_advances (.fail fault)
  freshMark := of_advances .freshMark
  print line := of_advances (.print line)
  bind := .bind
  during := .during
  contain := .contain
  saturate := .saturate hle

end Shallow

end Eval

theorem eval_shallow {cfg cfg' : Config} (hhost : cfg.host = cfg'.host)
    (hle : cfg'.maxDepth < cfg.maxDepth) (fuel : Nat) (e : Expr) (env : Env) (safe : Bool) :
    Shallow cfg'.maxDepth cfg.maxDepth (eval cfg fuel e env safe) (eval cfg' fuel e env safe) := by
  induction fuel generalizing e env safe with
  | zero => exact ⟨fun m => .refl _ m, fun _ _ _ => rfl⟩
  | succ fuel ih =>
    rw [eval_succ, eval_succ]
    exact .contain safe ((Shallow.compositional hhost hle).evalLevel ih e env safe)

theorem run_shallow {cfg cfg' : Config} (hhost : cfg.host = cfg'.host)
    (hle : cfg'.maxDepth < cfg.maxDepth) (fuel : Nat) (program : Expr) :
    Shallow cfg'.maxDepth cfg.maxDepth (run cfg fuel program) (run cfg' fuel program) :=
  have hroot : Shallow cfg'.maxDepth cfg.maxDepth freshRoot freshRoot :=
    .of_advances (Advances.freshMark.bind fun _ => .pure _)
  hroot.bind fun root => eval_shallow hhost hle fuel program root false

/-- A higher limit gives the same result, if the run under it does not go deeper than the lower one
allows. -/
theorem run_eq_of_peak_le {cfg : Config} {limit limit' fuel fuel' : Nat} (hle : limit ≤ limit')
    {program v : Expr} {m : Machine}
    (h : run { cfg with maxDepth := limit } fuel program {} = .ok v m)
    (hends : (run { cfg with maxDepth := limit' } fuel' program).ends {})
    (hpeak : ((run { cfg with maxDepth := limit' } fuel' program).endState {}).peak ≤ limit) :
    run { cfg with maxDepth := limit' } fuel' program {} = .ok v m := by
  have hlow : (run { cfg with maxDepth := limit } fuel program).ends {} := by
    rw [ends, h]
  rcases Nat.eq_or_lt_of_le hle with rfl | hlt
  · rw [← h]
    exact run_unique hends hlow
  · have hsame : run { cfg with maxDepth := limit } fuel' program {} =
        run { cfg with maxDepth := limit' } fuel' program {} :=
      (@run_shallow { cfg with maxDepth := limit' } { cfg with maxDepth := limit } rfl hlt fuel'
        program).eq {} (Nat.le_refl 0) hpeak
    have hends' : (run { cfg with maxDepth := limit } fuel' program).ends {} := by
      rw [ends, hsame]
      exact hends
    rw [← hsame, ← h]
    exact run_unique hends' hlow

def oneBody : Expr :=
  .application [.pattern [.mk [.identifier "x"]
    (.application [.identifier "+", .identifier "x", .number 1])] [], .number 2]

theorem run_eq_of_peak_le_oneBody :
    ∃ v m, run { maxDepth := 1 } 8 oneBody {} = .ok v m ∧
      (run { maxDepth := 5 } 8 oneBody).ends {} ∧
      ((run { maxDepth := 5 } 8 oneBody).endState {}).peak ≤ 1 ∧
      run { maxDepth := 5 } 8 oneBody {} = .ok v m := by
  have hends : (run { maxDepth := 5 } 8 oneBody).ends {} := by decide +kernel
  have hpeak : ((run { maxDepth := 5 } 8 oneBody).endState {}).peak ≤ 1 := by decide +kernel
  have hsome : ((run { maxDepth := 1 } 8 oneBody).value? {}).isSome := by decide +kernel
  obtain ⟨v, hv⟩ := Option.isSome_iff_exists.1 hsome
  obtain ⟨m, h⟩ := exists_ok_of_value? hv
  exact ⟨v, m, h, hends, hpeak, @run_eq_of_peak_le {} 1 5 8 8 (by decide) _ v m h hends hpeak⟩

/-- The guard `(t x)` needs two bodies at a time. -/
def deepGuard : String :=
  "let u = \x7b _ -> .true \x7d let t = \x7b x -> (u x) \x7d (\x7b x : (t x) -> .yes => .no \x7d 1)"

/-- Under the lower limit the guard fails in safe mode, and the clause is passed over. -/
theorem limit_contained_in_guard :
    ∃ program v v' m m', parse deepGuard = .ok program ∧
      run { maxDepth := 1 } 64 program {} = .ok v m ∧
      run { maxDepth := 2 } 64 program {} = .ok v' m' ∧ v.render ≠ v'.render := by
  have hall : (parse deepGuard).toOption.map (fun program =>
      (((run { maxDepth := 1 } 64 program).value? {}).map Expr.render,
        ((run { maxDepth := 2 } 64 program).value? {}).map Expr.render)) =
          some (some ".no", some ".yes") := by decide +kernel
  obtain ⟨program, hparse, hall⟩ := Option.map_eq_some_iff.1 hall
  obtain ⟨hlow, hhigh⟩ := Prod.mk.inj hall
  obtain ⟨v, hv, htext⟩ := Option.map_eq_some_iff.1 hlow
  obtain ⟨v', hv', htext'⟩ := Option.map_eq_some_iff.1 hhigh
  obtain ⟨m, hm⟩ := exists_ok_of_value? hv
  obtain ⟨m', hm'⟩ := exists_ok_of_value? hv'
  refine ⟨program, v, v', m, m', eq_ok_of_toOption_eq_some hparse, hm, hm', ?_⟩
  rw [htext, htext']
  decide

end ClauseLang
