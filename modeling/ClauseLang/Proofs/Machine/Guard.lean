import ClauseLang.Proofs.Machine.Ensures
import ClauseLang.Proofs.Machine.Safe

/-!
Guards whose conditions fail. In safe mode a failing part of a condition becomes `.false` where it
fails, and evaluation goes on around it. A condition is strict if nothing around can make up for
that; the guard of such a condition does not match if the condition fails.

A condition that is not strict may hold all the same: `||` takes the `.false` of a failed operand for
an answer.
-/

namespace ClauseLang

open Eval

namespace Eval

variable {α : Type}

def OnlyFalsy (x : Eval Expr) : Prop :=
  ∀ m v m', x m = .ok v m' → v = .falsy

/-- If the first computation fails, the second one can only lead to `.false`. -/
def Falls (x y : Eval Expr) : Prop :=
  ∀ m e m₁ v m₂, x m = .error (.error e) m₁ → y m = .ok v m₂ → v = .falsy

theorem OnlyFalsy.bind {x : Eval α} {f : α → Eval Expr} (h : ∀ a, OnlyFalsy (f a)) :
    OnlyFalsy (x >>= f) := by
  intro m v m' hv
  change EStateM.bind x f m = .ok v m' at hv
  unfold EStateM.bind at hv
  cases hx : x m with
  | ok a m₁ =>
    rw [hx] at hv
    exact h a m₁ v m' hv
  | error e m₁ =>
    rw [hx] at hv
    cases hv

theorem OnlyFalsy.bind_of {x : Eval Expr} {f : Expr → Eval Expr} (hx : OnlyFalsy x)
    (h : OnlyFalsy (f .falsy)) : OnlyFalsy (x >>= f) := by
  intro m v m' hv
  change EStateM.bind x f m = .ok v m' at hv
  unfold EStateM.bind at hv
  cases hr : x m with
  | ok a m₁ =>
    rw [hr] at hv
    rw [hx m a m₁ hr] at hv
    exact h m₁ v m' hv
  | error e m₁ =>
    rw [hr] at hv
    cases hv

theorem OnlyFalsy.pure : OnlyFalsy (Pure.pure .falsy) := by
  rintro m v m' ⟨⟩
  rfl

theorem OnlyFalsy.during {step : Step} {x : Eval Expr} (h : OnlyFalsy x) :
    OnlyFalsy (during step x) := by
  intro m v m' hv
  unfold Eval.during at hv
  match hx : x m with
  | .ok a m₁ =>
    rw [hx] at hv
    cases hv
    exact h m v m' hx
  | .error (.error e) m₁ | .error .outOfFuel m₁ =>
    rw [hx] at hv
    cases hv

theorem OnlyFalsy.contain {x : Eval Expr} (h : OnlyFalsy x) : OnlyFalsy (contain true x) := by
  intro m v m' hv
  unfold Eval.contain at hv
  match hx : x m with
  | .ok a m₁ =>
    rw [hx] at hv
    cases hv
    exact h m v m' hx
  | .error (.error e) m₁ =>
    rw [hx] at hv
    cases hv
    rfl
  | .error .outOfFuel m₁ =>
    rw [hx] at hv
    cases hv

namespace Falls

theorem refl (x : Eval Expr) : Falls x x := by
  intro m e m₁ v m₂ he hv
  rw [he] at hv
  cases hv

theorem contain {x y : Eval Expr} (h : Falls x y) : Falls (contain false x) (contain true y) := by
  intro m e m₁ v m₂ he hv
  unfold Eval.contain at *
  match hx : x m with
  | .ok a m' | .error .outOfFuel m' =>
    rw [hx] at he
    cases he
  | .error (.error e) m' =>
    match hy : y m with
    | .ok b m'' =>
      rw [hy] at hv
      cases hv
      exact h m e m' v m₂ hx hy
    | .error (.error e') m'' =>
      rw [hy] at hv
      cases hv
      rfl
    | .error .outOfFuel m'' =>
      rw [hy] at hv
      cases hv

theorem during {step : Step} {x y : Eval Expr} (h : Falls x y) :
    Falls (during step x) (during step y) := by
  intro m e m₁ v m₂ he hv
  unfold Eval.during at *
  match hx : x m with
  | .ok a m' | .error .outOfFuel m' =>
    rw [hx] at he
    cases he
  | .error (.error e) m' =>
    match hy : y m with
    | .ok b m'' =>
      rw [hy] at hv
      cases hv
      exact h m e m' v m₂ hx hy
    | .error (.error e') m'' | .error .outOfFuel m'' =>
      rw [hy] at hv
      cases hv

/-- If the first step fails, the rest can make nothing of `.false`. -/
theorem bind {x y : Eval Expr} {f g : Expr → Eval Expr} (hs : Supports x y) (hx : Falls x y)
    (hfalsy : OnlyFalsy (g .falsy)) (hf : ∀ a, Falls (f a) (g a)) :
    Falls (x >>= f) (y >>= g) := by
  intro m e m₁ v m₂ he hv
  change EStateM.bind x f m = .error (.error e) m₁ at he
  change EStateM.bind y g m = .ok v m₂ at hv
  unfold EStateM.bind at *
  cases hr : x m with
  | ok a m' =>
    rw [hr] at he
    rw [hs m a m' hr] at hv
    exact hf a m' e m₁ v m₂ he hv
  | error halt m' =>
    rw [hr] at he
    cases he
    cases hr' : y m with
    | ok b m'' =>
      rw [hr'] at hv
      rw [hx m e m₁ b m'' hr hr'] at hv
      exact hfalsy m'' v m₂ hv
    | error halt m'' =>
      rw [hr'] at hv
      cases hv

end Falls

end Eval

/-- With `.false` for an operand, the builtin fails or leads to `.false`. -/
def BinaryOp.isStrict : BinaryOp → Bool
  | .equal | .notEqual | .either => false
  | _ => true

theorem compute_falsy_left {op : BinaryOp} (hop : op.isStrict) {right v : Expr}
    (h : op.compute .falsy right = .ok v) : v = .falsy := by
  cases op with
  | both =>
    cases hb : BinaryOp.truth .both right with
    | ok b =>
      have hv : (do let b ← BinaryOp.truth .both right; .ok (.ofBool (false && b))) =
        Except.ok v := h
      rw [hb] at hv
      cases hv
      rfl
    | error fault =>
      have hv : (do let b ← BinaryOp.truth .both right; .ok (.ofBool (false && b))) =
        Except.ok v := h
      rw [hb] at hv
      cases hv
  | equal | notEqual | either => cases hop
  | _ => cases h

theorem compute_falsy_right {op : BinaryOp} (hop : op.isStrict) {left v : Expr}
    (h : op.compute left .falsy = .ok v) : v = .falsy := by
  cases op with
  | both =>
    cases ha : BinaryOp.truth .both left with
    | ok a =>
      have hv : (do let a ← BinaryOp.truth .both left; .ok (.ofBool (a && false))) =
        Except.ok v := h
      rw [ha] at hv
      cases hv
      rw [Bool.and_false]
      rfl
    | error fault =>
      have hv : (do let a ← BinaryOp.truth .both left; .ok (.ofBool (a && false))) =
        Except.ok v := h
      rw [ha] at hv
      cases hv
  | equal | notEqual | either => cases hop
  | _ => cases left <;> cases h

/-- A literal, or a name that stands for something. -/
inductive IsSettled (env : Env) : Expr → Prop
  | number (n : Int64) : IsSettled env (.number n)
  | text (s : String) : IsSettled env (.text s)
  | label (name : String) : IsSettled env (.label name)
  | identifier {name : String} {v : Expr} : env.get? name = some v →
    IsSettled env (.identifier name)

/-- A condition that cannot make up for a part that fails: a name or a literal, a builtin that needs
its operands, or a function applied to names and literals. -/
inductive IsStrict (env : Env) : Expr → Prop
  | number (n : Int64) : IsStrict env (.number n)
  | text (s : String) : IsStrict env (.text s)
  | label (name : String) : IsStrict env (.label name)
  | identifier (name : String) : IsStrict env (.identifier name)
  | unary {name : String} {op : UnaryOp} {operand : Expr} :
    env.get? name = some (.builtin (.unary op)) → IsStrict env operand →
      IsStrict env (.application [.identifier name, operand])
  | binary {name : String} {op : BinaryOp} {left right : Expr} :
    env.get? name = some (.builtin (.binary op)) → op.isStrict → IsStrict env left →
      IsStrict env right → IsStrict env (.application [.identifier name, left, right])
  | call {f : Expr} {arguments : List Expr} :
    IsStrict env f → (∀ a ∈ arguments, IsSettled env a) →
      IsStrict env (.application (f :: arguments))

section

variable {cfg : Config} {ev : Evaluator} {env : Env}

theorem IsSettled.eval_eq (cfg : Config) {e : Expr} (h : IsSettled env e) :
    ∃ v, ∀ fuel safe, eval cfg (fuel + 1) e env safe = pure v := by
  cases h with
  | number n => exact ⟨.number n, fun fuel safe => eval_succ cfg fuel _ env safe⟩
  | text s => exact ⟨.text s, fun fuel safe => eval_succ cfg fuel _ env safe⟩
  | label name => exact ⟨.label name, fun fuel safe => eval_succ cfg fuel _ env safe⟩
  | @identifier name v hv => exact ⟨v, eval_identifier hv⟩

theorem onlyFalsy_apply_falsy (argument : Expr) :
    OnlyFalsy (apply cfg ev .falsy argument true) :=
  OnlyFalsy.contain fun _ _ _ h => nomatch h

theorem onlyFalsy_applyAll_falsy (position : Nat) (items : List Expr) :
    OnlyFalsy (applyAll cfg ev env true position .falsy items) := by
  induction items generalizing position with
  | nil => exact .pure
  | cons item items ih =>
    exact .bind fun argument => (onlyFalsy_apply_falsy argument).during.bind_of (ih (position + 1))

theorem apply_falls (hhost : cfg.host.IsSteady) (callee argument : Expr) :
    Falls (apply cfg ev callee argument false) (apply cfg ev callee argument true) := by
  obtain ⟨x, hx⟩ := apply_eq hhost ev callee argument
  rw [hx, hx]
  exact .contain (.refl x)

theorem falls_applyAll_nil (callee : Expr) (position : Nat) :
    Falls (applyAll cfg ev env false position callee [])
      (applyAll cfg ev env true position callee []) :=
  fun _ _ _ _ _ h => nomatch h

theorem falls_last_argument (hhost : cfg.host.IsSteady) {operand : Expr} {position : Nat} {op : Builtin}
    (hs : Supports (ev operand env false) (ev operand env true))
    (hoperand : Falls (ev operand env false) (ev operand env true))
    (hop : OnlyFalsy (op.call cfg .falsy true)) :
    Falls (applyAll cfg ev env false position (.builtin op) [operand])
      (applyAll cfg ev env true position (.builtin op) [operand]) := by
  refine .bind hs.during hoperand.during ?_ fun argument => ?_
  · exact .bind_of (OnlyFalsy.contain hop.during).during .pure
  · exact .bind (apply_supports hhost _ _).during (apply_falls hhost _ _).during .pure
      fun value => falls_applyAll_nil value _

theorem applyAll_binary (safe : Bool) (position : Nat) (op : BinaryOp) (left : Expr)
    (items : List Expr) :
    applyAll cfg ev env safe position (.builtin (.binary op)) (left :: items) = (do
      let value ← during (.argument position) (ev left env safe)
      applyAll cfg ev env safe (position + 1) (.builtin (.waiting op value)) items) :=
  rfl

theorem falls_bind_of_eval_eq {e v : Expr}
    (h : ∀ fuel safe, eval cfg (fuel + 1) e env safe = pure v) (fuel : Nat) (step : Step)
    {f g : Expr → Eval Expr} (hf : Falls (f v) (g v)) :
    Falls (during step (eval cfg fuel e env false) >>= f)
      (during step (eval cfg fuel e env true) >>= g) := by
  cases fuel with
  | zero => exact fun _ _ _ _ _ h => nomatch h
  | succ fuel =>
    rw [h, h]
    exact hf

theorem applyAll_falls_of_isSettled (hhost : cfg.host.IsSteady) (fuel : Nat)
    {arguments : List Expr} (h : ∀ a ∈ arguments, IsSettled env a) (position : Nat)
    (callee : Expr) :
    Falls (applyAll cfg (eval cfg fuel) env false position callee arguments)
      (applyAll cfg (eval cfg fuel) env true position callee arguments) := by
  induction arguments generalizing position callee with
  | nil => exact falls_applyAll_nil callee position
  | cons a arguments ih =>
    obtain ⟨v, hv⟩ := (h a List.mem_cons_self).eval_eq cfg
    refine falls_bind_of_eval_eq hv fuel _ ?_
    refine .bind (apply_supports hhost callee v).during (apply_falls hhost callee v).during
      (onlyFalsy_applyAll_falsy (position + 1) arguments) fun value => ?_
    exact ih (fun a ha => h a (List.mem_cons_of_mem _ ha)) (position + 1) value

theorem onlyFalsy_unary_call (op : UnaryOp) :
    OnlyFalsy ((Builtin.unary op).call cfg .falsy true) := by
  cases op with
  | print =>
    rintro m v m' ⟨⟩
    rfl
  | abs | len => exact fun _ _ _ h => nomatch h

theorem onlyFalsy_ofExcept {r : Except Fault Expr} (h : ∀ v, r = .ok v → v = .falsy) :
    OnlyFalsy (ofExcept r) := by
  intro m v m' hv
  cases r with
  | ok w =>
    cases hv
    exact h v rfl
  | error fault => cases hv

theorem eval_falls {e : Expr} (h : ∀ fuel, Falls (evalLevel cfg (eval cfg fuel) e env false)
    (evalLevel cfg (eval cfg fuel) e env true)) (fuel : Nat) :
    Falls (eval cfg fuel e env false) (eval cfg fuel e env true) := by
  cases fuel with
  | zero => exact fun _ _ _ _ _ h => nomatch h
  | succ fuel =>
    rw [eval_succ, eval_succ]
    exact .contain (h fuel)

/-- If a strict condition fails, in safe mode it comes to `.false`. -/
theorem IsStrict.falls (hhost : cfg.host.IsSteady) {c : Expr} (h : IsStrict env c) (fuel : Nat) :
    Falls (eval cfg fuel c env false) (eval cfg fuel c env true) := by
  induction h generalizing fuel with
  | number | text | label | identifier => exact eval_falls (fun fuel => .refl _) fuel
  | @unary name op operand hname hoperand ih =>
    refine eval_falls (fun fuel => ?_) fuel
    refine falls_bind_of_eval_eq (eval_identifier hname) fuel _ ?_
    exact falls_last_argument hhost (eval_supports hhost fuel operand env) (ih fuel)
      (onlyFalsy_unary_call op)
  | @binary name op left right hname hop hleft hright ihl ihr =>
    refine eval_falls (fun fuel => ?_) fuel
    refine falls_bind_of_eval_eq (eval_identifier hname) fuel _ ?_
    rw [applyAll_binary, applyAll_binary]
    refine .bind (eval_supports hhost fuel left env).during (ihl fuel).during ?_ fun a => ?_
    · refine .bind fun b => .bind_of (OnlyFalsy.contain (OnlyFalsy.during ?_)).during .pure
      exact onlyFalsy_ofExcept fun v hv => compute_falsy_left hop hv
    · refine falls_last_argument hhost (eval_supports hhost fuel right env) (ihr fuel) ?_
      exact onlyFalsy_ofExcept fun v hv => compute_falsy_right hop hv
  | @call f arguments hf harguments ih =>
    refine eval_falls (fun fuel => ?_) fuel
    refine .bind (eval_supports hhost fuel f env).during (ih fuel).during ?_ ?_
    · exact onlyFalsy_applyAll_falsy 1 arguments
    · exact applyAll_falls_of_isSettled hhost fuel harguments 1

/-- A strict condition that fails with some fuel is not found true with any. -/
theorem IsStrict.eval_safe (hhost : cfg.host.IsSteady) {c : Expr} (h : IsStrict env c)
    {fuel fuel' : Nat} {m m₁ : Machine} {e : RuntimeError}
    (hfails : eval cfg fuel' c env false m = .error (.error e) m₁)
    (hends : (eval cfg fuel c env true).ends m) :
    ∃ m₂, eval cfg fuel c env true m = .ok .falsy m₂ := by
  have hplain : eval cfg (max fuel fuel') c env false m = .error (.error e) m₁ := by
    rw [← hfails]
    refine eval_extends cfg (le_max_right _ _) c env false m ?_
    rw [ends, hfails]
  have hsafe := eval_extends cfg (le_max_left fuel fuel') c env true m hends
  have hensures := eval_safe_ensures cfg fuel c env m
  unfold ends at hends
  cases hr : eval cfg fuel c env true m with
  | ok v m₂ =>
    rw [hr] at hsafe
    rw [h.falls hhost _ m e m₁ v m₂ hplain hsafe]
    exact ⟨m₂, rfl⟩
  | error halt m₂ =>
    cases halt with
    | error e =>
      rw [hr] at hensures
      exact hensures.elim
    | outOfFuel =>
      rw [hr] at hends
      cases hends

theorem tryMatch_guarded (c : Expr) (constant : Bool) {inner argument : Expr} {scope : Env}
    {m m₁ : Machine} (h : tryMatch ev inner argument env m = .ok (some scope) m₁) :
    ∃ bound, tryMatch ev (.guarded inner c constant) argument env m =
      (do
        let verdict ← ev c scope true
        if verdict.isTruthy then return some (← Eval.extend env bound) else return none) m₁ := by
  cases hr : matchInto ev env inner argument [] m with
  | error halt m' => simp [tryMatch, bind, EStateM.bind, hr] at h
  | ok bound m' =>
    cases bound with
    | none =>
      simp only [tryMatch, bind, EStateM.bind, hr] at h
      cases h
    | some bound =>
      simp only [tryMatch, bind, EStateM.bind, hr] at h
      cases h
      refine ⟨bound, ?_⟩
      simp only [tryMatch, matchInto, Eval.extend, freshMark, bind, EStateM.bind, pure,
        EStateM.pure, hr]
      cases ev c _ true _ with
      | error halt m₂ => rfl
      | ok v m₂ =>
        cases hv : v.isTruthy with
        | true => simp only [if_true, hv]
        | false =>
          simp only [hv]
          rfl

/-- A guard whose strict condition fails does not match, and dispatch goes on with the next
clause. -/
theorem tryMatch_eq_none_of_isStrict (hhost : cfg.host.IsSteady) {fuel fuel' : Nat}
    {inner c argument : Expr} {constant : Bool} {scope : Env} {m m₁ m₂ : Machine}
    {e : RuntimeError}
    (hinner : tryMatch (eval cfg fuel) inner argument env m = .ok (some scope) m₁)
    (hfails : eval cfg fuel' c scope false m₁ = .error (.error e) m₂)
    (hstrict : IsStrict scope c)
    (hends : (tryMatch (eval cfg fuel) (.guarded inner c constant) argument env).ends m) :
    ∃ m', tryMatch (eval cfg fuel) (.guarded inner c constant) argument env m = .ok none m' ∧
      ∀ row body clauses envs,
        survivors (eval cfg fuel) argument (.mk (.guarded inner c constant :: row) body :: clauses)
          (env :: envs) m = survivors (eval cfg fuel) argument clauses envs m' := by
  obtain ⟨bound, hguard⟩ := tryMatch_guarded c constant hinner
  have hcends : (eval cfg fuel c scope true).ends m₁ := by
    unfold ends at hends ⊢
    rw [hguard] at hends
    simp only [bind, EStateM.bind] at hends
    match hr : eval cfg fuel c scope true m₁ with
    | .ok _ _ | .error (.error _) _ => rfl
    | .error .outOfFuel _ =>
      rw [hr] at hends
      cases hends
  obtain ⟨m', hsafe⟩ := hstrict.eval_safe hhost hfails hcends
  have hnone : tryMatch (eval cfg fuel) (.guarded inner c constant) argument env m =
      .ok none m' := by
    rw [hguard]
    simp only [bind, EStateM.bind, hsafe]
    rfl
  refine ⟨m', hnone, fun row body clauses envs => ?_⟩
  simp only [survivors, bind, EStateM.bind, hnone]

end

/-- `(> x 0)`, which fails on a label. -/
def positive : Expr :=
  .application [.identifier ">", .identifier "x", .number 0]

theorem tryMatch_eq_none_of_isStrict_positive :
    ∃ scope m₁ e m₂ m',
      tryMatch (eval {} 8) (.identifier "x") (.label "a") (.withBuiltins 0) {} =
        .ok (some scope) m₁ ∧
      eval {} 8 positive scope false m₁ = .error (.error e) m₂ ∧ IsStrict scope positive ∧
      (tryMatch (eval {} 8) (.guarded (.identifier "x") positive false) (.label "a")
        (.withBuiltins 0)).ends {} ∧
      tryMatch (eval {} 8) (.guarded (.identifier "x") positive false) (.label "a")
        (.withBuiltins 0) {} = .ok none m' := by
  have hgreater : ((Env.withBuiltins 0).extend 0 [("x", .label "a")]).get? ">" =
      some (.builtin (.binary .greater)) := rfl
  have hstrict : IsStrict ((Env.withBuiltins 0).extend 0 [("x", .label "a")]) positive :=
    .binary hgreater rfl (.identifier "x") (.number 0)
  obtain ⟨m', h, -⟩ := @tryMatch_eq_none_of_isStrict {} (.withBuiltins 0) (fun _ _ => rfl) 8 8
    (.identifier "x") positive (.label "a") false _ {} _ _ _ rfl rfl hstrict rfl
  exact ⟨_, _, _, _, m', rfl, rfl, hstrict, rfl, h⟩

/-- `(|| (> x 0) .true)` fails on a label, and yet its guard matches. -/
theorem failing_guard_matches :
    ∃ scope scope' m₁ e m₂ m₃,
      tryMatch (eval {} 8) (.identifier "x") (.label "a") (.withBuiltins 0) {} =
        .ok (some scope) m₁ ∧
      eval {} 8 (.application [.identifier "||", positive, .label "true"]) scope false m₁ =
        .error (.error e) m₂ ∧
      tryMatch (eval {} 8) (.guarded (.identifier "x")
        (.application [.identifier "||", positive, .label "true"]) false) (.label "a")
        (.withBuiltins 0) {} = .ok (some scope') m₃ :=
  ⟨_, _, _, _, _, _, rfl, rfl, rfl⟩

end ClauseLang
