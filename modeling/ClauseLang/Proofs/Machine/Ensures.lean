import ClauseLang.Machine.Run

namespace ClauseLang

namespace Eval

variable {α β : Type} {x : Eval α} {P Q : α → Prop} {E : RuntimeError → Prop} {F : Fault → Prop}

/-- The result has the first property, or the error the second. Nothing is said of a computation
that ran out of fuel. -/
def Meets (P : α → Prop) (E : RuntimeError → Prop) : EStateM.Result Halt Machine α → Prop
  | .ok a _ => P a
  | .error (.error e) _ => E e
  | .error .outOfFuel _ => True

def Reports (x : Eval α) (P : α → Prop) (E : RuntimeError → Prop) : Prop :=
  ∀ m, Meets P E (x m)

/-- The promise is about the fault of an error alone. -/
def Ensures (x : Eval α) (P : α → Prop) (F : Fault → Prop) : Prop :=
  x.Reports P fun e => F e.fault

namespace Reports

theorem mono {E' : RuntimeError → Prop} (h : Reports x P E) (hPQ : ∀ a, P a → Q a)
    (hE : ∀ e, E e → E' e) : Reports x Q E' := by
  intro m
  have hx := h m
  match hr : x m with
  | .ok a m' => rw [hr] at hx; exact hPQ a hx
  | .error (.error e) m' => rw [hr] at hx; exact hE e hx
  | .error .outOfFuel m' => trivial

theorem pure {a : α} (h : P a) : Reports (pure a) P E :=
  fun _ => h

theorem bind {f : α → Eval β} {R : β → Prop} (hx : Reports x P E)
    (hf : ∀ a, P a → Reports (f a) R E) : Reports (x >>= f) R E := by
  intro m
  change Meets R E (EStateM.bind x f m)
  have h := hx m
  match hr : x m with
  | .ok a m' =>
    rw [hr] at h
    simpa only [EStateM.bind, hr] using hf a h m'
  | .error (.error e) m' =>
    rw [hr] at h
    simp only [EStateM.bind, hr]
    exact h
  | .error .outOfFuel m' =>
    simp only [EStateM.bind, hr]
    trivial

theorem fail {fault : Fault} (h : E { fault }) : Reports (fail fault : Eval α) P E :=
  fun _ => h

theorem during {E' : RuntimeError → Prop} {step : Step} (h : Reports x P E)
    (hE : ∀ e, E e → E' { e with trail := step :: e.trail }) : Reports (during step x) P E' := by
  intro m
  have hx := h m
  match hr : x m with
  | .ok a m' => rw [hr] at hx; simp only [Eval.during, hr]; exact hx
  | .error (.error e) m' => rw [hr] at hx; simp only [Eval.during, hr]; exact hE e hx
  | .error .outOfFuel m' => simp only [Eval.during, hr]; trivial

theorem contain {safe : Bool} {x : Eval Expr} {P : Expr → Prop} (h : Reports x P E)
    (hfalsy : P .falsy) : Reports (contain safe x) P E := by
  intro m
  have hx := h m
  match hr : x m with
  | .ok a m' => rw [hr] at hx; simpa only [Eval.contain, hr] using hx
  | .error .outOfFuel m' => simp only [Eval.contain, hr]; trivial
  | .error (.error e) m' =>
    rw [hr] at hx
    simp only [Eval.contain, hr]
    cases safe with
    | true => exact hfalsy
    | false => exact hx

theorem extend {env : Env} {values : List (String × Expr)} {P : Env → Prop}
    (h : ∀ mark, P (env.extend mark values)) : Reports (extend env values) P E :=
  fun m => h m.nextMark

theorem extendRecursive {env : Env} {name : String} {clauses : List Clause} {P : Env → Prop}
    (h : ∀ mark, P (env.extendRecursive mark name clauses)) :
    Reports (extendRecursive env name clauses) P E :=
  fun m => h m.nextMark

theorem freshRoot {P : Env → Prop} (h : ∀ mark, P (.withBuiltins mark)) : Reports freshRoot P E :=
  fun m => h m.nextMark

theorem print {line : String} {P : Unit → Prop} (h : P ()) : Reports (print line) P E :=
  fun _ => h

theorem saturate {cfg : Config} {ev : Evaluator} {body : Expr} {env : Env} {P : Expr → Prop}
    (h : Reports (ev body env false) P E) (hlimit : E { fault := .depthLimit cfg.maxDepth }) :
    Reports (saturate cfg ev body env) P E := by
  intro m
  have hx := h { m with depth := m.depth + 1, peak := max m.peak (m.depth + 1) }
  unfold ClauseLang.saturate
  by_cases hd : cfg.maxDepth ≤ m.depth
  · rw [if_pos hd]
    exact hlimit
  · rw [if_neg hd]
    match hr : ev body env false
        { m with depth := m.depth + 1, peak := max m.peak (m.depth + 1) } with
    | .ok a m' => rw [hr] at hx; exact hx
    | .error (.error e) m' => rw [hr] at hx; exact hx
    | .error .outOfFuel m' => trivial

end Reports

theorem reports_trivial (x : Eval α) : x.Reports (fun _ => True) fun _ => True := by
  intro m
  match x m with
  | .ok _ _ | .error (.error _) _ | .error .outOfFuel _ => trivial

namespace Ensures

theorem pure {a : α} (h : P a) : Ensures (pure a) P F :=
  Reports.pure h

theorem bind {f : α → Eval β} {R : β → Prop} (hx : Ensures x P F)
    (hf : ∀ a, P a → Ensures (f a) R F) : Ensures (x >>= f) R F :=
  Reports.bind hx hf

theorem fail {fault : Fault} (h : F fault) : Ensures (fail fault : Eval α) P F :=
  Reports.fail h

theorem during {step : Step} (h : Ensures x P F) : Ensures (during step x) P F :=
  Reports.during h fun _ => id

theorem contain {safe : Bool} {x : Eval Expr} {P : Expr → Prop} (h : Ensures x P F)
    (hfalsy : P .falsy) : Ensures (contain safe x) P F :=
  Reports.contain h hfalsy

theorem extend {env : Env} {values : List (String × Expr)} {P : Env → Prop}
    (h : ∀ mark, P (env.extend mark values)) : Ensures (extend env values) P F :=
  Reports.extend h

theorem extendRecursive {env : Env} {name : String} {clauses : List Clause} {P : Env → Prop}
    (h : ∀ mark, P (env.extendRecursive mark name clauses)) :
    Ensures (extendRecursive env name clauses) P F :=
  Reports.extendRecursive h

theorem freshRoot {P : Env → Prop} (h : ∀ mark, P (.withBuiltins mark)) : Ensures freshRoot P F :=
  Reports.freshRoot h

theorem print {line : String} {P : Unit → Prop} (h : P ()) : Ensures (print line) P F :=
  Reports.print h

theorem saturate {cfg : Config} {ev : Evaluator} {body : Expr} {env : Env} {P : Expr → Prop}
    (h : Ensures (ev body env false) P F) (hlimit : F (.depthLimit cfg.maxDepth)) :
    Ensures (saturate cfg ev body env) P F :=
  Reports.saturate h hlimit

end Ensures

end Eval

theorem eval_identifier {cfg : Config} {env : Env} {name : String} {v : Expr}
    (h : env.get? name = some v) (fuel : Nat) (safe : Bool) :
    eval cfg (fuel + 1) (.identifier name) env safe = pure v := by
  rw [eval_succ, evalLevel, h]
  rfl

/-- In safe mode evaluation has no faults. -/
theorem eval_safe_ensures (cfg : Config) (fuel : Nat) (e : Expr) (env : Env) :
    (eval cfg fuel e env true).Ensures (fun _ => True) fun _ => False := by
  intro m
  cases fuel with
  | zero => trivial
  | succ fuel =>
    rw [eval_succ]
    unfold Eval.contain
    split
    · exact trivial
    next h =>
      cases hr : evalLevel cfg (eval cfg fuel) e env true m with
      | ok => trivial
      | error halt m' =>
        cases halt with
        | error e => exact absurd hr (h e m')
        | outOfFuel => trivial

/-- What a computation leads to, if it succeeds. -/
def Eval.value? {α : Type} (x : Eval α) (m : Machine) : Option α :=
  match x m with
  | .ok a _ => some a
  | .error _ _ => none

theorem Eval.exists_ok_of_value? {α : Type} {x : Eval α} {m : Machine} {a : α}
    (h : x.value? m = some a) : ∃ m', x m = .ok a m' := by
  unfold value? at h
  cases hx : x m with
  | ok b m' =>
    rw [hx] at h
    cases h
    exact ⟨m', rfl⟩
  | error e m' =>
    rw [hx] at h
    cases h

end ClauseLang
