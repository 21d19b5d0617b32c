import ClauseLang.Proofs.Machine.Regroup
import ClauseLang.Reader.Grammar

/-!
Bindings in a row. A `letIn` around a `letIn` binds the names that one `letIn` for all of them binds,
in the same order. In safe mode the inner one contains what goes wrong in it, and the outer one would.
-/

namespace ClauseLang

open Eval

namespace Eval

variable {α : Type}

theorem contain_contain (safe : Bool) (x : Eval Expr) :
    contain safe (contain safe x) = contain safe x := by
  funext m
  cases safe with
  | false => rw [contain_false]
  | true => exact congrFun (contain_eq_self (contain_true_ensures x) true) m

/-- What is contained in the end may be contained on the way. -/
theorem Agrees.contain_bind {x y : Eval α} {f g : α → Eval Expr} {safe : Bool} (h : Agrees Eq x y)
    (hf : ∀ a, Agrees Eq (Eval.contain safe (f a)) (Eval.contain safe (g a))) :
    Agrees Eq (Eval.contain safe (x >>= f)) (Eval.contain safe (y >>= g)) := by
  intro m
  have hbind (z : Eval α) (k : α → Eval Expr) : (z >>= k) m = EStateM.bind z k m := rfl
  have hx := h m
  unfold Eval.contain
  rw [hbind, hbind]
  unfold EStateM.bind
  generalize x m = r at hx
  generalize y m = r' at hx
  cases hx with
  | ok hab => exact hab ▸ hf _ _
  | error he =>
    cases safe with
    | true => exact .ok rfl
    | false => exact .error he
  | outOfFuel => exact .outOfFuel

theorem Agrees.contain_during_contain {safe : Bool} {step : Step} {x y : Eval Expr}
    (h : Agrees Eq x y) :
    Agrees Eq (Eval.contain safe x) (Eval.contain safe (Eval.during step (Eval.contain safe y))) ∧
      Agrees Eq (Eval.contain safe (Eval.during step (Eval.contain safe x)))
        (Eval.contain safe y) := by
  have hself := h.contain safe
  have hright := (hself.during_right step).contain safe
  have hleft := (hself.during_left step).contain safe
  rw [contain_contain] at hright hleft
  exact ⟨hright, hleft⟩

end Eval

section

variable {cfg : Config}

/-- Bindings are made one after another. -/
theorem evalBindings_append (ev : Evaluator) (safe : Bool) {names : List String} {values : List Expr}
    (h : names.length = values.length) (names' : List String) (values' : List Expr) (env : Env) :
    evalBindings ev safe (names ++ names') (values ++ values') env =
      evalBindings ev safe names values env >>= evalBindings ev safe names' values' := by
  induction names generalizing values env with
  | nil =>
    obtain rfl : values = [] := List.length_eq_zero_iff.1 h.symm
    rfl
  | cons name names ih =>
    cases values with
    | nil => cases h
    | cons value values =>
      have hrest := ih (Nat.succ.inj h)
      rw [List.cons_append, List.cons_append]
      by_cases hpattern : ∃ clauses, value = .pattern clauses []
      · obtain ⟨clauses, rfl⟩ := hpattern
        simp only [evalBindings_pattern, hrest, bind_assoc]
      · simp only [evalBindings_of_ne _ _ _ _ _ _ (not_exists.1 hpattern), hrest, bind_assoc]

theorem eval_letIn (cfg : Config) (fuel : Nat) (names : List String) (values : List Expr)
    (body : Expr) (env : Env) (safe : Bool) :
    eval cfg (fuel + 1) (.letIn names values body) env safe =
      contain safe (evalBindings (eval cfg fuel) safe names values env >>= fun scope =>
        during .letBody (eval cfg fuel body scope safe)) := by
  rw [eval_succ]
  rfl

theorem eval_letIn_append (cfg : Config) (fuel : Nat) {names : List String} {values : List Expr}
    (h : names.length = values.length) (names' : List String) (values' : List Expr) (body : Expr)
    (env : Env) (safe : Bool) :
    eval cfg (fuel + 1) (.letIn (names ++ names') (values ++ values') body) env safe =
      contain safe (evalBindings (eval cfg fuel) safe names values env >>= fun scope =>
        evalBindings (eval cfg fuel) safe names' values' scope >>= fun scope =>
          during .letBody (eval cfg fuel body scope safe)) := by
  rw [eval_letIn, evalBindings_append _ _ h]
  simp only [bind_assoc]

/-- Give the later bindings a `letIn` of their own. -/
theorem serves_nest (cfg : Config) {names : List String} {values : List Expr}
    (h : names.length = values.length) (names' : List String) (values' : List Expr) (body : Expr) :
    Serves cfg 1 (.letIn (names ++ names') (values ++ values') body)
      (.letIn names values (.letIn names' values' body)) := by
  intro fuel env safe
  cases fuel with
  | zero => exact fun m => .outOfFuel
  | succ fuel =>
    rw [eval_letIn_append cfg fuel h, eval_letIn]
    refine Agrees.contain_bind ?_ fun scope => ?_
    · exact (Agrees.compositional cfg).evalBindings (fun e => Serves.refl cfg 1 e fuel) safe names
        values env
    · rw [eval_letIn]
      exact (Agrees.contain_during_contain (.refl _)).1

theorem serves_merge (cfg : Config) {names : List String} {values : List Expr}
    (h : names.length = values.length) (names' : List String) (values' : List Expr) (body : Expr) :
    Serves cfg 0 (.letIn names values (.letIn names' values' body))
      (.letIn (names ++ names') (values ++ values') body) := by
  intro fuel env safe
  cases fuel with
  | zero => exact fun m => .outOfFuel
  | succ fuel =>
    rw [Nat.add_zero, eval_letIn_append cfg fuel h, eval_letIn]
    refine Agrees.contain_bind (.refl _) fun scope => ?_
    cases fuel with
    | zero =>
      intro m
      exact .outOfFuel
    | succ fuel =>
      have hself (e : Expr) := Serves.refl cfg 1 e fuel
      rw [eval_letIn]
      refine (Agrees.contain_during_contain ?_).2
      exact ((Agrees.compositional cfg).evalBindings hself safe names' values' scope).bind_eq
        fun scope => (hself body scope safe).during _ _

/-- What the reader makes of a binding in front of an expression, instead of binding one name at a
time. -/
theorem serves_bindFirst (cfg : Config) (name : String) (value body : Expr) :
    Serves cfg 1 (Reader.bindFirst name value body) (.letIn [name] [value] body) ∧
      Serves cfg 0 (.letIn [name] [value] body) (Reader.bindFirst name value body) := by
  cases body with
  | letIn names values body =>
    have hone : [name].length = [value].length := rfl
    exact ⟨serves_nest cfg hone names values body, serves_merge cfg hone names values body⟩
  | _ => exact ⟨.refl _ _ _, .refl _ _ _⟩

theorem bindFirst_ne (name : String) (value body : Expr) (clauses : List Clause) :
    Reader.bindFirst name value body ≠ .pattern clauses [] := by
  cases body <;> exact Expr.noConfusion

end

end ClauseLang
