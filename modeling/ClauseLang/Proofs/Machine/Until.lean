import ClauseLang.Proofs.Machine.Limit

/-!
Evaluation that stops before certain applications are made. A run that it does not stop makes none
of them, and ends as it does without stops.
-/

namespace ClauseLang

open Eval

def Eval.stop : Eval Expr := fun m =>
  .error .outOfFuel m

theorem Eval.stop_extends (x : Eval Expr) : Extends stop x :=
  fun _ hends => nomatch hends

/-- Give a value an argument, unless evaluation stops there. -/
def applyUntil (stops : Expr → Expr → Bool) (cfg : Config) (ev : Evaluator)
    (callee argument : Expr) (safe : Bool) : Eval Expr :=
  if stops callee argument then stop else apply cfg ev callee argument safe

def applyAllUntil (stops : Expr → Expr → Bool) (cfg : Config) (ev : Evaluator) (env : Env)
    (safe : Bool) : Nat → Expr → List Expr → Eval Expr
  | _, callee, [] => pure callee
  | position, callee, item :: items => do
    let argument ← during (.argument position) (ev item env safe)
    let value ← during (.apply position) (applyUntil stops cfg ev callee argument safe)
    applyAllUntil stops cfg ev env safe (position + 1) value items

def evalLevelUntil (stops : Expr → Expr → Bool) (cfg : Config) (ev : Evaluator) (e : Expr)
    (env : Env) (safe : Bool) : Eval Expr :=
  match e with
  | .application (item :: items) => do
    let callee ← during .callee (ev item env safe)
    applyAllUntil stops cfg ev env safe 1 callee items
  | e => evalLevel cfg ev e env safe

/-- Evaluate until a value is applied to an argument at which to stop. -/
def evalUntil (stops : Expr → Expr → Bool) (cfg : Config) : Nat → Evaluator
  | 0, _, _, _ => stop
  | fuel + 1, e, env, safe =>
    contain safe (evalLevelUntil stops cfg (evalUntil stops cfg fuel) e env safe)

def runUntil (stops : Expr → Expr → Bool) (cfg : Config) (fuel : Nat) (program : Expr) :
    Eval Expr := do
  let root ← freshRoot
  evalUntil stops cfg fuel program root false

section

variable {stops : Expr → Expr → Bool} {cfg : Config} {ev ev' : Evaluator}

section

variable (hev : ∀ e env safe, Extends (ev e env safe) (ev' e env safe))

include hev

theorem applyUntil_extends (callee argument : Expr) (safe : Bool) :
    Extends (applyUntil stops cfg ev callee argument safe)
      (apply cfg ev' callee argument safe) := by
  unfold applyUntil
  split
  · exact stop_extends _
  · exact (Extends.compositional cfg).apply hev callee argument safe

theorem applyAllUntil_extends (env : Env) (safe : Bool) (position : Nat) (callee : Expr)
    (items : List Expr) :
    Extends (applyAllUntil stops cfg ev env safe position callee items)
      (applyAll cfg ev' env safe position callee items) := by
  induction items generalizing position callee with
  | nil => exact .refl _
  | cons item items ih =>
    refine ((hev item env safe).during _).bind fun argument => ?_
    exact ((applyUntil_extends hev callee argument safe).during _).bind fun value =>
      ih (position + 1) value

theorem evalLevelUntil_extends (e : Expr) (env : Env) (safe : Bool) :
    Extends (evalLevelUntil stops cfg ev e env safe) (evalLevel cfg ev' e env safe) := by
  unfold evalLevelUntil
  split
  next item items =>
    exact ((hev item env safe).during _).bind fun callee =>
      applyAllUntil_extends hev env safe 1 callee items
  · exact (Extends.compositional cfg).evalLevel hev e env safe

end

theorem evalUntil_extends (fuel : Nat) (e : Expr) (env : Env) (safe : Bool) :
    Extends (evalUntil stops cfg fuel e env safe) (eval cfg fuel e env safe) := by
  induction fuel generalizing e env safe with
  | zero => exact stop_extends _
  | succ fuel ih =>
    rw [eval_succ]
    exact .contain safe (evalLevelUntil_extends ih e env safe)

/-- What does not stop goes on as it would without stops. -/
theorem runUntil_extends (fuel : Nat) (program : Expr) :
    Extends (runUntil stops cfg fuel program) (run cfg fuel program) :=
  (Extends.refl freshRoot).bind fun root => evalUntil_extends fuel program root false

end

section

variable {cfg : Config} {ev : Evaluator}

theorem applyAllUntil_never (env : Env) (safe : Bool) (position : Nat) (callee : Expr)
    (items : List Expr) :
    applyAllUntil (fun _ _ => false) cfg ev env safe position callee items =
      applyAll cfg ev env safe position callee items := by
  induction items generalizing position callee with
  | nil => rfl
  | cons item items ih =>
    rw [applyAllUntil, applyAll]
    refine congrArg _ (funext fun argument => congrArg _ (funext fun value => ?_))
    exact ih (position + 1) value

theorem evalUntil_never (fuel : Nat) : evalUntil (fun _ _ => false) cfg fuel = eval cfg fuel := by
  induction fuel with
  | zero => rfl
  | succ fuel ih =>
    funext e env safe
    rw [eval_succ, evalUntil, ih]
    refine congrArg _ ?_
    unfold evalLevelUntil
    split
    · rw [evalLevel]
      exact congrArg _ (funext fun callee => applyAllUntil_never env safe 1 callee _)
    · rfl

theorem runUntil_never (fuel : Nat) (program : Expr) :
    runUntil (fun _ _ => false) cfg fuel program = run cfg fuel program := by
  rw [runUntil, evalUntil_never, run]

end

def BinaryOp.isTest : BinaryOp → Bool
  | .equal | .notEqual => true
  | _ => false

namespace Expr

mutual

def hasClosure : Expr → Bool
  | .pattern _ _ => true
  | .list items => itemsHaveClosure items
  | .builtin (.waiting _ left) => left.hasClosure
  | _ => false

def itemsHaveClosure : List Expr → Bool
  | [] => false
  | item :: items => item.hasClosure || itemsHaveClosure items

end

mutual

def isFirstOrder : Expr → Bool
  | .number _ | .text _ | .label _ => true
  | .list items => itemsFirstOrder items
  | _ => false

def itemsFirstOrder : List Expr → Bool
  | [] => true
  | item :: items => item.isFirstOrder && itemsFirstOrder items

end

mutual

theorem hasClosure_of_isFirstOrder {v : Expr} (h : v.isFirstOrder) : v.hasClosure = false := by
  match v with
  | .number _ | .text _ | .label _ => rfl
  | .list items => exact itemsHaveClosure_of_itemsFirstOrder h
termination_by sizeOf v

theorem itemsHaveClosure_of_itemsFirstOrder {items : List Expr} (h : itemsFirstOrder items) :
    itemsHaveClosure items = false := by
  match items with
  | [] => rfl
  | item :: items =>
    rw [itemsFirstOrder, Bool.and_eq_true] at h
    rw [itemsHaveClosure, hasClosure_of_isFirstOrder h.1, itemsHaveClosure_of_itemsFirstOrder h.2]
    rfl
termination_by sizeOf items

end

/-- The application is a test for equality, and an operand has a closure in it. -/
def testsClosures : Expr → Expr → Bool
  | .builtin (.waiting op left), right => op.isTest && (left.hasClosure || right.hasClosure)
  | _, _ => false

end Expr

end ClauseLang
