import ClauseLang.Machine.Match
import ClauseLang.Machine.Native

/-!
Evaluation. The rules take the evaluator for what is nested in an expression as an argument, and
`eval` ties the knot on a bound for the nesting.

Guards are evaluated in safe mode, the bodies of clauses never are. Each body under evaluation
counts toward the depth limit.
-/

namespace ClauseLang

def UnaryOp.call (op : UnaryOp) (argument : Expr) : Eval Expr :=
  match op with
  | .abs => Eval.ofExcept (absolute argument)
  | .len => Eval.ofExcept (size argument)
  | .print => do
    Eval.print argument.render
    return argument

def Builtin.call (cfg : Config) (op : Builtin) (argument : Expr) (safe : Bool) : Eval Expr :=
  match op with
  | .unary op => op.call argument
  | .binary op => pure (.builtin (.waiting op argument))
  | .waiting op left => Eval.ofExcept (op.compute left argument)
  | .host name => Eval.ofExcept (cfg.host name argument safe)

/-- Evaluate the body of a clause, one level deeper. -/
def saturate (cfg : Config) (ev : Evaluator) (body : Expr) (env : Env) : Eval Expr := fun m =>
  if cfg.maxDepth ≤ m.depth then
    Eval.fail (.depthLimit cfg.maxDepth) m
  else
    match ev body env false { m with depth := m.depth + 1, peak := max m.peak (m.depth + 1) } with
    | .ok value m' => .ok value { m' with depth := m.depth }
    | .error halt m' => .error halt { m' with depth := m.depth }

/-- The clauses whose first formal matches, without that formal and with their new scopes. -/
def survivors (ev : Evaluator) (argument : Expr) :
    List Clause → List Env → Eval (List (Clause × Env))
  | .mk [] _ :: _, _ :: _ => Eval.fail .nothingToApply
  | .mk (formal :: row) body :: clauses, env :: envs => do
    match ← tryMatch ev formal argument env with
    | none => survivors ev argument clauses envs
    | some scope => return (.mk row body, scope) :: (← survivors ev argument clauses envs)
  | _, _ => pure []

/-- Give a closure one argument. When no formals are left, the first of the clauses that are still
there gives the result. -/
def applyPattern (cfg : Config) (ev : Evaluator) (clauses : List Clause) (captured : List Env)
    (argument : Expr) : Eval Expr := do
  if captured.isEmpty then
    Eval.fail .unevaluated
  else
    match ← survivors ev argument clauses captured with
    | [] => Eval.fail (.noMatch argument)
    | (first, scope) :: others =>
      let left := (first, scope) :: others
      match commonArity (left.map Prod.fst) with
      | .error rows => Eval.fail (.unevenRows rows)
      | .ok 0 => Eval.during .clauseBody (saturate cfg ev first.body scope)
      | .ok _ => return .pattern (left.map Prod.fst) (left.map Prod.snd)

def apply (cfg : Config) (ev : Evaluator) (callee argument : Expr) (safe : Bool) : Eval Expr :=
  Eval.contain safe <|
    match callee with
    | .pattern clauses captured => applyPattern cfg ev clauses captured argument
    | .builtin op => Eval.during (.builtin op) (op.call cfg argument safe)
    | callee => Eval.fail (.notApplicable callee argument)

/-- Evaluate the elements of a list, the first of which has the given index. -/
def evalElements (ev : Evaluator) (env : Env) (safe : Bool) : Nat → List Expr → Eval (List Expr)
  | _, [] => pure []
  | index, item :: items => do
    let value ← Eval.during (.element index) (ev item env safe)
    return value :: (← evalElements ev env safe (index + 1) items)

/-- Evaluate arguments and apply a value to each in turn. The first has the given position. -/
def applyAll (cfg : Config) (ev : Evaluator) (env : Env) (safe : Bool) :
    Nat → Expr → List Expr → Eval Expr
  | _, callee, [] => pure callee
  | position, callee, item :: items => do
    let argument ← Eval.during (.argument position) (ev item env safe)
    let value ← Eval.during (.apply position) (apply cfg ev callee argument safe)
    applyAll cfg ev env safe (position + 1) value items

/-- Bind names one after another, each value in the scope of the names before it. A pattern can name
itself. -/
def evalBindings (ev : Evaluator) (safe : Bool) : List String → List Expr → Env → Eval Env
  | name :: names, .pattern clauses [] :: values, env => do
    let scope ← Eval.extendRecursive env name clauses
    evalBindings ev safe names values scope
  | name :: names, value :: values, env => do
    let held ← Eval.during (.binding name) (ev value env safe)
    let scope ← Eval.extend env [(name, held)]
    evalBindings ev safe names values scope
  | _, _, env => pure env

theorem evalBindings_pattern (ev : Evaluator) (safe : Bool) (name : String) (names : List String)
    (clauses : List Clause) (values : List Expr) (env : Env) :
    evalBindings ev safe (name :: names) (.pattern clauses [] :: values) env = (do
      let scope ← Eval.extendRecursive env name clauses
      evalBindings ev safe names values scope) :=
  rfl

theorem evalBindings_of_ne (ev : Evaluator) (safe : Bool) (name : String) (names : List String)
    {value : Expr} (values : List Expr) (env : Env) (h : ∀ clauses, value ≠ .pattern clauses []) :
    evalBindings ev safe (name :: names) (value :: values) env = (do
      let held ← Eval.during (.binding name) (ev value env safe)
      let scope ← Eval.extend env [(name, held)]
      evalBindings ev safe names values scope) := by
  rw [evalBindings]
  rintro clauses rfl
  exact h clauses rfl

def evalLevel (cfg : Config) (ev : Evaluator) (e : Expr) (env : Env) (safe : Bool) : Eval Expr :=
  match e with
  | .identifier name =>
    match env.get? name with
    | some value => pure value
    | none => Eval.fail (.unbound name)
  | .number _ | .text _ | .label _ | .builtin _ => pure e
  | .list items => return .list (← evalElements ev env safe 0 items)
  | .application [] => Eval.fail .emptyApplication
  | .application (item :: items) => do
    let callee ← Eval.during .callee (ev item env safe)
    applyAll cfg ev env safe 1 callee items
  | .letIn names values body => do
    let scope ← evalBindings ev safe names values env
    Eval.during .letBody (ev body scope safe)
  | .pattern clauses [] => pure (.closeOver clauses env)
  | .pattern _ (_ :: _) => pure e
  | .cons _ _ | .guarded _ _ _ => Eval.fail (.matchOnly e)

/-- Compute a value on a native stack of its own: programs nest deeper than one stack reaches. -/
def onFreshStack {α : Type} (compute : Unit → α) : α :=
  (Task.spawn compute .dedicated).get

@[simp] theorem onFreshStack_eq {α : Type} (compute : Unit → α) :
    onFreshStack compute = compute () :=
  rfl

def levelsPerStack : Nat := 1024

/-- Evaluate with a bound on how deep evaluation nests. -/
def eval (cfg : Config) : Nat → Evaluator
  | 0, _, _, _, m => .error .outOfFuel m
  | fuel + 1, e, env, safe, m =>
    if fuel % levelsPerStack = 0 then
      onFreshStack fun _ => Eval.contain safe (evalLevel cfg (eval cfg fuel) e env safe) m
    else
      Eval.contain safe (evalLevel cfg (eval cfg fuel) e env safe) m

theorem eval_succ (cfg : Config) (fuel : Nat) (e : Expr) (env : Env) (safe : Bool) :
    eval cfg (fuel + 1) e env safe =
      Eval.contain safe (evalLevel cfg (eval cfg fuel) e env safe) := by
  funext m
  simp [eval]

/-- Evaluate a program in a root scope of its own. -/
def run (cfg : Config) (fuel : Nat) (program : Expr) : Eval Expr := do
  let root ← Eval.freshRoot
  eval cfg fuel program root false

/-- More levels than any run can nest. -/
def ampleFuel : Nat := 1 <<< 62

end ClauseLang
