import ClauseLang.Machine.Fault
import ClauseLang.Scope.Basic

namespace ClauseLang

/-- The meaning of a host function, from its name, the argument and the mode: in safe mode errors are
contained. -/
abbrev Host := String → Expr → Bool → Except Fault Expr

structure Config where
  /-- How many clause bodies may be under evaluation at a time. -/
  maxDepth : Nat := 10000
  host : Host := fun name argument _ => .error (.notApplicable (.builtin (.host name)) argument)

structure Machine where
  /-- The number of clause bodies under evaluation. -/
  depth : Nat := 0
  peak : Nat := 0
  nextMark : Nat := 0
  printed : Array String := #[]

namespace Machine

def output (m : Machine) : String :=
  String.join (m.printed.toList.map (· ++ "\n"))

end Machine

/-- Why a computation has no value. Running out of fuel is not an error of the program. -/
inductive Halt where
  | error (e : RuntimeError)
  | outOfFuel

abbrev Eval := EStateM Halt Machine

namespace Eval

variable {α : Type}

def fail (fault : Fault) : Eval α := fun m =>
  .error (.error { fault }) m

def ofExcept : Except Fault α → Eval α
  | .ok a => pure a
  | .error fault => fail fault

/-- Note what was being done if the computation fails. -/
def during (step : Step) (x : Eval α) : Eval α := fun m =>
  match x m with
  | .error (.error e) m' => .error (.error { e with trail := step :: e.trail }) m'
  | r => r

/-- In safe mode an error becomes the label `.false` where it happens. -/
def contain (safe : Bool) (x : Eval Expr) : Eval Expr := fun m =>
  match x m with
  | .error (.error e) m' => if safe then .ok .falsy m' else .error (.error e) m'
  | r => r

def freshMark : Eval Nat := fun m =>
  .ok m.nextMark { m with nextMark := m.nextMark + 1 }

def freshRoot : Eval Env := do
  return .withBuiltins (← freshMark)

def extend (env : Env) (values : List (String × Expr)) : Eval Env := do
  return env.extend (← freshMark) values

def extendRecursive (env : Env) (name : String) (clauses : List Clause) : Eval Env := do
  return env.extendRecursive (← freshMark) name clauses

def print (line : String) : Eval Unit := fun m =>
  .ok () { m with printed := m.printed.push line }

end Eval

end ClauseLang
