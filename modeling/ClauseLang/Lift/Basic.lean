import ClauseLang.Expr.Names
import ClauseLang.Lift.Free

namespace ClauseLang

/-- The names that are no longer free, the next number to try, and the patterns lifted so far,
innermost first. -/
structure LiftState where
  taken : List String
  counter : Nat := 0
  lifted : List (String × List Clause) := []

abbrev Lifting := EStateM LiftError LiftState

namespace Lifting

def numbered (stem : String) (n : Nat) : String :=
  stem ++ "_" ++ Nat.repr n

/-- The first number from `n` on that makes a name not taken. So many tries are enough as there are
names taken, and one. -/
def firstFree (taken : List String) (stem : String) : Nat → Nat → Nat
  | 0, n => n
  | tries + 1, n => if numbered stem n ∈ taken then firstFree taken stem tries (n + 1) else n

/-- A new name. One counter serves all stems. -/
def fresh (stem : String) : Lifting String := fun s =>
  let n := firstFree s.taken stem (s.taken.length + 1) s.counter
  let name := numbered stem n
  .ok name { s with taken := name :: s.taken, counter := n + 1 }

def call (name : String) (arguments : List String) : Expr :=
  if arguments.isEmpty then .identifier name
  else .application ((name :: arguments).map .identifier)

def outside (bound : List String) (outer : List (String × Expr)) : List (String × Expr) :=
  outer.filter fun (name, _) => name ∉ bound

def mentioned (e : Expr) (outer : List (String × Expr)) : List (String × Expr) :=
  outer.filter fun (name, _) => name ∈ e.identifiers

def wrap (bindings : List (String × Expr)) (e : Expr) : Expr :=
  if bindings.isEmpty then e else .letIn (bindings.map Prod.fst) (bindings.map Prod.snd) e

/-- The leading formals for names taken from around: the names themselves, but new ones for those
that the row binds. -/
def leading (locals : List String) : List String → Lifting (List String)
  | [] => pure []
  | name :: names => do
    let param ← if name ∈ locals then fresh name else pure name
    return param :: (← leading locals names)

/-- What the old names stand for behind the leading formals. -/
def outerNames (captured params : List String) (self : Option String) (name : String) :
    List (String × Expr) :=
  ((captured.zip params).filter fun (old, new) => old ≠ new).map
      (fun (old, new) => (old, .identifier new)) ++
    (self.map fun self => (self, call name params)).toList

/-- Give a pattern its name and replace it by a call. `clauses` lifts its clauses, given the name
and what the pattern takes from around. -/
def replace (around : Surroundings) (clauses : List Clause)
    (lift : String → List String → Lifting (List Clause)) : Lifting Expr := do
  match freeNames around clauses with
  | .error e => throw e
  | .ok captured =>
    let name ← fresh "lambda"
    let clauses ← lift name captured
    modify fun s => { s with lifted := s.lifted ++ [(name, clauses)] }
    return call name captured

mutual

/-- Lift the patterns of an expression. Each gets a name of its own; what it took from around it becomes
leading formals, and the pattern is replaced by its name applied to those names.

A row may bind a name again that the pattern takes from around. The leading formal then has another
name, and a guard that stands before the binding gets the old name back by a `letIn`. In the same
way a pattern that names itself gets its lifted form. -/
def expr (builtins defined : List String) : Expr → Lifting Expr
  | .pattern clauses _ =>
    replace { defined, builtins } clauses fun name captured =>
      clauseList builtins defined none name captured clauses
  | .letIn names values body => do
    let (values, inner) ← bindings builtins defined names values
    return .letIn names values (← expr builtins inner body)
  | .application items => return .application (← exprs builtins defined items)
  | .list items => return .list (← exprs builtins defined items)
  | e => pure e

def exprs (builtins defined : List String) : List Expr → Lifting (List Expr)
  | [] => pure []
  | item :: items => do
    let item ← expr builtins defined item
    return item :: (← exprs builtins defined items)

/-- Lift the values of a `letIn`; also the names in scope after it. -/
def bindings (builtins defined : List String) :
    List String → List Expr → Lifting (List Expr × List String)
  | name :: names, .pattern clauses _ :: values => do
    let value ← replace { defined, builtins, self := some name } clauses fun lifted captured =>
      clauseList builtins defined (some name) lifted captured clauses
    let (values, inner) ← bindings builtins (name :: defined) names values
    return (value :: values, inner)
  | name :: names, value :: values => do
    let value ← expr builtins defined value
    let (values, inner) ← bindings builtins (name :: defined) names values
    return (value :: values, inner)
  | _, _ => pure ([], defined)

/-- Lift the clauses of a pattern with a name that takes the captured names from around it. -/
def clauseList (builtins defined : List String) (self : Option String) (name : String)
    (captured : List String) : List Clause → Lifting (List Clause)
  | [] => pure []
  | .mk formals body :: clauses => do
    let locals := Expr.rowNames formals
    let params ← leading locals captured
    let outer := outerNames captured params self name
    let inner := locals ++ params ++ defined
    let formals ← row builtins inner outer [] formals
    let used := mentioned body (outside locals outer)
    let body ← expr builtins (used.map Prod.fst ++ inner) body
    let clause := Clause.mk (params.map .identifier ++ formals) (wrap used body)
    return clause :: (← clauseList builtins defined self name captured clauses)

def row (builtins defined : List String) (outer : List (String × Expr)) :
    List String → List Expr → Lifting (List Expr)
  | _, [] => pure []
  | bound, first :: rest => do
    let seen := bound ++ first.boundNames
    let lifted ← formal builtins defined (outside seen outer) first
    return lifted :: (← row builtins defined outer seen rest)

/-- Lift the guards of a formal. A constant condition gets the old names back and no more. -/
def formal (builtins defined : List String) (outer : List (String × Expr)) : Expr → Lifting Expr
  | .cons head tail => do
    let head ← formal builtins defined outer head
    return .cons head (← formal builtins defined outer tail)
  | .guarded inner condition constant => do
    let inner ← formal builtins defined outer inner
    let used := mentioned condition outer
    let condition ←
      if constant then pure condition else expr builtins (used.map Prod.fst ++ defined) condition
    return .guarded inner (wrap used condition) constant
  | e => pure e

end

end Lifting

/-- Lift all patterns of a program, with the given names always defined. The lifted patterns are
bound around what is left of it. -/
def liftWith (builtins : List String) (program : Expr) : Except LiftError Expr :=
  match Lifting.expr builtins [] program { taken := program.identifiers } with
  | .error e _ => .error e
  | .ok body s =>
    .ok (Lifting.wrap (s.lifted.map fun (name, clauses) => (name, .pattern clauses [])) body)

def lift (program : Expr) : Except LiftError Expr :=
  liftWith Builtin.names program

end ClauseLang
