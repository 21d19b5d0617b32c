import ClauseLang.Expr.Equal
import ClauseLang.Source.Visible

namespace ClauseLang

namespace Binding

def name : Binding → String
  | .value name _ | .recursive name _ => name

/-- What a name stands for in the scope whose innermost frame binds it. -/
def resolve (env : Env) : Binding → Expr
  | .value _ held => held
  | .recursive _ clauses => Expr.closeOver clauses env

end Binding

def setBinding (name : String) (held : Expr) : List Binding → List Binding
  | [] => [.value name held]
  | binding :: frame =>
    if binding.name = name then .value name held :: frame
    else binding :: setBinding name held frame

/-- A frame for named values. Of two values with one name the later is kept; `_` names nothing. -/
def frameOf (values : List (String × Expr)) : List Binding :=
  values.foldl (fun frame (name, held) =>
    if name = discard then frame else setBinding name held frame) []

def distinct : List String → List String
  | [] => []
  | x :: xs => x :: (distinct xs).filter (· ≠ x)

namespace Env

def bindings : Env → List Binding
  | .root _ bindings | .child _ bindings _ => bindings

def find? (name : String) : Env → Option Expr
  | .root mark bindings =>
    (bindings.find? (·.name = name)).map (·.resolve (.root mark bindings))
  | .child mark bindings parent =>
    match bindings.find? (·.name = name) with
    | some binding => some (binding.resolve (.child mark bindings parent))
    | none => parent.find? name

def get? (env : Env) (name : String) : Option Expr :=
  if name = discard then none else env.find? name

def contains (env : Env) (name : String) : Bool :=
  (env.get? name).isSome

def allNames : Env → List String
  | .root _ bindings => bindings.map Binding.name
  | .child _ bindings parent => bindings.map Binding.name ++ parent.allNames

/-- The names in scope, innermost frame first. -/
def names (env : Env) : List String :=
  distinct env.allNames

def depth : Env → Nat
  | .root _ _ => 1
  | .child _ _ parent => parent.depth + 1

def empty (mark : Nat) : Env :=
  .root mark []

def withBuiltins (mark : Nat) : Env :=
  .root mark (Builtin.table.map fun op => .value op.name (.builtin op))

/-- A scope with a new frame in front of the chain, or without any value the scope itself. Frames are
never changed. The mark of a new frame is given by whoever makes it. -/
def extend (env : Env) (mark : Nat) (values : List (String × Expr)) : Env :=
  match frameOf values with
  | [] => env
  | frame => .child mark frame env

def extendRecursive (env : Env) (mark : Nat) (name : String) (clauses : List Clause) : Env :=
  if name = discard then env else .child mark [.recursive name clauses] env

def describe (env : Env) : String :=
  "Environment \x7b names: [" ++ String.intercalate ", " (env.names.map Source.showText) ++
    "], depth: " ++ Nat.repr env.depth ++ " \x7d"

end Env

end ClauseLang
