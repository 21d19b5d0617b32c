/-!
Expressions. A program is an expression, and so is every value: evaluation leads to a literal, a
list, a builtin, or a pattern that has captured its scopes.
-/

namespace ClauseLang

/-- A builtin of one operand. -/
inductive UnaryOp where
  | abs
  | len
  | print
deriving DecidableEq

/-- A builtin of two operands, which takes them one at a time. -/
inductive BinaryOp where
  | add
  | sub
  | mul
  | div
  | rem
  | greater
  | greaterEqual
  | less
  | lessEqual
  | equal
  | notEqual
  | both
  | either
  | concat
deriving DecidableEq

def UnaryOp.name : UnaryOp → String
  | .abs => "abs"
  | .len => "len"
  | .print => "print"

def BinaryOp.name : BinaryOp → String
  | .add => "+"
  | .sub => "-"
  | .mul => "*"
  | .div => "/"
  | .rem => "%"
  | .greater => ">"
  | .greaterEqual => ">="
  | .less => "<"
  | .lessEqual => "<="
  | .equal => "=="
  | .notEqual => "!="
  | .both => "&&"
  | .either => "||"
  | .concat => "++"

mutual

/-- Names and values of a `letIn` are paired up to the shorter list, each value in the scope of the
names before it. A `cons` and a `guarded` expression are meant for the rows of clauses; `constant`
guards are left alone by lifting. A pattern with captured scopes, one for each clause, is a
closure. -/
inductive Expr where
  | application (items : List Expr)
  | identifier (name : String)
  | label (name : String)
  | text (value : String)
  | number (value : Int64)
  | list (items : List Expr)
  | cons (head tail : Expr)
  | letIn (names : List String) (values : List Expr) (body : Expr)
  | guarded (inner condition : Expr) (constant : Bool)
  | pattern (clauses : List Clause) (captured : List Env)
  | builtin (op : Builtin)

/-- A row of formal parameters with the body that they guard. -/
inductive Clause where
  | mk (row : List Expr) (body : Expr)

/-- A native function. One that is `waiting` has got the first of its two operands. The names of
`host` functions are given their meaning by whoever runs the program. -/
inductive Builtin where
  | unary (op : UnaryOp)
  | binary (op : BinaryOp)
  | waiting (op : BinaryOp) (left : Expr)
  | host (name : String)

/-- A name in a frame. A recursive one stands for a pattern that closes over its own frame. -/
inductive Binding where
  | value (name : String) (held : Expr)
  | recursive (name : String) (clauses : List Clause)

/-- A scope: a chain of frames, innermost first. Two scopes are the same if their innermost frames
have the same mark. -/
inductive Env where
  | root (mark : Nat) (bindings : List Binding)
  | child (mark : Nat) (bindings : List Binding) (parent : Env)

end

/-- The name that is never bound. -/
def discard : String := "_"

namespace Clause

def row : Clause → List Expr
  | .mk row _ => row

def body : Clause → Expr
  | .mk _ body => body

end Clause

/-- Two rows of a pattern have different lengths. -/
structure UnevenRows where
  expected : Nat
  found : Nat
deriving DecidableEq

namespace UnevenRows

def message (e : UnevenRows) : String :=
  "pattern clauses have differing arity: expected " ++ Nat.repr e.expected ++
    ", found " ++ Nat.repr e.found

end UnevenRows

/-- The length of the first row, and zero for a pattern without clauses. -/
def arity : List Clause → Nat
  | [] => 0
  | clause :: _ => clause.row.length

def commonArity (clauses : List Clause) : Except UnevenRows Nat :=
  match clauses.find? (fun clause => clause.row.length != arity clauses) with
  | some clause => .error ⟨arity clauses, clause.row.length⟩
  | none => .ok (arity clauses)

theorem commonArity_eq_ok_iff {clauses : List Clause} {n : Nat} :
    commonArity clauses = .ok n ↔
      n = arity clauses ∧ ∀ clause ∈ clauses, clause.row.length = arity clauses := by
  unfold commonArity
  split
  next clause h =>
    have hm := List.mem_of_find?_eq_some h
    have hne := List.find?_some h
    simp only [bne_iff_ne, ne_eq] at hne
    simp only [reduceCtorEq, false_iff]
    exact fun ⟨_, h⟩ => hne (h clause hm)
  next h =>
    simp only [List.find?_eq_none, bne_iff_ne, ne_eq, Decidable.not_not] at h
    simp only [Except.ok.injEq, eq_comm (b := n)]
    exact ⟨fun hn => ⟨hn, h⟩, fun hn => hn.1⟩

theorem commonArity_of_forall {clauses : List Clause} {n : Nat} (hne : clauses ≠ [])
    (h : ∀ clause ∈ clauses, clause.row.length = n) : commonArity clauses = .ok n := by
  have harity : arity clauses = n := by
    cases clauses with
    | nil => exact absurd rfl hne
    | cons clause clauses => exact h clause List.mem_cons_self
  exact commonArity_eq_ok_iff.2 ⟨harity.symm, fun clause hc => (h clause hc).trans harity.symm⟩

/-- The common length depends on the lengths of the rows alone. -/
theorem commonArity_congr {clauses clauses' : List Clause}
    (h : clauses.map (·.row.length) = clauses'.map (·.row.length)) :
    commonArity clauses = commonArity clauses' := by
  have harity (cs : List Clause) : arity cs = (cs.map (·.row.length)).headD 0 := by
    cases cs <;> rfl
  have hfind (cs : List Clause) : (cs.find? fun c => c.row.length != arity cs).map (·.row.length) =
      (cs.map (·.row.length)).find? (· != arity cs) := by
    rw [List.find?_map]
    rfl
  have hsame : arity clauses = arity clauses' := by rw [harity, harity, h]
  have hfound := hfind clauses
  rw [h, hsame, ← hfind clauses'] at hfound
  unfold commonArity
  rw [hsame]
  revert hfound
  cases clauses.find? _ <;> cases clauses'.find? _ <;> simp +contextual

namespace Expr

def truthy : Expr := .label "true"

def falsy : Expr := .label "false"

def ofBool (b : Bool) : Expr :=
  if b then truthy else falsy

def isTruthy : Expr → Bool
  | .label name => name == "true"
  | _ => false

/-- A pattern that has been evaluated. -/
def isClosure : Expr → Bool
  | .pattern _ captured => !captured.isEmpty
  | _ => false

/-- The clauses over one scope. -/
def closeOver (clauses : List Clause) (env : Env) : Expr :=
  .pattern clauses (List.replicate clauses.length env)

/-- How a message names the form of an expression. -/
def kind : Expr → String
  | .application _ => "application"
  | .identifier _ => "identifier"
  | .label _ => "label"
  | .text _ => "string"
  | .number _ => "number"
  | .list _ => "list"
  | .cons _ _ => "list constructor"
  | .letIn _ _ _ => "let"
  | .guarded _ _ _ => "where"
  | .pattern _ _ => "pattern"
  | .builtin _ => "builtin"

end Expr

end ClauseLang
