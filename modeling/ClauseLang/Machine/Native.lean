import ClauseLang.Expr.Equal
import ClauseLang.Machine.Fault
import ClauseLang.Source.Word

/-!
What the builtins compute. Operands are checked for their kind first; arithmetic is exact and
refuses a result that is no word.
-/

namespace ClauseLang

def exactNumber (builtin : String) (n : Int) : Except Fault Expr :=
  match word? n with
  | some w => .ok (.number w)
  | none => .error (.overflow builtin)

namespace BinaryOp

def numbers (op : BinaryOp) (left right : Expr) : Except Fault (Int × Int) :=
  match left, right with
  | .number a, .number b => .ok (a.toInt, b.toInt)
  | _, _ => .error (.typeMismatch (.operands op.name "two numbers" left right))

def arithmetic (op : BinaryOp) (left right : Expr) (f : Int → Int → Int) : Except Fault Expr := do
  let (a, b) ← op.numbers left right
  exactNumber op.name (f a b)

/-- Quotient and remainder, toward zero. The remainder is refused where the quotient is. -/
def divide (op : BinaryOp) (left right : Expr) (f : Int → Int → Int) : Except Fault Expr := do
  let (a, b) ← op.numbers left right
  if b = 0 then .error .divisionByZero
  else
    let _ ← exactNumber op.name (a.tdiv b)
    exactNumber op.name (f a b)

def compare (op : BinaryOp) (left right : Expr) (f : Int → Int → Bool) : Except Fault Expr := do
  let (a, b) ← op.numbers left right
  .ok (.ofBool (f a b))

def truth (op : BinaryOp) (e : Expr) : Except Fault Bool :=
  match e with
  | .label "true" => .ok true
  | .label "false" => .ok false
  | e => .error (.typeMismatch (.operand op.name "a boolean label" e))

def logical (op : BinaryOp) (left right : Expr) (f : Bool → Bool → Bool) : Except Fault Expr := do
  let a ← op.truth left
  let b ← op.truth right
  .ok (.ofBool (f a b))

def join (op : BinaryOp) (left right : Expr) : Except Fault Expr :=
  match left, right with
  | .list xs, .list ys => .ok (.list (xs ++ ys))
  | .text s, .text t => .ok (.text (s ++ t))
  | _, _ => .error (.typeMismatch (.operands op.name "two lists or two strings" left right))

def compute (op : BinaryOp) (left right : Expr) : Except Fault Expr :=
  match op with
  | .add => op.arithmetic left right (· + ·)
  | .sub => op.arithmetic left right (· - ·)
  | .mul => op.arithmetic left right (· * ·)
  | .div => op.divide left right Int.tdiv
  | .rem => op.divide left right Int.tmod
  | .greater => op.compare left right fun a b => b < a
  | .greaterEqual => op.compare left right fun a b => b ≤ a
  | .less => op.compare left right fun a b => a < b
  | .lessEqual => op.compare left right fun a b => a ≤ b
  | .equal => .ok (.ofBool (left.equal right))
  | .notEqual => .ok (.ofBool (!left.equal right))
  | .both => op.logical left right and
  | .either => op.logical left right or
  | .concat => op.join left right

end BinaryOp

def absolute (e : Expr) : Except Fault Expr :=
  match e with
  | .number n => exactNumber UnaryOp.abs.name n.toInt.natAbs
  | e => .error (.typeMismatch (.operand UnaryOp.abs.name "a number" e))

/-- The number of characters of a string or of elements of a list. -/
def size (e : Expr) : Except Fault Expr :=
  match e with
  | .text s => .ok (.number (Int64.ofNat s.length))
  | .list xs => .ok (.number (Int64.ofNat xs.length))
  | e => .error (.typeMismatch (.operand UnaryOp.len.name "a string or a list" e))

end ClauseLang
