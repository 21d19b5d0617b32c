import ClauseLang.Proofs.Machine.Follows

/-!
Values that the builtins and the formals cannot tell apart. Numbers, strings and labels are the
same, lists have related elements, and of anything else nothing is known.
-/

namespace ClauseLang

namespace Expr

/-- A literal or a list. -/
def isData : Expr → Bool
  | .number _ | .text _ | .label _ | .list _ => true
  | _ => false

def number? : Expr → Option Int64
  | .number n => some n
  | _ => none

def label? : Expr → Option String
  | .label name => some name
  | _ => none

theorem number?_of_isData_eq_false {e : Expr} (h : e.isData = false) : e.number? = none := by
  cases e with
  | number => cases h
  | _ => rfl

theorem label?_of_isData_eq_false {e : Expr} (h : e.isData = false) : e.label? = none := by
  cases e with
  | label => cases h
  | _ => rfl

end Expr

inductive SameData (V : Expr → Expr → Prop) : Expr → Expr → Prop
  | number (n : Int64) : SameData V (.number n) (.number n)
  | text (s : String) : SameData V (.text s) (.text s)
  | label (name : String) : SameData V (.label name) (.label name)
  | list {xs ys : List Expr} : List.Forall₂ V xs ys → SameData V (.list xs) (.list ys)
  | other {a b : Expr} : a.isData = false → b.isData = false → SameData V a b

/-- Both went well with related results, or both failed in the same way. -/
inductive ExceptRel {α β : Type} (R : α → β → Prop) : Except Fault α → Except Fault β → Prop
  | ok {a : α} {b : β} : R a b → ExceptRel R (.ok a) (.ok b)
  | error {fault fault' : Fault} : fault.Similar fault' → ExceptRel R (.error fault) (.error fault')

namespace ExceptRel

variable {α β γ δ : Type} {R : α → β → Prop} {S : γ → δ → Prop}

theorem bind {x : Except Fault α} {y : Except Fault β} {f : α → Except Fault γ}
    {g : β → Except Fault δ} (h : ExceptRel R x y) (hf : ∀ a b, R a b → ExceptRel S (f a) (g b)) :
    ExceptRel S (x >>= f) (y >>= g) := by
  cases h with
  | ok hab => exact hf _ _ hab
  | error he => exact .error he

end ExceptRel

theorem Eval.Follows.ofExcept {W α β : Type} [Preorder W] {L : Link W} {w : W}
    {R : W → α → β → Prop} {x : Except Fault α} {y : Except Fault β} (h : ExceptRel (R w) x y) :
    Eval.Follows L w R (Eval.ofExcept x) fun _ => Eval.ofExcept y := by
  cases h with
  | ok hab => exact .pure hab
  | error he => exact .fail he

/-- A relation of values that data are respected by. -/
structure DataRel (V : Expr → Expr → Prop) : Prop where
  sameData : ∀ {a b}, V a b → SameData V a b
  number : ∀ n, V (.number n) (.number n)
  text : ∀ s, V (.text s) (.text s)
  label : ∀ name, V (.label name) (.label name)
  list : ∀ {xs ys}, List.Forall₂ V xs ys → V (.list xs) (.list ys)

namespace SameData

variable {V : Expr → Expr → Prop} {a b : Expr}

theorem number?_eq (h : SameData V a b) : a.number? = b.number? := by
  cases h with
  | other ha hb =>
    rw [Expr.number?_of_isData_eq_false ha, Expr.number?_of_isData_eq_false hb]
  | _ => rfl

theorem label?_eq (h : SameData V a b) : a.label? = b.label? := by
  cases h with
  | other ha hb => rw [Expr.label?_of_isData_eq_false ha, Expr.label?_of_isData_eq_false hb]
  | _ => rfl

theorem isTruthy_eq (h : SameData V a b) : a.isTruthy = b.isTruthy := by
  have htruthy (e : Expr) : e.isTruthy = (e.label? == some "true") := by
    cases e <;> rfl
  rw [htruthy, htruthy, h.label?_eq]

end SameData

section

variable {V : Expr → Expr → Prop} {op : BinaryOp} {a b left left' right right' : Expr}

theorem BinaryOp.numbers_eq (op : BinaryOp) (left right : Expr) :
    op.numbers left right = match left.number?, right.number? with
      | some a, some b => .ok (a.toInt, b.toInt)
      | _, _ => .error (.typeMismatch (.operands op.name "two numbers" left right)) := by
  cases left with
  | number => cases right <;> rfl
  | _ => rfl

theorem BinaryOp.truth_eq (op : BinaryOp) (e : Expr) :
    op.truth e = match e.label? with
      | some "true" => .ok true
      | some "false" => .ok false
      | _ => .error (.typeMismatch (.operand op.name "a boolean label" e)) := by
  cases e with
  | label name =>
    simp only [BinaryOp.truth, Expr.label?]
    split <;> simp_all
  | _ => rfl

theorem BinaryOp.numbers_alike (hl : SameData V left left') (hr : SameData V right right') :
    ExceptRel Eq (op.numbers left right) (op.numbers left' right') := by
  rw [numbers_eq, numbers_eq, hl.number?_eq, hr.number?_eq]
  split
  · exact .ok rfl
  · exact .error rfl

theorem BinaryOp.truth_alike (h : SameData V a b) : ExceptRel Eq (op.truth a) (op.truth b) := by
  rw [truth_eq, truth_eq, h.label?_eq]
  split
  · exact .ok rfl
  · exact .ok rfl
  · exact .error rfl

theorem BinaryOp.join_error (op : BinaryOp) (h : left.isData = false ∨ right.isData = false) :
    ∃ clash, op.join left right = .error (.typeMismatch clash) := by
  unfold BinaryOp.join
  split
  · rcases h with h | h <;> cases h
  · rcases h with h | h <;> cases h
  · exact ⟨_, rfl⟩

theorem BinaryOp.join_alike (hV : DataRel V) (hl : SameData V left left')
    (hr : SameData V right right') : ExceptRel V (op.join left right) (op.join left' right') := by
  have hother (h : left.isData = false ∨ right.isData = false)
      (h' : left'.isData = false ∨ right'.isData = false) :
      ExceptRel V (op.join left right) (op.join left' right') := by
    obtain ⟨clash, h⟩ := op.join_error h
    obtain ⟨clash', h'⟩ := op.join_error h'
    rw [h, h']
    exact .error rfl
  cases hl with
  | other ha hb => exact hother (.inl ha) (.inl hb)
  | number n | label name =>
    cases hr with
    | other ha hb => exact hother (.inr ha) (.inr hb)
    | _ => exact .error rfl
  | text s =>
    cases hr with
    | other ha hb => exact hother (.inr ha) (.inr hb)
    | text t => exact .ok (hV.text _)
    | _ => exact .error rfl
  | list hxs =>
    cases hr with
    | other ha hb => exact hother (.inr ha) (.inr hb)
    | list hys => exact .ok (hV.list (List.rel_append hxs hys))
    | _ => exact .error rfl

theorem exactNumber_alike (hV : DataRel V) (builtin : String) (n : Int) :
    ExceptRel V (exactNumber builtin n) (exactNumber builtin n) := by
  unfold exactNumber
  split
  · exact .ok (hV.number _)
  · exact .error rfl

theorem DataRel.ofBool (hV : DataRel V) (b : Bool) : V (.ofBool b) (.ofBool b) := by
  cases b <;> exact hV.label _

theorem absolute_error (h : a.isData = false) :
    ∃ clash, absolute a = .error (.typeMismatch clash) := by
  cases a with
  | number => cases h
  | _ => exact ⟨_, rfl⟩

theorem absolute_alike (hV : DataRel V) (h : SameData V a b) :
    ExceptRel V (absolute a) (absolute b) := by
  cases h with
  | number n => exact exactNumber_alike hV _ _
  | other ha hb =>
    obtain ⟨clash, ha⟩ := absolute_error ha
    obtain ⟨clash', hb⟩ := absolute_error hb
    rw [ha, hb]
    exact .error rfl
  | _ => exact .error rfl

theorem size_error (h : a.isData = false) : ∃ clash, size a = .error (.typeMismatch clash) := by
  cases a with
  | text | list => cases h
  | _ => exact ⟨_, rfl⟩

theorem size_alike (hV : DataRel V) (h : SameData V a b) : ExceptRel V (size a) (size b) := by
  cases h with
  | number | label => exact .error rfl
  | text s => exact .ok (hV.number _)
  | @list xs ys hxs =>
    rw [size, size, hxs.length_eq]
    exact .ok (hV.number _)
  | other ha hb =>
    obtain ⟨_, ha⟩ := size_error ha
    obtain ⟨_, hb⟩ := size_error hb
    rw [ha, hb]
    exact .error rfl

/-- Builtins other than the tests for equality. -/
theorem BinaryOp.compute_alike (hV : DataRel V) (hequal : op ≠ .equal) (hnotEqual : op ≠ .notEqual)
    (hl : SameData V left left') (hr : SameData V right right') :
    ExceptRel V (op.compute left right) (op.compute left' right') := by
  have hnumbers : ExceptRel Eq (op.numbers left right) (op.numbers left' right') :=
    numbers_alike hl hr
  have harithmetic (f : Int → Int → Int) :
      ExceptRel V (op.arithmetic left right f) (op.arithmetic left' right' f) := by
    refine hnumbers.bind ?_
    rintro ⟨a, b⟩ _ rfl
    exact exactNumber_alike hV _ _
  have hdivide (f : Int → Int → Int) :
      ExceptRel V (op.divide left right f) (op.divide left' right' f) := by
    refine hnumbers.bind ?_
    rintro ⟨a, b⟩ _ rfl
    dsimp only
    split
    · exact .error rfl
    · exact (exactNumber_alike hV _ _).bind fun _ _ _ => exactNumber_alike hV _ _
  have hcompare (f : Int → Int → Bool) :
      ExceptRel V (op.compare left right f) (op.compare left' right' f) := by
    refine hnumbers.bind ?_
    rintro ⟨a, b⟩ _ rfl
    exact .ok (hV.ofBool _)
  have hlogical (f : Bool → Bool → Bool) :
      ExceptRel V (op.logical left right f) (op.logical left' right' f) := by
    refine (truth_alike hl).bind ?_
    rintro a _ rfl
    refine (truth_alike hr).bind ?_
    rintro b _ rfl
    exact .ok (hV.ofBool _)
  cases op with
  | add | sub | mul => exact harithmetic _
  | div | rem => exact hdivide _
  | greater | greaterEqual | less | lessEqual =>
    rw [BinaryOp.compute, BinaryOp.compute]
    exact hcompare _
  | equal => exact absurd rfl hequal
  | notEqual => exact absurd rfl hnotEqual
  | both | either => exact hlogical _
  | concat => exact BinaryOp.join_alike hV hl hr

end

end ClauseLang
