import ClauseLang.Machine.Run

namespace ClauseLang

/-- A builtin finds fault with its operands. -/
def Fault.isNative : Fault → Bool
  | .typeMismatch _ | .divisionByZero | .overflow _ => true
  | _ => false

/-- A property that numbers, strings and truth values have, and a list if and only if its elements
do. -/
structure OfData (V : Expr → Prop) : Prop where
  number : ∀ n, V (.number n)
  text : ∀ s, V (.text s)
  ofBool : ∀ b, V (.ofBool b)
  list_iff : ∀ {items}, V (.list items) ↔ ∀ item ∈ items, V item

/-- What a builtin comes to if its operands have a property. -/
inductive Computed (V : Expr → Prop) : Except Fault Expr → Prop
  | ok {v : Expr} : V v → Computed V (.ok v)
  | error {fault : Fault} : fault.isNative → Computed V (.error fault)

section

variable {V : Expr → Prop} {left right v : Expr}

theorem computed_exactNumber (hV : OfData V) (builtin : String) (n : Int) :
    Computed V (exactNumber builtin n) := by
  unfold exactNumber
  split
  · exact .ok (hV.number _)
  · exact .error rfl

theorem BinaryOp.computed_numbers (op : BinaryOp) (left right : Expr)
    {f : Int × Int → Except Fault Expr} (hf : ∀ p, Computed V (f p)) :
    Computed V (op.numbers left right >>= f) := by
  unfold BinaryOp.numbers
  split
  · exact hf _
  · exact .error rfl

theorem BinaryOp.computed_truth (op : BinaryOp) (v : Expr) {f : Bool → Except Fault Expr}
    (hf : ∀ b, Computed V (f b)) : Computed V (op.truth v >>= f) := by
  unfold BinaryOp.truth
  split
  · exact hf _
  · exact hf _
  · exact .error rfl

theorem BinaryOp.computed_divide (hV : OfData V) (op : BinaryOp) (left right : Expr)
    (f : Int → Int → Int) : Computed V (op.divide left right f) := by
  refine op.computed_numbers left right fun ⟨a, b⟩ => ?_
  dsimp only
  split
  · exact .error rfl
  · have hquotient := computed_exactNumber hV op.name (a.tdiv b)
    generalize exactNumber op.name (a.tdiv b) = quotient at hquotient ⊢
    cases hquotient with
    | ok => exact computed_exactNumber hV op.name (f a b)
    | error h => exact .error h

theorem BinaryOp.computed_join (hV : OfData V) (op : BinaryOp) (hl : V left) (hr : V right) :
    Computed V (op.join left right) := by
  unfold BinaryOp.join
  split
  · refine .ok (hV.list_iff.2 fun item h => ?_)
    exact (List.mem_append.1 h).elim (hV.list_iff.1 hl item) (hV.list_iff.1 hr item)
  · exact .ok (hV.text _)
  · exact .error rfl

theorem BinaryOp.computed_compute (hV : OfData V) (op : BinaryOp) (hl : V left) (hr : V right) :
    Computed V (op.compute left right) := by
  have harithmetic (f : Int → Int → Int) : Computed V (op.arithmetic left right f) :=
    op.computed_numbers left right fun p => computed_exactNumber hV op.name (f p.1 p.2)
  have hcompare (f : Int → Int → Bool) : Computed V (op.compare left right f) :=
    op.computed_numbers left right fun p => .ok (hV.ofBool (f p.1 p.2))
  have hlogical (f : Bool → Bool → Bool) : Computed V (op.logical left right f) :=
    op.computed_truth left fun a => op.computed_truth right fun b => .ok (hV.ofBool (f a b))
  cases op with
  | add | sub | mul => exact harithmetic _
  | div | rem => exact BinaryOp.computed_divide hV _ left right _
  | greater | greaterEqual | less | lessEqual =>
    rw [BinaryOp.compute]
    exact hcompare _
  | equal | notEqual => exact .ok (hV.ofBool _)
  | both | either => exact hlogical _
  | concat => exact BinaryOp.computed_join hV _ hl hr

theorem computed_absolute (hV : OfData V) (v : Expr) : Computed V (absolute v) := by
  cases v with
  | number n =>
    rw [absolute]
    exact computed_exactNumber hV _ _
  | _ => exact .error rfl

theorem computed_size (hV : OfData V) (v : Expr) : Computed V (size v) := by
  unfold size
  split
  · exact .ok (hV.number _)
  · exact .ok (hV.number _)
  · exact .error rfl

/-- The two parts of an argument. -/
theorem OfData.of_split? (hV : OfData V) {head argument front rest : Expr} (h : V argument)
    (hs : split? head argument = some (front, rest)) : V front ∧ V rest := by
  unfold split? at hs
  split at hs
  · cases hs
    have hitems := hV.list_iff.1 h
    simp only [List.mem_cons, forall_eq_or_imp] at hitems
    exact ⟨hitems.1, hV.list_iff.2 hitems.2⟩
  · obtain ⟨⟨s, t⟩, -, hst⟩ := Option.map_eq_some_iff.1 hs
    cases hst
    exact ⟨hV.text s, hV.text t⟩
  · cases hs

end

end ClauseLang
