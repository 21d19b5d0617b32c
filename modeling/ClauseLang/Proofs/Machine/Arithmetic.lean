import ClauseLang.Proofs.Machine.Data
import ClauseLang.Proofs.Machine.Dispatch
import ClauseLang.Proofs.Machine.Operands
import Mathlib.Algebra.Order.Ring.Int

/-!
What the builtins make of numbers. A result is the exact one, or there is none: nothing wraps around
the ends of the words. The kind of the operands is looked at first, then whether the divisor is zero,
then whether the result is a word.
-/

namespace ClauseLang

open Eval

def IsWord (n : Int) : Prop :=
  -2 ^ 63 ≤ n ∧ n < 2 ^ 63

theorem isWord_toInt (w : Int64) : IsWord w.toInt :=
  ⟨w.le_toInt, w.toInt_lt⟩

theorem exactNumber_of_isWord {n : Int} (h : IsWord n) (builtin : String) :
    exactNumber builtin n = .ok (.number (Int64.ofInt n)) := by
  have hrange : Int64.minValue.toInt ≤ n ∧ n ≤ Int64.maxValue.toInt :=
    ⟨h.1, Int.le_sub_one_of_lt h.2⟩
  rw [exactNumber, word?, if_pos hrange]

theorem exactNumber_of_not_isWord {n : Int} (h : ¬ IsWord n) (builtin : String) :
    exactNumber builtin n = .error (.overflow builtin) := by
  have hrange : ¬ (Int64.minValue.toInt ≤ n ∧ n ≤ Int64.maxValue.toInt) :=
    fun hn => h ⟨hn.1, Int.lt_of_le_sub_one hn.2⟩
  rw [exactNumber, word?, if_neg hrange]

/-! ### Division toward zero -/

section

variable {a b : Int}

/-- The one quotient of words that is none itself. -/
theorem isWord_tdiv_iff (ha : IsWord a) (hb : b ≠ 0) :
    IsWord (a.tdiv b) ↔ ¬ (a = -2 ^ 63 ∧ b = -1) := by
  have hsize : (a.tdiv b).natAbs = a.natAbs / b.natAbs := Int.natAbs_tdiv a b
  constructor
  · rintro hq ⟨rfl, rfl⟩
    exact absurd hq.2 (by decide)
  · intro hne
    unfold IsWord at *
    have hle : a.natAbs / b.natAbs ≤ a.natAbs := Nat.div_le_self _ _
    by_cases hone : b.natAbs = 1
    · rcases Int.natAbs_eq_iff.1 hone with rfl | rfl
      · rw [Nat.cast_one, Int.tdiv_one]
        exact ha
      · have hneg : a.tdiv (-((1 : Nat) : Int)) = -a := by rw [Int.tdiv_neg, Nat.cast_one, Int.tdiv_one]
        omega
    · have hhalf : a.natAbs / b.natAbs ≤ a.natAbs / 2 := Nat.div_le_div_left (by omega) (by decide)
      omega

theorem isWord_tmod (ha : IsWord a) (hb : b ≠ 0) : IsWord (a.tmod b) := by
  have hsize : (a.tmod b).natAbs = a.natAbs % b.natAbs := Int.natAbs_tmod a b
  have hle : a.natAbs % b.natAbs ≤ a.natAbs := Nat.mod_le _ _
  have hlt : a.natAbs % b.natAbs < b.natAbs := Nat.mod_lt _ (by omega)
  have hsign := Int.sign_tmod a b
  unfold IsWord at *
  by_cases hmin : a.tmod b = 2 ^ 63
  · rw [hmin] at hsign
    split at hsign
    · cases hsign
    · have hpos : 0 < a := Int.sign_eq_one_iff_pos.1 hsign.symm
      omega
  · omega

/-- The remainder is nothing or has the sign of the dividend. -/
theorem tmod_eq_zero_or_sign_eq (a b : Int) : a.tmod b = 0 ∨ (a.tmod b).sign = a.sign := by
  have hsign := Int.sign_tmod a b
  split at hsign
  · exact .inl (Int.sign_eq_zero_iff_zero.1 hsign)
  · exact .inr hsign

theorem abs_tmod_lt (a : Int) (hb : b ≠ 0) : |a.tmod b| < |b| := by
  rw [Int.abs_eq_natAbs, Int.abs_eq_natAbs, Int.natAbs_tmod, Nat.cast_lt]
  exact Nat.mod_lt _ (Int.natAbs_pos.2 hb)

end

/-! ### Builtins and their arguments -/

theorem Builtin.name_binary (op : BinaryOp) : (Builtin.binary op).name = op.name := by
  rw [Builtin.name, Expr.writeBuiltin, List.append_nil, String.ofList_toList]

theorem Builtin.name_unary (op : UnaryOp) : (Builtin.unary op).name = op.name := by
  rw [Builtin.name, Expr.writeBuiltin, List.append_nil, String.ofList_toList]

/-- Applied to the arguments one after another the builtin comes to the value, and changes nothing. -/
def Builtin.Gives (cfg : Config) (op : Builtin) (arguments : List Expr) (value : Expr) : Prop :=
  ∀ ev m, applyEach cfg ev (.builtin op) arguments m = .ok value m

/-- Applied to the arguments one after another the builtin fails, and changes nothing. -/
def Builtin.Fails (cfg : Config) (op : Builtin) (arguments : List Expr) (fault : Fault) : Prop :=
  ∀ ev m, ∃ trail, applyEach cfg ev (.builtin op) arguments m = .error (.error ⟨fault, trail⟩) m

/-- The builtin gives the number `n` if that is a word, and an overflow in its name if it is not. -/
structure Builtin.IsExact (cfg : Config) (op : Builtin) (arguments : List Expr) (n : Int) : Prop where
  gives : IsWord n → ∃ w : Int64, w.toInt = n ∧ op.Gives cfg arguments (.number w)
  fails : ¬ IsWord n → op.Fails cfg arguments (.overflow op.name)

section

variable {cfg : Config}

theorem applyEach_binary (ev : Evaluator) (op : BinaryOp) (left right : Expr) :
    applyEach cfg ev (.builtin (.binary op)) [left, right] =
      during (.builtin (.waiting op left)) (ofExcept (op.compute left right)) := by
  funext m
  simp only [applyEach, apply, contain_false, Builtin.call]
  change EStateM.bind (during _ (pure _)) _ m = _
  simp only [EStateM.bind, during, pure, EStateM.pure]
  cases op.compute left right <;> rfl

theorem applyEach_unary (ev : Evaluator) (op : UnaryOp) (argument : Expr) :
    applyEach cfg ev (.builtin (.unary op)) [argument] =
      during (.builtin (.unary op)) (op.call argument) := by
  simp only [applyEach, apply, contain_false, Builtin.call, bind_pure]

theorem Builtin.binary_gives {op : BinaryOp} {left right value : Expr}
    (h : op.compute left right = .ok value) : (Builtin.binary op).Gives cfg [left, right] value := by
  intro ev m
  rw [applyEach_binary, h]
  rfl

theorem Builtin.binary_fails {op : BinaryOp} {left right : Expr} {fault : Fault}
    (h : op.compute left right = .error fault) :
    (Builtin.binary op).Fails cfg [left, right] fault := by
  intro ev m
  rw [applyEach_binary, h]
  exact ⟨_, rfl⟩

theorem Builtin.binary_isExact {op : BinaryOp} {left right : Expr} {n : Int}
    (h : op.compute left right = exactNumber op.name n) :
    (Builtin.binary op).IsExact cfg [left, right] n where
  gives hn := by
    rw [exactNumber_of_isWord hn] at h
    exact ⟨_, Int64.toInt_ofInt_of_le hn.1 hn.2, binary_gives h⟩
  fails hn := by
    rw [exactNumber_of_not_isWord hn] at h
    rw [Builtin.name_binary]
    exact binary_fails h

/-- Division when the divisor is not zero and the quotient is a word. -/
theorem BinaryOp.divide_of_isWord {op : BinaryOp} {a b : Int64} (hb : b.toInt ≠ 0)
    (hq : IsWord (a.toInt.tdiv b.toInt)) (f : Int → Int → Int) :
    op.divide (.number a) (.number b) f = exactNumber op.name (f a.toInt b.toInt) := by
  rw [BinaryOp.divide, BinaryOp.numbers]
  change (if b.toInt = 0 then _ else _) = _
  rw [if_neg hb, exactNumber_of_isWord hq]
  rfl

theorem BinaryOp.divide_of_not_isWord {op : BinaryOp} {a b : Int64} (hb : b.toInt ≠ 0)
    (hq : ¬ IsWord (a.toInt.tdiv b.toInt)) (f : Int → Int → Int) :
    op.divide (.number a) (.number b) f = .error (.overflow op.name) := by
  rw [BinaryOp.divide, BinaryOp.numbers]
  change (if b.toInt = 0 then _ else _) = _
  rw [if_neg hb, exactNumber_of_not_isWord hq]
  rfl

theorem Builtin.quotient_gives (cfg : Config) {a b : Int64} (hb : b ≠ 0)
    (hne : ¬ (a = Int64.minValue ∧ b = -1)) :
    ∃ q r : Int64, (Builtin.binary .div).Gives cfg [.number a, .number b] (.number q) ∧
      (Builtin.binary .rem).Gives cfg [.number a, .number b] (.number r) ∧
      q.toInt = a.toInt.tdiv b.toInt ∧ r.toInt = a.toInt.tmod b.toInt := by
  have hb' : b.toInt ≠ 0 := fun h => hb (Int64.toInt_inj.1 h)
  have hne' : ¬ (a.toInt = -2 ^ 63 ∧ b.toInt = -1) :=
    fun h => hne ⟨Int64.toInt_inj.1 h.1, Int64.toInt_inj.1 h.2⟩
  have hq := (isWord_tdiv_iff (isWord_toInt a) hb').2 hne'
  have hr := isWord_tmod (isWord_toInt a) hb'
  have hdiv : BinaryOp.compute .div (.number a) (.number b) =
      exactNumber "/" (a.toInt.tdiv b.toInt) := BinaryOp.divide_of_isWord hb' hq Int.tdiv
  have hrem : BinaryOp.compute .rem (.number a) (.number b) =
      exactNumber "%" (a.toInt.tmod b.toInt) := BinaryOp.divide_of_isWord hb' hq Int.tmod
  obtain ⟨q, hqint, hqgives⟩ := (binary_isExact hdiv).gives hq
  obtain ⟨r, hrint, hrgives⟩ := (binary_isExact hrem).gives hr
  exact ⟨q, r, hqgives, hrgives, hqint, hrint⟩

/-- Addition, subtraction and multiplication, division and absolute value on two words. -/
structure ExactOn (cfg : Config) (a b : Int64) : Prop where
  add : (Builtin.binary .add).IsExact cfg [.number a, .number b] (a.toInt + b.toInt)
  sub : (Builtin.binary .sub).IsExact cfg [.number a, .number b] (a.toInt - b.toInt)
  mul : (Builtin.binary .mul).IsExact cfg [.number a, .number b] (a.toInt * b.toInt)
  div_zero : b = 0 → ∀ op ∈ [BinaryOp.div, .rem],
    (Builtin.binary op).Fails cfg [.number a, .number b] .divisionByZero
  div_overflow : a = Int64.minValue → b = -1 → ∀ op ∈ [BinaryOp.div, .rem],
    (Builtin.binary op).Fails cfg [.number a, .number b] (.overflow op.name)
  div : b ≠ 0 → ¬ (a = Int64.minValue ∧ b = -1) → ∃ q r : Int64,
    (Builtin.binary .div).Gives cfg [.number a, .number b] (.number q) ∧
      (Builtin.binary .rem).Gives cfg [.number a, .number b] (.number r) ∧
      a.toInt = q.toInt * b.toInt + r.toInt ∧ |r.toInt| < |b.toInt| ∧
      (r.toInt = 0 ∨ r.toInt.sign = a.toInt.sign)
  abs : (Builtin.unary .abs).IsExact cfg [.number a] |a.toInt|
  abs_overflow : ¬ IsWord |a.toInt| ↔ a = Int64.minValue

theorem Builtin.unary_gives {op : UnaryOp} {argument value : Expr}
    (h : op.call argument = ofExcept (.ok value)) :
    (Builtin.unary op).Gives cfg [argument] value := by
  intro ev m
  rw [applyEach_unary, h]
  rfl

theorem Builtin.unary_fails {op : UnaryOp} {argument : Expr} {fault : Fault}
    (h : op.call argument = ofExcept (.error fault)) :
    (Builtin.unary op).Fails cfg [argument] fault := by
  intro ev m
  rw [applyEach_unary, h]
  exact ⟨_, rfl⟩

theorem Builtin.abs_isExact (cfg : Config) (a : Int64) :
    (Builtin.unary .abs).IsExact cfg [.number a] |a.toInt| := by
  have habs : UnaryOp.abs.call (.number a) = ofExcept (exactNumber "abs" |a.toInt|) := by
    rw [Int.abs_eq_natAbs]
    rfl
  constructor
  · intro hn
    rw [exactNumber_of_isWord hn] at habs
    exact ⟨_, Int64.toInt_ofInt_of_le hn.1 hn.2, unary_gives habs⟩
  · intro hn
    rw [exactNumber_of_not_isWord hn] at habs
    rw [Builtin.name_unary]
    exact unary_fails habs

theorem not_isWord_abs_iff (a : Int64) : ¬ IsWord |a.toInt| ↔ a = Int64.minValue := by
  have hmin : a = Int64.minValue ↔ a.toInt = -2 ^ 63 := Int64.toInt_inj.symm
  have ha := isWord_toInt a
  rw [hmin, Int.abs_eq_natAbs]
  unfold IsWord at *
  omega

theorem exactOn_words (cfg : Config) (a b : Int64) : ExactOn cfg a b where
  add := Builtin.binary_isExact rfl
  sub := Builtin.binary_isExact rfl
  mul := Builtin.binary_isExact rfl
  div_zero := by
    rintro rfl op hop
    have hop : op = .div ∨ op = .rem := by simpa using hop
    rcases hop with rfl | rfl <;> exact Builtin.binary_fails rfl
  div_overflow := by
    rintro rfl rfl op hop
    have hb : (-1 : Int64).toInt ≠ 0 := by decide
    have hq : ¬ IsWord (Int64.minValue.toInt.tdiv (-1 : Int64).toInt) :=
      fun h => (isWord_tdiv_iff (isWord_toInt _) hb).1 h ⟨rfl, rfl⟩
    have hop : op = .div ∨ op = .rem := by simpa using hop
    rcases hop with rfl | rfl
    · exact Builtin.binary_fails (BinaryOp.divide_of_not_isWord hb hq Int.tdiv)
    · exact Builtin.binary_fails (BinaryOp.divide_of_not_isWord hb hq Int.tmod)
  div := by
    intro hb hne
    have hb' : b.toInt ≠ 0 := fun h => hb (Int64.toInt_inj.1 h)
    obtain ⟨q, r, hq, hr, hqint, hrint⟩ := Builtin.quotient_gives cfg hb hne
    refine ⟨q, r, hq, hr, ?_, ?_, ?_⟩
    · rw [hqint, hrint, Int.tdiv_mul_add_tmod]
    · rw [hrint]
      exact abs_tmod_lt _ hb'
    · rw [hrint]
      exact tmod_eq_zero_or_sign_eq _ _
  abs := Builtin.abs_isExact cfg a
  abs_overflow := not_isWord_abs_iff a

/-! ### Operands of other kinds -/

theorem BinaryOp.numbers_of_number?_eq_none (op : BinaryOp) {left right : Expr}
    (h : left.number? = none ∨ right.number? = none) : op.numbers left right =
      .error (.typeMismatch (.operands op.name "two numbers" left right)) := by
  rw [BinaryOp.numbers_eq]
  rcases h with h | h
  · rw [h]
  · rw [h]
    cases left.number? <;> rfl

/-- The kind of the operands is looked at before anything else. -/
theorem Builtin.arithmetic_fails {op : BinaryOp} (hop : op ∈ [BinaryOp.add, .sub, .mul, .div, .rem])
    {left right : Expr} (h : left.number? = none ∨ right.number? = none) :
    (Builtin.binary op).Fails cfg [left, right]
      (.typeMismatch (.operands op.name "two numbers" left right)) := by
  have hnumbers := op.numbers_of_number?_eq_none h
  apply Builtin.binary_fails
  have hop : op = .add ∨ op = .sub ∨ op = .mul ∨ op = .div ∨ op = .rem := by simpa using hop
  rcases hop with rfl | rfl | rfl | rfl | rfl <;>
    simp only [BinaryOp.compute, BinaryOp.arithmetic, BinaryOp.divide, hnumbers] <;> rfl

theorem Builtin.abs_fails {e : Expr} (h : e.number? = none) : (Builtin.unary .abs).Fails cfg [e]
    (.typeMismatch (.operand UnaryOp.abs.name "a number" e)) := by
  apply Builtin.unary_fails
  rw [UnaryOp.call]
  congr 1
  cases e with
  | number => cases h
  | _ => rfl

/-- With all its arguments the builtin comes to a value or finds fault with them. -/
def Builtin.Ends (cfg : Config) (op : Builtin) (arguments : List Expr) : Prop :=
  ∀ ev m, (∃ value m', applyEach cfg ev (.builtin op) arguments m = .ok value m') ∨
    ∃ fault trail, fault.isNative ∧
      applyEach cfg ev (.builtin op) arguments m = .error (.error ⟨fault, trail⟩) m

theorem ofData_trivial : OfData fun _ => True where
  number _ := trivial
  text _ := trivial
  ofBool _ := trivial
  list_iff := by simp

theorem Builtin.binary_ends (op : BinaryOp) (left right : Expr) :
    (Builtin.binary op).Ends cfg [left, right] := by
  intro ev m
  have h : Computed (fun _ => True) (op.compute left right) :=
    op.computed_compute ofData_trivial trivial trivial
  generalize hr : op.compute left right = r at h
  cases h with
  | ok => exact .inl ⟨_, m, Builtin.binary_gives hr ev m⟩
  | @error fault hfault =>
    have hfails : (Builtin.binary op).Fails cfg [left, right] fault := Builtin.binary_fails hr
    obtain ⟨trail, htrail⟩ := hfails ev m
    exact .inr ⟨fault, trail, hfault, htrail⟩

theorem Builtin.unary_ends_of_computed {op : UnaryOp} {argument : Expr} {r : Except Fault Expr}
    (hr : op.call argument = ofExcept r) (h : Computed (fun _ => True) r) :
    (Builtin.unary op).Ends cfg [argument] := by
  intro ev m
  cases h with
  | ok => exact .inl ⟨_, m, Builtin.unary_gives hr ev m⟩
  | @error fault hfault =>
    have hfails : (Builtin.unary op).Fails cfg [argument] fault := Builtin.unary_fails hr
    obtain ⟨trail, htrail⟩ := hfails ev m
    exact .inr ⟨fault, trail, hfault, htrail⟩

theorem Builtin.unary_ends (op : UnaryOp) (argument : Expr) :
    (Builtin.unary op).Ends cfg [argument] := by
  cases op with
  | abs => exact unary_ends_of_computed rfl (computed_absolute ofData_trivial argument)
  | len => exact unary_ends_of_computed rfl (computed_size ofData_trivial argument)
  | print =>
    intro ev m
    rw [applyEach_unary]
    exact .inl ⟨argument, { m with printed := m.printed.push argument.render }, rfl⟩

theorem Builtin.len_gives {e : Expr} {n : Nat} (he : size e = .ok (.number (Int64.ofNat n)))
    (hn : IsWord n) : ∃ w : Int64, w.toInt = n ∧ (Builtin.unary .len).Gives cfg [e] (.number w) := by
  refine ⟨Int64.ofNat n, ?_, Builtin.unary_gives (by rw [UnaryOp.call, he])⟩
  rw [← Int64.ofInt_eq_ofNat, Int64.toInt_ofInt_of_le hn.1 hn.2]

end

/-- What comes of numbers is exact. Sums, differences and products are, or there is an overflow;
quotient and remainder go together, and there are none only for a zero divisor and for the one
quotient that is no word. Whatever is no number is refused first. No builtin ends in another way, and
lengths are exact as well. -/
theorem arithmetic_exact (cfg : Config) :
    (∀ a b : Int64, ExactOn cfg a b) ∧
      (∀ op ∈ [BinaryOp.add, .sub, .mul, .div, .rem], ∀ left right : Expr,
        left.number? = none ∨ right.number? = none → (Builtin.binary op).Fails cfg [left, right]
          (.typeMismatch (.operands op.name "two numbers" left right))) ∧
      (∀ e : Expr, e.number? = none → (Builtin.unary .abs).Fails cfg [e]
        (.typeMismatch (.operand UnaryOp.abs.name "a number" e))) ∧
      (∀ (op : BinaryOp) (left right : Expr), (Builtin.binary op).Ends cfg [left, right]) ∧
      (∀ (op : UnaryOp) (e : Expr), (Builtin.unary op).Ends cfg [e]) ∧
      (∀ s : String, IsWord s.length →
        ∃ w : Int64, w.toInt = s.length ∧ (Builtin.unary .len).Gives cfg [.text s] (.number w)) ∧
      (∀ items : List Expr, IsWord items.length →
        ∃ w : Int64, w.toInt = items.length ∧
          (Builtin.unary .len).Gives cfg [.list items] (.number w)) := by
  refine ⟨exactOn_words cfg, ?_, ?_, Builtin.binary_ends, Builtin.unary_ends, ?_, ?_⟩
  · exact fun op hop left right h => Builtin.arithmetic_fails hop h
  · exact fun e h => Builtin.abs_fails h
  · exact fun s hs => Builtin.len_gives rfl hs
  · exact fun items hitems => Builtin.len_gives rfl hitems

end ClauseLang
