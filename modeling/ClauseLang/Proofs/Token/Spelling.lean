import ClauseLang.Source.Comment
import ClauseLang.Source.Quoted
import ClauseLang.Source.Word
import ClauseLang.Token.Scan

/-!
Texts that spell out lexemes. A text in which nothing goes on with the lexeme before it scans into
just the lexemes that it was put together from.
-/

namespace ClauseLang

namespace Scan

section

variable {w cs : List Char} {c : Char}

/-- A character that is never the second or a later one of a lexeme, strings apart. -/
def isBreak (c : Char) : Bool :=
  isBlank c || c == ')' || c == ']'

/-- The text does not go on with a lexeme before it. -/
def breaks : List Char → Bool
  | [] => true
  | c :: _ => isBreak c

theorem isBreak_cases (h : isBreak c) :
    c = ' ' ∨ c = '\t' ∨ c = '\n' ∨ c = '\r' ∨ c = '\x0c' ∨ c = ')' ∨ c = ']' := by
  simpa [isBreak, isBlank, or_assoc] using h

theorem not_isIdentRest_of_isBreak (h : isBreak c) : isIdentRest c = false := by
  rcases isBreak_cases h with rfl | rfl | rfl | rfl | rfl | rfl | rfl <;> decide

theorem not_isDigit_of_isBreak (h : isBreak c) : c.isDigit = false := by
  rcases isBreak_cases h with rfl | rfl | rfl | rfl | rfl | rfl | rfl <;> decide

theorem takeWhile_append_of_breaks {p : Char → Bool} (hp : ∀ c, isBreak c → p c = false)
    (h : breaks cs) (w : List Char) : (w ++ cs).takeWhile p = w.takeWhile p := by
  induction w with
  | nil =>
    cases cs with
    | nil => rfl
    | cons c cs => simp [hp c h]
  | cons a w ih => simp [List.takeWhile_cons, ih]

theorem isPrefixOf_append_of_breaks (h : breaks cs) {word : List Char}
    (hword : ∀ c ∈ word, isBreak c = false) (w : List Char) :
    word.isPrefixOf (w ++ cs) = word.isPrefixOf w := by
  induction word generalizing w with
  | nil => simp
  | cons a word ih =>
    cases w with
    | nil =>
      cases cs with
      | nil => rfl
      | cons c cs =>
        have hne : a ≠ c := fun e => by simp [← e, breaks, hword a] at h
        simp [List.isPrefixOf, hne]
    | cons b w => simp [List.isPrefixOf, ih (fun c hc => hword c (by simp [hc]))]

/-- How many characters a rule takes does not depend on what stands after a break. -/
theorem wordExtent_append (h : breaks cs) (hw : w ≠ []) {a : Char} {word : List Char}
    (hword : ∀ c ∈ word, isBreak c = false) :
    wordExtent (a :: word) (w ++ cs) = wordExtent (a :: word) w := by
  cases w with
  | nil => exact absurd rfl hw
  | cons b w => simp [wordExtent, List.isPrefixOf, isPrefixOf_append_of_breaks h hword]

theorem identExtent_append (h : breaks cs) (hw : w ≠ []) :
    identExtent (w ++ cs) = identExtent w := by
  cases w with
  | nil => exact absurd rfl hw
  | cons b w =>
    simp [identExtent, takeWhile_append_of_breaks (fun _ => not_isIdentRest_of_isBreak) h]

theorem operatorExtent_append (h : breaks cs) (w : List Char) :
    operatorExtent (w ++ cs) = operatorExtent w := by
  have hword : ∀ word ∈ operators, word.isPrefixOf (w ++ cs) = word.isPrefixOf w := by
    have hall : operators.all fun word => word.all fun c => !isBreak c := by decide
    simp only [List.all_eq_true, Bool.not_eq_true'] at hall
    exact fun word hword => isPrefixOf_append_of_breaks h (hall word hword) w
  have hfind : ∀ {words : List (List Char)},
      (∀ word ∈ words, word.isPrefixOf (w ++ cs) = word.isPrefixOf w) →
        words.find? (·.isPrefixOf (w ++ cs)) = words.find? (·.isPrefixOf w) := by
    intro words hwords
    induction words with
    | nil => rfl
    | cons word words ih =>
      rw [List.find?_cons, List.find?_cons, hwords word (by simp),
        ih (fun word hword => hwords word (by simp [hword]))]
  rw [operatorExtent, hfind hword, operatorExtent]

theorem labelExtent_append (h : breaks cs) (hw : w ≠ []) :
    labelExtent (w ++ cs) = labelExtent w := by
  cases w with
  | nil => exact absurd rfl hw
  | cons b w =>
    by_cases hb : b = '.'
    · subst hb
      simp [labelExtent, takeWhile_append_of_breaks (fun _ => not_isIdentRest_of_isBreak) h]
    · simp [labelExtent, hb]

theorem digitsExtent_append (h : breaks cs) (w : List Char) :
    digitsExtent (w ++ cs) = digitsExtent w := by
  rw [digitsExtent, takeWhile_append_of_breaks (fun _ => not_isDigit_of_isBreak) h, digitsExtent]

theorem integerExtent_append (h : breaks cs) (hw : w ≠ []) :
    integerExtent (w ++ cs) = integerExtent w := by
  cases w with
  | nil => exact absurd rfl hw
  | cons b w =>
    by_cases hb : b = '-'
    · subst hb
      simp [integerExtent, digitsExtent_append h]
    · simpa [integerExtent, hb] using digitsExtent_append h (b :: w)

theorem quotedExtent_of_head (hw : w.head? ≠ some '"') : quotedExtent w = 0 := by
  cases w with
  | nil => rfl
  | cons b w =>
    have hb : b ≠ '"' := by simpa using hw
    simp [quotedExtent, hb]

theorem wordExtent_le (word w : List Char) : wordExtent word w ≤ w.length := by
  rw [wordExtent]
  split
  · next h => exact (List.isPrefixOf_iff_prefix.1 h).length_le
  · exact Nat.zero_le _

theorem wordExtent_lt {word : List Char} (hw : w ≠ []) (hne : word ≠ w) :
    wordExtent word w < w.length := by
  rw [wordExtent]
  split
  · next h =>
    have hp := List.isPrefixOf_iff_prefix.1 h
    exact Nat.lt_of_le_of_ne hp.length_le (fun e => hne (hp.eq_of_length e))
  · exact List.length_pos_iff.2 hw

theorem operatorExtent_cases (w : List Char) :
    operatorExtent w = 0 ∨ ∃ word ∈ operators, word <+: w ∧ operatorExtent w = word.length := by
  rw [operatorExtent]
  cases h : operators.find? (·.isPrefixOf w) with
  | none => exact .inl rfl
  | some word =>
    exact .inr ⟨word, List.mem_of_find?_eq_some h,
      List.isPrefixOf_iff_prefix.1 (by simpa using List.find?_some h), rfl⟩

theorem operatorExtent_le (w : List Char) : operatorExtent w ≤ w.length := by
  rcases operatorExtent_cases w with h | ⟨word, _, hp, h⟩
  · omega
  · exact h ▸ hp.length_le

theorem operatorExtent_lt (hw : w ≠ []) (hne : w ∉ operators) :
    operatorExtent w < w.length := by
  rcases operatorExtent_cases w with h | ⟨word, hmem, hp, h⟩
  · exact h ▸ List.length_pos_iff.2 hw
  · exact h ▸ Nat.lt_of_le_of_ne hp.length_le (fun e => hne (hp.eq_of_length e ▸ hmem))

theorem length_takeWhile_le (p : Char → Bool) (w : List Char) :
    (w.takeWhile p).length ≤ w.length :=
  (List.takeWhile_sublist p).length_le

theorem identExtent_le (w : List Char) : identExtent w ≤ w.length := by
  cases w with
  | nil => exact Nat.le_refl _
  | cons c w =>
    rw [identExtent]
    split
    · exact Nat.succ_le_succ (length_takeWhile_le _ _)
    · exact Nat.zero_le _

theorem labelExtent_le (w : List Char) : labelExtent w ≤ w.length := by
  unfold labelExtent
  split
  · dsimp only
    split
    · exact Nat.zero_le _
    · exact Nat.succ_le_succ (length_takeWhile_le _ _)
  · exact Nat.zero_le _

theorem integerExtent_le (w : List Char) : integerExtent w ≤ w.length := by
  unfold integerExtent
  split
  · split
    · exact Nat.zero_le _
    · exact Nat.succ_le_succ (length_takeWhile_le _ _)
  · exact length_takeWhile_le _ _

/-- The lexemes with one spelling only, in the order of their rules. -/
def words : List Lexeme :=
  [.letWord, .lbrace, .rbrace, .lparen, .rparen, .lbracket, .rbracket, .fatArrow, .equals, .arrow,
    .doubleColon, .colon]

theorem rules_eq : rules = words.map fixed ++
    [⟨identExtent, .ident⟩, ⟨operatorExtent, .operator⟩, ⟨labelExtent, .label⟩,
      ⟨quotedExtent, .quoted⟩, ⟨integerExtent, .integer⟩] := rfl

theorem mem_rules {rule : Rule} (h : rule ∈ rules) :
    (∃ l ∈ words, rule = fixed l) ∨ rule = ⟨identExtent, .ident⟩ ∨
      rule = ⟨operatorExtent, .operator⟩ ∨ rule = ⟨labelExtent, .label⟩ ∨
      rule = ⟨quotedExtent, .quoted⟩ ∨ rule = ⟨integerExtent, .integer⟩ := by
  rw [rules_eq, List.mem_append, List.mem_map] at h
  rcases h with ⟨l, hl, rfl⟩ | h
  · exact .inl ⟨l, hl, rfl⟩
  · exact .inr (by simpa using h)

theorem text_of_mem_words {l : Lexeme} (h : l ∈ words) :
    ∃ a word, l.text.toList = a :: word ∧ ∀ c ∈ word, isBreak c = false := by
  have hall : words.all fun l =>
      !l.text.toList.isEmpty && l.text.toList.tail.all fun c => !isBreak c := by decide
  have hl := List.all_eq_true.1 hall l h
  cases htext : l.text.toList with
  | nil => simp [htext] at hl
  | cons a word => exact ⟨a, word, rfl, by simpa [htext] using hl⟩

/-- On a text that is not a string, every rule takes the same before a break as at the end. -/
theorem extent_append (h : breaks cs) (hw : w ≠ []) (hq : w.head? ≠ some '"') {rule : Rule}
    (hr : rule ∈ rules) :
    rule.extent (w ++ cs) = rule.extent w ∧ rule.extent w ≤ w.length := by
  have hq' : (w ++ cs).head? ≠ some '"' := by
    cases w with
    | nil => exact absurd rfl hw
    | cons c w => simpa using hq
  rcases mem_rules hr with ⟨l, hl, rfl⟩ | rfl | rfl | rfl | rfl | rfl
  · obtain ⟨a, word, hal, hword⟩ := text_of_mem_words hl
    simp only [fixed, hal]
    exact ⟨wordExtent_append h hw hword, wordExtent_le _ w⟩
  · exact ⟨identExtent_append h hw, identExtent_le w⟩
  · exact ⟨operatorExtent_append h w, operatorExtent_le w⟩
  · exact ⟨labelExtent_append h hw, labelExtent_le w⟩
  · simp [quotedExtent_of_head hq, quotedExtent_of_head hq']
  · exact ⟨integerExtent_append h hw, integerExtent_le w⟩

theorem longest_congr {ds : List Char} {rs : List Rule}
    (h : ∀ rule ∈ rs, rule.extent cs = rule.extent ds ∧
      cs.take (rule.extent ds) = ds.take (rule.extent ds)) : longest cs rs = longest ds rs := by
  induction rs with
  | nil => rfl
  | cons rule rs ih =>
    obtain ⟨hn, ht⟩ := h rule (by simp)
    rw [longest, longest, ih (fun rule hr => h rule (by simp [hr])), hn, ht]

theorem longest_append (h : breaks cs) (hw : w ≠ []) (hq : w.head? ≠ some '"') :
    longest (w ++ cs) rules = longest w rules := by
  refine longest_congr (fun rule hr => ?_)
  obtain ⟨hn, hle⟩ := extent_append h hw hq hr
  exact ⟨hn, List.take_append_of_le_length hle⟩

theorem longest_le {n k : Nat} {l : Lexeme} {rs : List Rule} (h : longest cs rs = some (n, l))
    (hk : ∀ rule ∈ rs, rule.extent cs ≤ k) : n ≤ k := by
  induction rs with
  | nil => simp [longest] at h
  | cons rule rs ih =>
    have hr := hk rule (by simp)
    rw [longest] at h
    split at h
    · split at h
      · simp at h
      · simp only [Option.some.injEq, Prod.mk.injEq] at h
        omega
    · next later hlater =>
      split at h
      · simp only [Option.some.injEq, Prod.mk.injEq] at h
        omega
      · exact ih (hlater.trans h) (fun rule hr => hk rule (by simp [hr]))

/-- The rule that takes the most, and more than those before it, gives the lexeme. -/
theorem longest_eq {rule : Rule} {before after : List Rule} (hpos : 0 < rule.extent cs)
    (hb : ∀ r ∈ before, r.extent cs < rule.extent cs)
    (ha : ∀ r ∈ after, r.extent cs ≤ rule.extent cs) :
    longest cs (before ++ rule :: after) =
      some (rule.extent cs, rule.lexeme (String.ofList (cs.take (rule.extent cs)))) := by
  induction before with
  | nil =>
    rw [List.nil_append, longest]
    cases h : longest cs after with
    | none => simp [Nat.ne_of_gt hpos]
    | some later =>
      have := longest_le h ha
      simp [this]
  | cons r before ih =>
    have := hb r (by simp)
    rw [List.cons_append, longest, ih (fun r hr => hb r (by simp [hr]))]
    simp [Nat.not_le.2 this]

end

def isIdent : List Char → Bool
  | [] => false
  | c :: cs => isIdentStart c && cs.all isIdentRest

end Scan

namespace Lexeme

open Scan

def Proper : Lexeme → Prop
  | .ident text => isIdent text.toList ∧ text ≠ "let"
  | .operator text => text.toList ∈ operators
  | .label text => ∃ name, text.toList = '.' :: name ∧ name ≠ [] ∧ name.all isIdentRest
  | _ => True

/-- A lexeme as it is printed. -/
def Printable : Lexeme → Prop
  | .quoted text => ∃ value, text.toList = Source.quote value
  | .integer text => ∃ n, text.toList = Source.numeral n
  | l => l.Proper

end Lexeme

namespace Scan

variable {w cs : List Char} {c : Char}

theorem isIdentRest_of_isIdentStart (h : isIdentStart c) : isIdentRest c := by
  simp only [isIdentStart, isIdentRest, Char.isAlphanum, Bool.or_eq_true] at *
  rcases h with h | h
  · exact .inl (.inl h)
  · exact .inr h

theorem isIdentRest_of_isIdent (h : isIdent w) (hc : c ∈ w) : isIdentRest c := by
  cases w with
  | nil => simp at hc
  | cons a w =>
    simp only [isIdent, Bool.and_eq_true, List.all_eq_true] at h
    rcases List.mem_cons.1 hc with rfl | hc
    · exact isIdentRest_of_isIdentStart h.1
    · exact h.2 c hc

theorem takeWhile_eq_self {p : Char → Bool} (h : w.all p) : w.takeWhile p = w := by
  induction w with
  | nil => rfl
  | cons a w ih =>
    simp only [List.all_cons, Bool.and_eq_true] at h
    simp [h.1, ih h.2]

theorem identExtent_of_isIdent (h : isIdent w) : identExtent w = w.length := by
  cases w with
  | nil => rfl
  | cons a w =>
    simp only [isIdent, Bool.and_eq_true] at h
    simp [identExtent, h.1, takeWhile_eq_self h.2]

theorem ne_nil_of_isIdent (h : isIdent w) : w ≠ [] := by
  rintro rfl
  simp [isIdent] at h

theorem not_mem_operators_of_isIdent (h : isIdent w) : w ∉ operators := by
  intro hw
  have : ∀ word ∈ operators, isIdent word = false := by decide
  simp [this w hw] at h

theorem longest_ident (h : isIdent w) (hlet : w ≠ ['l', 'e', 't']) :
    longest w rules = some (w.length, .ident (String.ofList w)) := by
  have hext := identExtent_of_isIdent h
  have hw := ne_nil_of_isIdent h
  have hlt : ∀ l ∈ words, wordExtent l.text.toList w < w.length := by
    intro l hl
    refine wordExtent_lt hw (fun e => ?_)
    have : ∀ l ∈ words, l ≠ .letWord → isIdent l.text.toList = false := by decide
    by_cases hll : l = .letWord
    · exact hlet (by rw [← e, hll]; rfl)
    · simp [← e, this l hl hll] at h
  rw [rules_eq, longest_eq]
  · simp [hext]
  · simpa [hext] using List.length_pos_iff.2 hw
  · simpa [fixed, hext] using hlt
  · have hq : w.head? ≠ some '"' := by
      cases w with
      | nil => simp
      | cons a w =>
        rintro ⟨⟩
        simp [isIdent, isIdentStart] at h
    simpa [hext, quotedExtent_of_head hq] using
      ⟨operatorExtent_le w, labelExtent_le w, integerExtent_le w⟩

theorem longest_label {name : List Char} (hne : name ≠ []) (h : name.all isIdentRest) :
    longest ('.' :: name) rules = some (name.length + 1, .label (String.ofList ('.' :: name))) := by
  have hext : labelExtent ('.' :: name) = name.length + 1 := by
    simp [labelExtent, takeWhile_eq_self h, hne]
  rw [show rules = (words.map fixed ++ [⟨identExtent, .ident⟩, ⟨operatorExtent, .operator⟩]) ++
    ⟨labelExtent, .label⟩ :: [⟨quotedExtent, .quoted⟩, ⟨integerExtent, .integer⟩] from rfl,
    longest_eq]
  · simp [hext]
  · simp [hext]
  · have hdot : isIdentStart '.' = false := by decide
    simp [hext, words, fixed, wordExtent, Lexeme.text, List.isPrefixOf, identExtent, hdot,
      operatorExtent, operators]
  · simp [hext, quotedExtent, integerExtent, digitsExtent, Char.isDigit]

theorem not_isIdentStart_of_isDigit (h : c.isDigit) : isIdentStart c = false := by
  rw [Bool.eq_false_iff]
  intro hs
  have hs : (decide (c.val ≥ 'A'.val ∧ c.val ≤ 'Z'.val) ||
      (decide (c.val ≥ 'a'.val) && decide (c.val ≤ 'z'.val)) || c == '_') = true := hs
  simp only [Char.isDigit, Bool.and_eq_true, Bool.or_eq_true, decide_eq_true_eq, beq_iff_eq,
    ge_iff_le, UInt32.le_iff_toNat_le] at h hs
  rcases hs with (hs | hs) | rfl
  · exact absurd (Nat.le_trans hs.1 h.2) (by decide)
  · exact absurd (Nat.le_trans hs.1 h.2) (by decide)
  · exact absurd h.2 (by decide)

theorem longest_integer {digits : List Char} (hne : digits ≠ []) (h : digits.all Char.isDigit)
    (hw : w = digits ∨ w = '-' :: digits) :
    longest w rules = some (w.length, .integer (String.ofList w)) := by
  have hmem : ∀ c ∈ w, c.isDigit ∨ c = '-' := by
    rw [List.all_eq_true] at h
    rcases hw with rfl | rfl
    · exact fun c hc => .inl (h c hc)
    · intro c hc
      rcases List.mem_cons.1 hc with rfl | hc
      · exact .inr rfl
      · exact .inl (h c hc)
  have hlen : 0 < digits.length := List.length_pos_iff.2 hne
  have hnil : w ≠ [] := by
    rcases hw with rfl | rfl <;> simp [hne]
  have hminus : w ≠ ['-'] := by
    rintro rfl
    rcases hw with rfl | hw
    · exact absurd h (by decide)
    · simp_all
  have hext : integerExtent w = w.length := by
    rcases hw with rfl | rfl
    · unfold integerExtent
      split
      · simp at h
      · rw [digitsExtent, takeWhile_eq_self h]
    · simp [integerExtent, digitsExtent, takeWhile_eq_self h, hne]
  have hword : ∀ l ∈ words, wordExtent l.text.toList w < w.length := by
    have hodd : ∀ l ∈ words, ∃ c ∈ l.text.toList, ¬(c.isDigit ∨ c = '-') := by
      have hall : words.all fun l => l.text.toList.any fun c => !(c.isDigit || c == '-') := by decide
      simpa [List.all_eq_true, List.any_eq_true] using hall
    intro l hl
    obtain ⟨c, hc, hn⟩ := hodd l hl
    exact wordExtent_lt hnil (fun e => hn (hmem c (e ▸ hc)))
  have hop : w ∉ operators := by
    have hodd : ∀ word ∈ operators, word = ['-'] ∨ ∃ c ∈ word, ¬(c.isDigit ∨ c = '-') := by
      have hall : operators.all fun word =>
          word == ['-'] || word.any fun c => !(c.isDigit || c == '-') := by decide
      simpa [List.all_eq_true, List.any_eq_true] using hall
    intro hin
    rcases hodd w hin with e | ⟨c, hc, hn⟩
    · exact hminus e
    · exact hn (hmem c hc)
  have hhead : ∀ c, w.head? = some c → isIdentStart c = false ∧ c ≠ '.' ∧ c ≠ '"' := by
    intro c hc
    rcases hmem c (List.mem_of_mem_head? hc) with hd | rfl
    · refine ⟨not_isIdentStart_of_isDigit hd, ?_, ?_⟩ <;> (rintro rfl; simp at hd)
    · decide
  rw [show rules = (words.map fixed ++ [⟨identExtent, .ident⟩, ⟨operatorExtent, .operator⟩,
    ⟨labelExtent, .label⟩, ⟨quotedExtent, .quoted⟩]) ++ ⟨integerExtent, .integer⟩ :: [] from rfl,
    longest_eq]
  · simp [hext]
  · simpa [hext] using List.length_pos_iff.2 hnil
  · cases w with
    | nil => exact absurd rfl hnil
    | cons a w =>
      obtain ⟨ha, hdot, hquote⟩ := hhead a rfl
      have := operatorExtent_lt hnil hop
      simp only [List.mem_append, List.mem_map, List.mem_cons, List.not_mem_nil, or_false, hext]
      rintro r (⟨l, hl, rfl⟩ | rfl | rfl | rfl | rfl)
      · exact hword l hl
      · simp [identExtent, ha]
      · exact this
      · simp [labelExtent, hdot]
      · simp [quotedExtent, hquote]
  · simp

theorem quotedRest?_escape (c : Char) (cs : List Char) :
    quotedRest? (Source.escape c ++ cs) =
      (quotedRest? cs).map (· + (Source.escape c).length) := by
  unfold Source.escape
  split
  case h_5 hq hb _ _ =>
    rw [List.singleton_append, quotedRest?.eq_def]
    split <;> simp_all
  all_goals simp [quotedRest?]

theorem quotedRest?_flatMap_escape (value cs : List Char) :
    quotedRest? (value.flatMap Source.escape ++ '"' :: cs) =
      some ((value.flatMap Source.escape).length + 1) := by
  induction value with
  | nil => simp [quotedRest?]
  | cons c value ih =>
    rw [List.flatMap_cons, List.append_assoc, quotedRest?_escape, ih]
    simp
    omega

theorem longest_quote (value cs : List Char) :
    longest (Source.quote value ++ cs) rules =
      some ((Source.quote value).length, .quoted (String.ofList (Source.quote value))) := by
  have hext : quotedExtent (Source.quote value ++ cs) = (Source.quote value).length := by
    simp [Source.quote, quotedExtent, quotedRest?_flatMap_escape]
  have hpos : 0 < quotedExtent (Source.quote value ++ cs) := by
    rw [hext]
    simp [Source.quote]
  rw [show rules = (words.map fixed ++ [⟨identExtent, .ident⟩, ⟨operatorExtent, .operator⟩,
    ⟨labelExtent, .label⟩]) ++ ⟨quotedExtent, .quoted⟩ :: [⟨integerExtent, .integer⟩] from rfl,
    longest_eq]
  · simp [hext]
  · exact hpos
  · have hmark : isIdentStart '"' = false := by decide
    simpa [Source.quote, words, fixed, wordExtent, Lexeme.text, List.isPrefixOf, identExtent,
      hmark, operatorExtent, operators, labelExtent] using hpos
  · simp [Source.quote, integerExtent, digitsExtent, Char.isDigit]

theorem numeral_cases (n : Int) : ∃ digits : List Char, digits ≠ [] ∧ digits.all Char.isDigit ∧
    (Source.numeral n = digits ∨ Source.numeral n = '-' :: digits) := by
  have hall : ∀ m : Nat, (Nat.toDigits 10 m).all Char.isDigit := fun m =>
    List.all_eq_true.2 (fun c hc => Nat.isDigit_of_mem_toDigits (by decide) (by decide) hc)
  cases n with
  | ofNat n => exact ⟨_, Nat.toDigits_ne_nil, hall n, .inl rfl⟩
  | negSucc n => exact ⟨_, Nat.toDigits_ne_nil, hall (n + 1), .inr rfl⟩

/-- A printed lexeme scans as itself where the text breaks after it. -/
theorem longest_text {l : Lexeme} (hl : l.Printable) (h : breaks cs) :
    longest (l.text.toList ++ cs) rules = some (l.text.toList.length, l) := by
  cases l with
  | quoted text =>
    obtain ⟨value, hv⟩ := hl
    have htext : text = String.ofList (Source.quote value) := by rw [← hv, String.ofList_toList]
    simpa [Lexeme.text, htext] using longest_quote value cs
  | ident text =>
    obtain ⟨hi, hlet⟩ := hl
    have hne : text.toList ≠ ['l', 'e', 't'] := fun e =>
      hlet (by rw [← String.ofList_toList (s := text), e])
    have hq : text.toList.head? ≠ some '"' := by
      intro e
      have := isIdentRest_of_isIdent hi (List.mem_of_mem_head? e)
      simp [isIdentRest] at this
    simpa [Lexeme.text] using
      (longest_append h (ne_nil_of_isIdent hi) hq).trans (longest_ident hi hne)
  | operator text =>
    have hop : ∀ w ∈ operators, w ≠ [] ∧ w.head? ≠ some '"' ∧
        longest w rules = some (w.length, .operator (String.ofList w)) := by decide
    obtain ⟨hne, hq, hw⟩ := hop _ hl
    simpa [Lexeme.text] using (longest_append h hne hq).trans hw
  | label text =>
    obtain ⟨name, ht, hne, hall⟩ := hl
    have := (longest_append (w := '.' :: name) h (by simp) (by simp)).trans (longest_label hne hall)
    rw [Lexeme.text, ht, this, ← ht, String.ofList_toList]
    simp [ht]
  | integer text =>
    obtain ⟨n, hn⟩ := hl
    obtain ⟨digits, hne, hall, hw⟩ := numeral_cases n
    rw [← hn] at hw
    have hi := longest_integer hne hall hw
    have hnil : text.toList ≠ [] := by rcases hw with e | e <;> simp [e, hne]
    have hq : text.toList.head? ≠ some '"' := by
      rw [List.all_eq_true] at hall
      intro e
      rcases hw with hw | hw
      · exact absurd (hall _ (List.mem_of_mem_head? (hw ▸ e))) (by decide)
      · rw [hw] at e
        simp at e
    simpa [Lexeme.text] using (longest_append h hnil hq).trans hi
  | _ => exact (longest_append h (by decide) (by decide)).trans rfl

theorem longest_opening {l : Lexeme} (hl : l = .lparen ∨ l = .lbracket) (cs : List Char) :
    longest (l.text.toList ++ cs) rules = some (l.text.toList.length, l) := by
  have hstart : isIdentStart '(' = false ∧ isIdentStart '[' = false := by decide
  rcases hl with rfl | rfl <;>
    simp [longest, rules, fixed, wordExtent, Lexeme.text, List.isPrefixOf, identExtent,
      hstart, operatorExtent, operators, labelExtent, quotedExtent, integerExtent,
      digitsExtent, Char.isDigit]

theorem longest_of_isBlank (h : isBlank c) (cs : List Char) : longest (c :: cs) rules = none := by
  have hc : c = ' ' ∨ c = '\t' ∨ c = '\n' ∨ c = '\r' ∨ c = '\x0c' := by
    simpa [isBlank, or_assoc] using h
  have hstart : isIdentStart c = false := by
    rcases hc with rfl | rfl | rfl | rfl | rfl <;> decide
  rcases hc with rfl | rfl | rfl | rfl | rfl <;>
    simp [longest, rules, fixed, wordExtent, Lexeme.text, List.isPrefixOf, identExtent,
      hstart, operatorExtent, operators, labelExtent, quotedExtent, integerExtent,
      digitsExtent, Char.isDigit]

-- The equation holds by computation only as long as `longest` is not looked into.
attribute [local irreducible] longest in
theorem scanFrom_zero (source : String) (here : Position) (c : Char) (cs : List Char) :
    scanFrom source 0 here (c :: cs) =
      if isBlank c then
        scanFrom source 0 (pass here c) cs
      else
        match longest (c :: cs) rules with
        | none => .error ⟨source, String.ofList (c :: cs)⟩
        | some (n, lexeme) => do
          let stop := ⟨here.line, here.column + Source.byteLength ((c :: cs).take n)⟩
          let rest ← scanFrom source (n - 1) stop cs
          return ⟨lexeme, ⟨here, stop, source⟩⟩ :: rest := rfl

theorem scanFrom_skip (source : String) (here : Position) (w cs : List Char) :
    scanFrom source w.length here (w ++ cs) = scanFrom source 0 here cs := by
  induction w with
  | nil => rfl
  | cons c w ih => exact ih

theorem scanFrom_append (source : String) (here : Position) {l : Lexeme} (hw : w ≠ [])
    (h : longest (w ++ cs) rules = some (w.length, l)) :
    ∃ stop, scanFrom source 0 here (w ++ cs) =
      (scanFrom source 0 stop cs).map (⟨l, ⟨here, stop, source⟩⟩ :: ·) := by
  cases w with
  | nil => exact absurd rfl hw
  | cons c w =>
    have hc : isBlank c = false := by
      rw [Bool.eq_false_iff]
      intro hc
      rw [List.cons_append, longest_of_isBlank hc] at h
      cases h
    refine ⟨⟨here.line, here.column + Source.byteLength ((c :: w ++ cs).take (c :: w).length)⟩, ?_⟩
    rw [List.cons_append] at h
    rw [List.cons_append, scanFrom_zero, hc, h]
    simp only [Bool.false_eq_true, if_false, List.length_cons, Nat.add_sub_cancel, scanFrom_skip]
    cases scanFrom source 0 _ cs <;> rfl

/-- A text for lexemes: blanks may stand anywhere between them, and what follows a lexeme other than
an opening bracket does not go on with it. -/
inductive Spelled : List Lexeme → List Char → Prop
  | nil : Spelled [] []
  | blank {ls : List Lexeme} {cs : List Char} {c : Char} :
    isBlank c → Spelled ls cs → Spelled ls (c :: cs)
  | opening {ls : List Lexeme} {cs : List Char} {l : Lexeme} :
    l = .lparen ∨ l = .lbracket → Spelled ls cs → Spelled (l :: ls) (l.text.toList ++ cs)
  | lexeme {ls : List Lexeme} {cs : List Char} {l : Lexeme} :
    l.Printable → breaks cs → Spelled ls cs → Spelled (l :: ls) (l.text.toList ++ cs)

theorem text_ne_nil_of_printable {l : Lexeme} (hl : l.Printable) : l.text.toList ≠ [] := by
  intro e
  have h : longest (l.text.toList ++ [' ']) rules = _ := longest_text hl rfl
  rw [e, List.nil_append, longest_of_isBlank rfl] at h
  cases h

theorem Spelled.scan {ls : List Lexeme} (h : Spelled ls cs) (source : String) (here : Position) :
    ∃ tokens, scanFrom source 0 here cs = .ok tokens ∧ tokens.map Token.lexeme = ls := by
  induction h generalizing here with
  | nil => exact ⟨[], rfl, rfl⟩
  | @blank ls cs c hc _ ih =>
    rw [scanFrom_zero, if_pos hc]
    exact ih (pass here c)
  | @opening ls cs l hl _ ih =>
    have hne : l.text.toList ≠ [] := by rcases hl with rfl | rfl <;> decide
    obtain ⟨stop, hstop⟩ := scanFrom_append source here hne
      (longest_opening hl cs)
    obtain ⟨tokens, htokens, rfl⟩ := ih stop
    exact ⟨_, by rw [hstop, htokens]; rfl, rfl⟩
  | @lexeme ls cs l hl hb _ ih =>
    obtain ⟨stop, hstop⟩ := scanFrom_append source here
      (text_ne_nil_of_printable hl) (longest_text hl hb)
    obtain ⟨tokens, htokens, rfl⟩ := ih stop
    exact ⟨_, by rw [hstop, htokens]; rfl, rfl⟩

theorem blank_append (h : ∀ c ∈ w, c ≠ '#' ∧ c ≠ '"') :
    Source.blank .code (w ++ cs) = w ++ Source.blank .code cs := by
  induction w with
  | nil => rfl
  | cons c w ih =>
    have hc := h c (by simp)
    simp [Source.blank, Source.Region.keep, Source.Region.next, hc,
      ih (fun c hc => h c (by simp [hc]))]

theorem blank_escape (c : Char) (cs : List Char) :
    Source.blank (.quoted false) (Source.escape c ++ cs) =
      Source.escape c ++ Source.blank (.quoted false) cs := by
  unfold Source.escape
  split
  case h_5 hq hb _ _ =>
    simp only [List.singleton_append, Source.blank, Source.Region.keep, Source.Region.next]
    rw [if_neg hb, if_neg hq]
  all_goals rfl

theorem blank_quote (value cs : List Char) :
    Source.blank .code (Source.quote value ++ cs) =
      Source.quote value ++ Source.blank .code cs := by
  have hbody : ∀ value : List Char,
      Source.blank (.quoted false) (value.flatMap Source.escape ++ '"' :: cs) =
        value.flatMap Source.escape ++ '"' :: Source.blank .code cs := by
    intro value
    induction value with
    | nil => rfl
    | cons c value ih => rw [List.flatMap_cons, List.append_assoc, blank_escape, ih,
        List.append_assoc]
  have := hbody value
  simp [Source.quote, Source.blank, Source.Region.keep, Source.Region.next, this]

theorem isIdentRest_ne (h : isIdentRest c) : c ≠ '#' ∧ c ≠ '"' := by
  constructor <;> (rintro rfl; simp [isIdentRest] at h)

/-- A printed lexeme holds no comment, and a string hides its own. -/
theorem blank_text {l : Lexeme} (hl : l.Printable) (cs : List Char) :
    Source.blank .code (l.text.toList ++ cs) = l.text.toList ++ Source.blank .code cs := by
  cases l with
  | quoted text =>
    obtain ⟨value, hv⟩ := hl
    rw [Lexeme.text, hv, blank_quote]
  | ident text => exact blank_append (fun c hc => isIdentRest_ne (isIdentRest_of_isIdent hl.1 hc))
  | operator text =>
    have hop : ∀ w ∈ operators, ∀ c ∈ w, c ≠ '#' ∧ c ≠ '"' := by
      have hall : operators.all fun w => w.all fun c => c != '#' && c != '"' := by decide
      simpa [List.all_eq_true] using hall
    exact blank_append (hop _ hl)
  | label text =>
    obtain ⟨name, ht, -, hall⟩ := hl
    rw [List.all_eq_true] at hall
    refine blank_append (fun c hc => ?_)
    rw [Lexeme.text, ht] at hc
    rcases List.mem_cons.1 hc with rfl | hc
    · decide
    · exact isIdentRest_ne (hall c hc)
  | integer text =>
    obtain ⟨n, hn⟩ := hl
    obtain ⟨digits, -, hall, hw⟩ := numeral_cases n
    rw [List.all_eq_true] at hall
    have hdigit : ∀ c ∈ digits, c ≠ '#' ∧ c ≠ '"' := by
      intro c hc
      have := hall c hc
      constructor <;> (rintro rfl; simp at this)
    refine blank_append (fun c hc => ?_)
    rw [Lexeme.text, hn] at hc
    rcases hw with hw | hw
    · exact hdigit c (hw ▸ hc)
    · rcases List.mem_cons.1 (hw ▸ hc) with rfl | hc
      · decide
      · exact hdigit c hc
  | _ =>
    have hword : ∀ l ∈ words, ∀ c ∈ l.text.toList, c ≠ '#' ∧ c ≠ '"' := by
      have hall : words.all fun l => l.text.toList.all fun c => c != '#' && c != '"' := by decide
      simpa [List.all_eq_true] using hall
    exact blank_append (hword _ (by simp [words]))

theorem Spelled.blank_eq {ls : List Lexeme} (h : Spelled ls cs) : Source.blank .code cs = cs := by
  induction h with
  | nil => rfl
  | @blank ls cs c hc _ ih =>
    have hne : c ≠ '#' ∧ c ≠ '"' := by
      constructor <;> (rintro rfl; simp [isBlank] at hc)
    rw [← List.singleton_append, blank_append (by simpa using hne), ih]
  | opening hl _ ih => rw [blank_text (by rcases hl with rfl | rfl <;> trivial), ih]
  | lexeme hl _ _ ih => rw [blank_text hl, ih]

/-- A longest lexeme comes from one of the rules, and those before it take less. -/
theorem longest_eq_some {rs : List Rule} {n : Nat} {l : Lexeme} (h : longest cs rs = some (n, l)) :
    ∃ before rule after, rs = before ++ rule :: after ∧ rule.extent cs = n ∧ 0 < n ∧
      l = rule.lexeme (String.ofList (cs.take n)) ∧ ∀ r ∈ before, r.extent cs < n := by
  induction rs generalizing n l with
  | nil => simp [longest] at h
  | cons rule rs ih =>
    rw [longest] at h
    cases hrest : longest cs rs with
    | none =>
      rw [hrest] at h
      dsimp only at h
      split at h
      · cases h
      · cases h
        exact ⟨[], rule, rs, rfl, rfl, by omega, rfl, by simp⟩
    | some later =>
      obtain ⟨m, l'⟩ := later
      obtain ⟨before, r, after, he, hr, hpos, hl, hb⟩ := ih hrest
      rw [hrest] at h
      dsimp only at h
      split at h
      · cases h
        exact ⟨[], rule, rs, rfl, rfl, by omega, rfl, by simp⟩
      · cases h
        refine ⟨rule :: before, r, after, by rw [he, List.cons_append], hr, hpos, hl, ?_⟩
        intro r' hr'
        rcases List.mem_cons.1 hr' with rfl | hr'
        · omega
        · exact hb r' hr'

theorem all_takeWhile (p : Char → Bool) (w : List Char) : (w.takeWhile p).all p := by
  induction w with
  | nil => rfl
  | cons c w ih =>
    by_cases hc : p c <;> simp_all

theorem take_length_takeWhile (p : Char → Bool) (w : List Char) :
    w.take (w.takeWhile p).length = w.takeWhile p :=
  List.prefix_iff_eq_take.1 (List.takeWhile_prefix p) |>.symm

theorem isIdent_take (h : 0 < identExtent cs) : isIdent (cs.take (identExtent cs)) := by
  cases cs with
  | nil => simp [identExtent] at h
  | cons c cs =>
    rw [identExtent] at h ⊢
    split at h
    · next hc =>
      rw [if_pos hc, List.take_succ_cons, take_length_takeWhile, isIdent, hc, all_takeWhile]
      rfl
    · omega

theorem take_operatorExtent (h : 0 < operatorExtent cs) :
    cs.take (operatorExtent cs) ∈ operators := by
  rcases operatorExtent_cases cs with h0 | ⟨word, hmem, hp, he⟩
  · omega
  · rwa [he, ← List.prefix_iff_eq_take.1 hp]

theorem take_labelExtent (h : 0 < labelExtent cs) :
    ∃ name, cs.take (labelExtent cs) = '.' :: name ∧ name ≠ [] ∧ name.all isIdentRest := by
  unfold labelExtent at h ⊢
  split at h
  · next cs =>
    dsimp only at h ⊢
    split at h
    · omega
    · next hne =>
      refine ⟨cs.takeWhile isIdentRest, ?_, by simpa using hne, all_takeWhile _ _⟩
      rw [if_neg hne, List.take_succ_cons, take_length_takeWhile]
  · omega

theorem proper_of_longest {n : Nat} {l : Lexeme} (h : longest cs rules = some (n, l)) :
    l.Proper := by
  obtain ⟨before, rule, after, hrules, rfl, hpos, rfl, hb⟩ := longest_eq_some h
  have hmem : rule ∈ rules := by simp [hrules]
  rcases mem_rules hmem with ⟨l, hl, rfl⟩ | rfl | rfl | rfl | rfl | rfl
  · have : ∀ l ∈ words, l.Proper := by simp [words, Lexeme.Proper]
    exact this l hl
  · refine ⟨by simpa using isIdent_take hpos, fun hlet => ?_⟩
    have htake : cs.take (identExtent cs) = ['l', 'e', 't'] := by
      simpa using congrArg String.toList hlet
    have hlen : identExtent cs = 3 := by
      have := congrArg List.length htake
      rw [List.length_take, Nat.min_eq_left (identExtent_le cs)] at this
      exact this
    -- The rule for the word stands first and takes as much.
    have hfirst : fixed .letWord ∈ before := by
      cases before with
      | nil =>
        have := congrArg (fun rs => rs.head?.map (fun r => r.lexeme "")) hrules
        simp [rules, fixed] at this
      | cons r before =>
        have : r = fixed .letWord := by
          have := congrArg List.head? hrules
          simpa [rules] using this.symm
        simp [this]
    have hword := hb _ hfirst
    have hprefix : ['l', 'e', 't'] <+: cs := htake ▸ List.take_prefix _ _
    have : wordExtent ['l', 'e', 't'] cs = 3 := by
      rw [wordExtent, if_pos (List.isPrefixOf_iff_prefix.2 hprefix)]
      rfl
    have heq : (fixed .letWord).extent cs = wordExtent ['l', 'e', 't'] cs := rfl
    simp only [heq, this, hlen] at hword
    omega
  · simpa [Lexeme.Proper] using take_operatorExtent hpos
  · simpa [Lexeme.Proper] using take_labelExtent hpos
  · trivial
  · trivial

theorem proper_of_scanFrom {source : String} {inside : Nat} {here : Position} {tokens : List Token}
    (h : scanFrom source inside here cs = .ok tokens) : ∀ token ∈ tokens, token.lexeme.Proper := by
  induction cs generalizing inside here tokens with
  | nil =>
    cases h
    simp
  | cons c cs ih =>
    cases inside with
    | succ inside => exact ih h
    | zero =>
      rw [scanFrom_zero] at h
      split at h
      · exact ih h
      · split at h
        · cases h
        · next n l hl =>
          dsimp only at h
          cases hrest : scanFrom source (n - 1) _ cs with
          | error e =>
            rw [hrest] at h
            cases h
          | ok rest =>
            rw [hrest] at h
            cases h
            intro token htoken
            rcases List.mem_cons.1 htoken with rfl | htoken
            · exact proper_of_longest hl
            · exact ih hrest token htoken

end Scan

end ClauseLang
