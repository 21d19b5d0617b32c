import ClauseLang.Proofs.Source.Line
import ClauseLang.Source.Comment
import Mathlib.Data.List.Induction

namespace ClauseLang.Source

def regionAt (cs : List Char) (i : Nat) : Region :=
  (cs.take i).foldl Region.next .code

/-- The character with the given index is in a comment: there is a `#` outside strings at or before it,
and no line end between. -/
def InComment (cs : List Char) (i : Nat) : Prop :=
  i < cs.length ∧ ∃ j ≤ i, cs[j]? = some '#' ∧ regionAt cs j = .code ∧
    ∀ k, j ≤ k → k ≤ i → cs[k]? ≠ some '\n'

/-- On the same line before the character with the given index stands one of a comment that takes more
than one byte. -/
def BehindWide (cs : List Char) (i : Nat) : Prop :=
  ∃ j < i, InComment cs j ∧ (∃ c, cs[j]? = some c ∧ 1 < c.utf8Size) ∧
    ∀ k, j ≤ k → k < i → cs[k]? ≠ some '\n'

/-- A comment with a character of more than one byte ends at the line end with the given index. -/
def EndsWideComment (cs : List Char) (i : Nat) : Prop :=
  cs[i]? = some '\n' ∧ BehindWide cs i

/-- The second text is the first one with each character of a comment blanked, and everything else
where it was. A blank takes the place of a character, not of its bytes. On the line behind it there is
only the line end, which moves if bytes were lost. -/
structure KeepsPlaces (cs ds : List Char) : Prop where
  length : ds.length = cs.length
  newline : ∀ i : Nat, ds[i]? = some '\n' ↔ cs[i]? = some '\n'
  blanked : ∀ i : Nat, InComment cs i → ds[i]? = some ' '
  kept : ∀ i : Nat, ¬ InComment cs i → ds[i]? = cs[i]?
  line : ∀ i, (positionAt ds i).line = (positionAt cs i).line
  position : ∀ i < cs.length, ¬ InComment cs i →
    (positionAt ds i = positionAt cs i ↔ ¬ EndsWideComment cs i)

section

variable {region : Region} {cs ds : List Char} {c : Char} {i : Nat}

theorem regionAt_succ (h : cs[i]? = some c) : regionAt cs (i + 1) = (regionAt cs i).next c := by
  rw [regionAt, List.take_add_one, h, List.foldl_append]
  rfl

theorem getElem?_blank (region : Region) (cs : List Char) (i : Nat) :
    (blank region cs)[i]? = cs[i]?.map ((cs.take i).foldl Region.next region).keep := by
  induction cs generalizing region i with
  | nil => rfl
  | cons c cs ih =>
    cases i with
    | zero => rfl
    | succ i =>
      rw [blank, List.getElem?_cons_succ, ih]
      rfl

theorem next_eq_comment (h : region.next c = .comment) :
    c ≠ '\n' ∧ (region = .comment ∨ region = .code ∧ c = '#') := by
  cases region with
  | comment =>
    by_cases hc : c = '\n'
    · simp [Region.next, hc] at h
    · exact ⟨hc, .inl rfl⟩
  | code =>
    by_cases hc : c = '#'
    · exact ⟨by rw [hc]; decide, .inr ⟨rfl, hc⟩⟩
    · by_cases hq : c = '"' <;> simp [Region.next, hc, hq] at h
  | quoted escaped =>
    cases escaped with
    | true => cases h
    | false => by_cases hb : c = '\\' <;> by_cases hq : c = '"' <;> simp [Region.next, hb, hq] at h

/-- A comment that is still going on began at a `#` on the same line. -/
theorem exists_of_regionAt_eq_comment (hi : i ≤ cs.length) (h : regionAt cs i = .comment) :
    ∃ j < i, cs[j]? = some '#' ∧ regionAt cs j = .code ∧
      ∀ k, j ≤ k → k < i → cs[k]? ≠ some '\n' := by
  induction i with
  | zero => cases h
  | succ i ih =>
    obtain ⟨c, hc⟩ : ∃ c, cs[i]? = some c := ⟨_, List.getElem?_eq_getElem (by omega)⟩
    rw [regionAt_succ hc] at h
    obtain ⟨hne, h | ⟨hcode, rfl⟩⟩ := next_eq_comment h
    · obtain ⟨j, hj, hhash, hcode, hline⟩ := ih (by omega) h
      refine ⟨j, by omega, hhash, hcode, fun k hjk hk => ?_⟩
      by_cases hki : k = i
      · rw [hki, hc]
        simpa using hne
      · exact hline k hjk (by omega)
    · refine ⟨i, by omega, hc, hcode, fun k hik hk => ?_⟩
      obtain rfl : k = i := by omega
      rw [hc]
      simp

theorem regionAt_eq_comment {j : Nat} (hi : i ≤ cs.length) (hj : j < i) (hhash : cs[j]? = some '#')
    (hcode : regionAt cs j = .code) (hline : ∀ k, j ≤ k → k < i → cs[k]? ≠ some '\n') :
    regionAt cs i = .comment := by
  induction i with
  | zero => omega
  | succ i ih =>
    by_cases hji : j = i
    · rw [regionAt_succ (hji ▸ hhash), ← hji, hcode]
      rfl
    · obtain ⟨c, hc⟩ : ∃ c, cs[i]? = some c := ⟨_, List.getElem?_eq_getElem (by omega)⟩
      have hne : c ≠ '\n' := by
        have h := hline i (by omega) (by omega)
        rw [hc] at h
        simpa using h
      rw [regionAt_succ hc, ih (by omega) (by omega) fun k hjk hk => hline k hjk (by omega)]
      exact if_neg hne

theorem inComment_iff : InComment cs i ↔
    ∃ c, cs[i]? = some c ∧ c ≠ '\n' ∧ (regionAt cs i = .comment ∨ regionAt cs i = .code ∧ c = '#') := by
  constructor
  · rintro ⟨hi, j, hji, hhash, hcode, hline⟩
    have hc : cs[i]? = some cs[i] := List.getElem?_eq_getElem hi
    refine ⟨cs[i], hc, fun hn => hline i hji (Nat.le_refl i) (by rw [hc, hn]), ?_⟩
    by_cases heq : j = i
    · subst heq
      rw [hc, Option.some.injEq] at hhash
      exact .inr ⟨hcode, hhash⟩
    · exact .inl (regionAt_eq_comment (by omega) (by omega) hhash hcode
        fun k hjk hk => hline k hjk (by omega))
  · rintro ⟨c, hc, hne, h⟩
    have hi : i < cs.length := (List.getElem?_eq_some_iff.1 hc).1
    have hhere : cs[i]? ≠ some '\n' := by
      rw [hc]
      simpa using hne
    rcases h with h | ⟨hcode, rfl⟩
    · obtain ⟨j, hj, hhash, hcode, hline⟩ := exists_of_regionAt_eq_comment (by omega) h
      refine ⟨hi, j, by omega, hhash, hcode, fun k hjk hk => ?_⟩
      by_cases hki : k = i
      · exact hki ▸ hhere
      · exact hline k hjk (by omega)
    · refine ⟨hi, i, Nat.le_refl i, hc, hcode, fun k hik hk => ?_⟩
      obtain rfl : k = i := by omega
      exact hhere

theorem getElem?_blank_of_inComment (h : InComment cs i) : (blank .code cs)[i]? = some ' ' := by
  obtain ⟨c, hc, hne, h⟩ := inComment_iff.1 h
  rw [getElem?_blank, hc]
  change some ((regionAt cs i).keep c) = _
  rcases h with h | ⟨h, rfl⟩
  · rw [h, Region.keep, if_neg hne]
  · rw [h]
    rfl

theorem getElem?_blank_of_not_inComment (h : ¬ InComment cs i) : (blank .code cs)[i]? = cs[i]? := by
  rw [getElem?_blank]
  cases hc : cs[i]? with
  | none => rfl
  | some c =>
    change some ((regionAt cs i).keep c) = _
    congr 1
    cases hr : regionAt cs i with
    | quoted => rfl
    | comment =>
      refine if_pos ?_
      by_contra hne
      exact h (inComment_iff.2 ⟨c, hc, hne, .inl hr⟩)
    | code =>
      refine if_neg ?_
      rintro rfl
      exact h (inComment_iff.2 ⟨'#', hc, by decide, .inr ⟨hr, rfl⟩⟩)

theorem getElem?_blank_eq_newline_iff : (blank .code cs)[i]? = some '\n' ↔ cs[i]? = some '\n' := by
  by_cases h : InComment cs i
  · obtain ⟨c, hc, hne, -⟩ := inComment_iff.1 h
    rw [getElem?_blank_of_inComment h, hc]
    simp [hne]
  · rw [getElem?_blank_of_not_inComment h]

theorem take_blank (region : Region) (cs : List Char) (i : Nat) :
    (blank region cs).take i = blank region (cs.take i) := by
  induction cs generalizing region i with
  | nil => simp [blank]
  | cons c cs ih =>
    cases i with
    | zero => rfl
    | succ i => rw [blank, List.take_succ_cons, List.take_succ_cons, blank, ih]

theorem drop_blank (region : Region) (cs : List Char) (i : Nat) :
    (blank region cs).drop i = blank ((cs.take i).foldl Region.next region) (cs.drop i) := by
  induction cs generalizing region i with
  | nil => simp [blank]
  | cons c cs ih =>
    cases i with
    | zero => rfl
    | succ i => rw [blank, List.drop_succ_cons, ih, List.take_succ_cons, List.foldl_cons,
        List.drop_succ_cons]

/-! ### Lines and columns -/

theorem positionAt_succ (h : cs[i]? = some c) : positionAt cs (i + 1) = (positionAt cs i).step c := by
  rw [positionAt, List.take_add_one, h, Position.after_append]
  rfl

theorem positionAt_of_length_le (h : cs.length ≤ i) : positionAt cs i = positionAt cs cs.length := by
  rw [positionAt, positionAt, List.take_of_length_le h, List.take_length]

theorem behindWide_succ (h : cs[i]? = some c) : BehindWide cs (i + 1) ↔
    c ≠ '\n' ∧ (BehindWide cs i ∨ InComment cs i ∧ 1 < c.utf8Size) := by
  constructor
  · intro ⟨j, hji, hcomment, ⟨d, hd, hwide⟩, hline⟩
    have hc : c ≠ '\n' := by
      intro hc
      exact hline i (by omega) (by omega) (hc ▸ h)
    refine ⟨hc, ?_⟩
    by_cases hj : j = i
    · rw [hj, h, Option.some.injEq] at hd
      exact .inr ⟨hj ▸ hcomment, hd ▸ hwide⟩
    · exact .inl ⟨j, by omega, hcomment, ⟨d, hd, hwide⟩, fun k hjk hk => hline k hjk (by omega)⟩
  · intro ⟨hc, hwide⟩
    have hhere : cs[i]? ≠ some '\n' := by
      rw [h]
      simpa using hc
    obtain ⟨j, hji, hcomment, hj, hline⟩ | ⟨hcomment, hwide⟩ := hwide
    · refine ⟨j, by omega, hcomment, hj, fun k hjk hk => ?_⟩
      by_cases hki : k = i
      · exact hki ▸ hhere
      · exact hline k hjk (by omega)
    · refine ⟨i, by omega, hcomment, ⟨c, h, hwide⟩, fun k hik hk => ?_⟩
      obtain rfl : k = i := by omega
      exact hhere

/-- Blanking keeps lines. It moves characters to smaller columns only, and just those behind a blank
that stands for more than one byte. -/
theorem positionAt_blank (hi : i ≤ cs.length) :
    (positionAt (blank .code cs) i).line = (positionAt cs i).line ∧
      (positionAt (blank .code cs) i).column ≤ (positionAt cs i).column ∧
      ((positionAt (blank .code cs) i).column = (positionAt cs i).column ↔ ¬ BehindWide cs i) := by
  induction i with
  | zero =>
    refine ⟨rfl, Nat.le_refl 0, fun _ => ?_, fun _ => rfl⟩
    intro ⟨j, hj, _⟩
    exact absurd hj (Nat.not_lt_zero j)
  | succ i ih =>
    obtain ⟨hline, hle, hwide⟩ := ih (by omega)
    obtain ⟨c, hc⟩ : ∃ c, cs[i]? = some c := ⟨_, List.getElem?_eq_getElem (by omega)⟩
    rw [behindWide_succ hc, positionAt_succ hc]
    by_cases hnl : c = '\n'
    · subst hnl
      rw [positionAt_succ (getElem?_blank_eq_newline_iff.2 hc), Position.step_newline,
        Position.step_newline]
      simp [hline]
    · rw [Position.step_of_ne _ hnl]
      by_cases hcomment : InComment cs i
      · have hsize := c.utf8Size_pos
        have hblank : ' '.utf8Size = 1 := rfl
        rw [positionAt_succ (getElem?_blank_of_inComment hcomment),
          Position.step_of_ne _ (by decide), hblank]
        have hcolumn : (positionAt (blank .code cs) i).column + 1 =
            (positionAt cs i).column + c.utf8Size ↔
              ¬ BehindWide cs i ∧ ¬ 1 < c.utf8Size := by
          rw [← hwide]
          omega
        refine ⟨hline, by dsimp only; omega, hcolumn.trans ?_⟩
        simp [hnl, hcomment]
      · rw [positionAt_succ ((getElem?_blank_of_not_inComment hcomment).trans hc),
          Position.step_of_ne _ hnl]
        simp [hnl, hcomment, hline, hle, hwide]

theorem line_positionAt_blank (cs : List Char) (i : Nat) :
    (positionAt (blank .code cs) i).line = (positionAt cs i).line := by
  by_cases hi : i ≤ cs.length
  · exact (positionAt_blank hi).1
  · rw [positionAt_of_length_le (by omega : cs.length ≤ i),
      positionAt_of_length_le (by rw [length_blank]; omega), length_blank]
    exact (positionAt_blank (Nat.le_refl _)).1

/-- Behind a comment there is nothing on the line but its end. -/
theorem endsWideComment_iff (hi : i < cs.length) (h : ¬ InComment cs i) :
    EndsWideComment cs i ↔ BehindWide cs i := by
  refine ⟨And.right, fun hwide => ⟨?_, hwide⟩⟩
  obtain ⟨j, hji, ⟨hj, l, hlj, hhash, hcode, hline⟩, -, hrest⟩ := hwide
  have hregion : regionAt cs i = .comment := by
    refine regionAt_eq_comment (by omega) (by omega) hhash hcode fun k hlk hk => ?_
    by_cases hkj : k ≤ j
    · exact hline k hlk hkj
    · exact hrest k (by omega) hk
  have hc : cs[i]? = some cs[i] := List.getElem?_eq_getElem hi
  by_contra hne
  rw [hc, Option.some.injEq] at hne
  exact h (inComment_iff.2 ⟨_, hc, hne, .inl hregion⟩)

theorem keepsPlaces_blank (cs : List Char) : KeepsPlaces cs (blank .code cs) where
  length := length_blank .code cs
  newline _ := getElem?_blank_eq_newline_iff
  blanked _ := getElem?_blank_of_inComment
  kept _ := getElem?_blank_of_not_inComment
  line := line_positionAt_blank cs
  position i hi h := by
    obtain ⟨hline, -, hwide⟩ := positionAt_blank (Nat.le_of_lt hi)
    rw [endsWideComment_iff hi h, ← hwide, Position.ext_iff]
    exact and_iff_right hline

/-! ### Blanking twice -/

/-- The region as it is when comments are gone. -/
def Region.settled : Region → Region
  | .comment => .code
  | region => region

theorem next_settled (region : Region) (c : Char) :
    region.settled.next (region.keep c) = (region.next c).settled := by
  cases region with
  | comment =>
    by_cases hc : c = '\n'
    · subst hc
      rfl
    · simp [Region.next, Region.keep, Region.settled, hc]
  | code =>
    by_cases hc : c = '#'
    · subst hc
      rfl
    · by_cases hq : c = '"' <;> simp [Region.next, Region.keep, Region.settled, hc, hq]
  | quoted escaped =>
    cases escaped with
    | true => rfl
    | false =>
      by_cases hb : c = '\\' <;> by_cases hq : c = '"' <;>
        simp [Region.next, Region.keep, Region.settled, hb, hq]

theorem keep_settled (region : Region) (c : Char) :
    region.settled.keep (region.keep c) = region.keep c := by
  cases region with
  | quoted => rfl
  | comment =>
    refine if_neg fun h => ?_
    by_cases hc : c = '\n' <;> simp [Region.keep, hc] at h
  | code =>
    refine if_neg fun h => ?_
    by_cases hc : c = '#' <;> simp [Region.keep, hc] at h

theorem foldl_next_blank (region : Region) (cs : List Char) :
    (blank region cs).foldl Region.next region.settled = (cs.foldl Region.next region).settled := by
  induction cs generalizing region with
  | nil => rfl
  | cons c cs ih => rw [blank, List.foldl_cons, List.foldl_cons, next_settled, ih]

theorem blank_blank (region : Region) (cs : List Char) :
    blank region.settled (blank region cs) = blank region cs := by
  induction cs generalizing region with
  | nil => rfl
  | cons c cs ih => rw [blank, blank, next_settled, keep_settled, ih]

end

end ClauseLang.Source
