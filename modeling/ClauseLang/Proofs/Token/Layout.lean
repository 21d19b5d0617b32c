import ClauseLang.Proofs.Source.Comment
import ClauseLang.Proofs.Token.Spelling

/-!
Where tokens stand. A text that can be scanned is laid out: its tokens follow each other with blanks
between them. Blanking comments and scanning go through a text each in its own way, and a layout shows
that they agree on what is a string.
-/

namespace ClauseLang

namespace Scan

/-- A character that begins no comment and no string, and ends no line. -/
def isPlain (c : Char) : Bool :=
  c != '#' && c != '"' && c != '\n' && c != '\r'

/-- The rest of a string after its opening quote: the closing one is the first that is not escaped. -/
inductive Closed : List Char → Prop
  | quote : Closed ['"']
  | escape {c : Char} {cs : List Char} : c ≠ '\n' → Closed cs → Closed ('\\' :: c :: cs)
  | char {c : Char} {cs : List Char} : c ≠ '"' → c ≠ '\\' → Closed cs → Closed (c :: cs)

end Scan

namespace Lexeme

def Whole : Lexeme → Prop
  | .quoted text => ∃ body, text.toList = '"' :: body ∧ Scan.Closed body
  | l => l.text.toList ≠ [] ∧ l.text.toList.all Scan.isPlain

end Lexeme

namespace Scan

open Source

section

variable {c : Char} {w cs ds : List Char} {l : Lexeme} {n : Nat}

/-! ### What a rule takes -/

theorem isPlain_of_isIdentRest (h : isIdentRest c) : isPlain c := by
  have hne : c ≠ '#' ∧ c ≠ '"' ∧ c ≠ '\n' ∧ c ≠ '\r' := by
    refine ⟨?_, ?_, ?_, ?_⟩ <;> (rintro rfl; simp [isIdentRest] at h)
  simpa [isPlain, and_assoc] using hne

theorem isPlain_of_isDigit (h : c.isDigit) : isPlain c :=
  isPlain_of_isIdentRest (by simp [isIdentRest, Char.isAlphanum, h])

theorem all_isPlain_of_all {p : Char → Bool} (hp : ∀ c, p c → isPlain c) (h : w.all p) :
    w.all isPlain := by
  rw [List.all_eq_true] at h ⊢
  exact fun c hc => hp c (h c hc)

theorem all_isPlain_of_isIdent (h : isIdent w) : w.all isPlain :=
  List.all_eq_true.2 fun _ hc => isPlain_of_isIdentRest (isIdentRest_of_isIdent h hc)

theorem all_isPlain_take_digitsExtent (cs : List Char) : (cs.take (digitsExtent cs)).all isPlain := by
  rw [digitsExtent, take_length_takeWhile]
  exact all_isPlain_of_all (fun _ => isPlain_of_isDigit) (all_takeWhile _ _)

theorem all_isPlain_take_integerExtent (cs : List Char) :
    (cs.take (integerExtent cs)).all isPlain := by
  unfold integerExtent
  split
  · split
    · rfl
    · rw [List.take_succ_cons, List.all_cons, all_isPlain_take_digitsExtent]
      rfl
  · exact all_isPlain_take_digitsExtent cs

/-- What is taken for the rest of a string is closed, and it is there. -/
theorem closed_take_of_quotedRest? (h : quotedRest? cs = some n) :
    n ≤ cs.length ∧ Closed (cs.take n) := by
  fun_induction quotedRest? cs generalizing n with
  | case1 | case3 | case5 => cases h
  | case2 =>
    cases h
    exact ⟨Nat.le_add_left 1 _, .quote⟩
  | case4 c cs hc ih =>
    obtain ⟨m, hm, rfl⟩ := Option.map_eq_some_iff.1 h
    obtain ⟨hle, hclosed⟩ := ih hm
    exact ⟨Nat.add_le_add_right hle 2, .escape hc hclosed⟩
  | case6 c cs hquote hescape hend ih =>
    obtain ⟨m, hm, rfl⟩ := Option.map_eq_some_iff.1 h
    obtain ⟨hle, hclosed⟩ := ih hm
    -- A backslash with nothing after it is no string, and with something after it is an escape.
    have hb : c ≠ '\\' := by
      rintro rfl
      cases cs with
      | nil => exact hend rfl rfl
      | cons d ds => exact hescape d ds rfl rfl
    exact ⟨Nat.add_le_add_right hle 1, .char hquote hb hclosed⟩

theorem closed_take_quotedExtent (h : 0 < quotedExtent cs) :
    quotedExtent cs ≤ cs.length ∧ ∃ body, cs.take (quotedExtent cs) = '"' :: body ∧ Closed body := by
  unfold quotedExtent at h ⊢
  split
  · next ds =>
    cases hrest : quotedRest? ds with
    | none => simp [hrest] at h
    | some n =>
      obtain ⟨hle, hclosed⟩ := closed_take_of_quotedRest? hrest
      exact ⟨Nat.succ_le_succ hle, ds.take n, rfl, hclosed⟩
  · next hne =>
    split at h
    · next ds => exact absurd rfl (hne ds)
    · cases h

/-- A longest lexeme is whole, and it is spelled by as much of the text as it takes. -/
theorem whole_of_longest (h : longest cs rules = some (n, l)) :
    l.Whole ∧ l.text.toList = cs.take n ∧ 0 < n ∧ n ≤ cs.length := by
  obtain ⟨before, rule, after, hrules, rfl, hpos, rfl, -⟩ := longest_eq_some h
  have hne {k : Nat} (hk : 0 < k) (hle : k ≤ cs.length) : cs.take k ≠ [] := by
    rw [Ne, ← List.length_eq_zero_iff, List.length_take]
    omega
  rcases mem_rules (by simp [hrules] : rule ∈ rules) with
    ⟨l, hl, rfl⟩ | rfl | rfl | rfl | rfl | rfl
  · have hword : ∀ l ∈ words, l.text.toList ≠ [] ∧ l.text.toList.all isPlain := by decide
    have hprefix : l.text.toList <+: cs := by
      by_contra hno
      simp [fixed, wordExtent, hno] at hpos
    have hextent : (fixed l).extent cs = l.text.toList.length :=
      if_pos (List.isPrefixOf_iff_prefix.2 hprefix)
    have hwhole : l.Whole := by
      have := hword l hl
      cases l with
      | quoted => simp [words] at hl
      | _ => exact this
    refine ⟨hwhole, ?_, hpos, hextent ▸ hprefix.length_le⟩
    rw [hextent]
    exact List.prefix_iff_eq_take.1 hprefix
  · have hle := identExtent_le cs
    simp only [Lexeme.Whole, Lexeme.text, String.toList_ofList]
    exact ⟨⟨hne hpos hle, all_isPlain_of_isIdent (isIdent_take hpos)⟩, trivial, hpos, hle⟩
  · have hle := operatorExtent_le cs
    have hplain : ∀ w ∈ operators, w.all isPlain := by decide
    simp only [Lexeme.Whole, Lexeme.text, String.toList_ofList]
    exact ⟨⟨hne hpos hle, hplain _ (take_operatorExtent hpos)⟩, trivial, hpos, hle⟩
  · have hle := labelExtent_le cs
    obtain ⟨name, htake, -, hname⟩ := take_labelExtent hpos
    have hplain : (cs.take (labelExtent cs)).all isPlain := by
      rw [htake, List.all_cons, all_isPlain_of_all (fun _ => isPlain_of_isIdentRest) hname]
      rfl
    simp only [Lexeme.Whole, Lexeme.text, String.toList_ofList]
    exact ⟨⟨hne hpos hle, hplain⟩, trivial, hpos, hle⟩
  · obtain ⟨hle, hclosed⟩ := closed_take_quotedExtent hpos
    simp only [Lexeme.Whole, Lexeme.text, String.toList_ofList]
    exact ⟨hclosed, trivial, hpos, hle⟩
  · have hle := integerExtent_le cs
    simp only [Lexeme.Whole, Lexeme.text, String.toList_ofList]
    exact ⟨⟨hne hpos hle, all_isPlain_take_integerExtent cs⟩, trivial, hpos, hle⟩

theorem text_ne_nil_of_whole (h : l.Whole) : l.text.toList ≠ [] := by
  cases l with
  | quoted text =>
    obtain ⟨body, htext, -⟩ := h
    rw [Lexeme.text, htext]
    exact List.cons_ne_nil _ _
  | _ => exact h.1

end

/-! ### Layouts -/

/-- A text with its tokens, from a position on: blanks may stand before, between and behind them. -/
inductive Laid (source : String) : Position → List Char → List Token → Prop
  | nil {here : Position} : Laid source here [] []
  | blank {here : Position} {c : Char} {cs : List Char} {tokens : List Token} :
    isBlank c → Laid source (pass here c) cs tokens → Laid source here (c :: cs) tokens
  | lexeme {here stop : Position} {l : Lexeme} {cs : List Char} {tokens : List Token} :
    l.Whole → stop = ⟨here.line, here.column + byteLength l.text.toList⟩ →
      Laid source stop cs tokens →
      Laid source here (l.text.toList ++ cs) (⟨l, ⟨here, stop, source⟩⟩ :: tokens)

/-- A token stands at an index of a text, where the tokens before it take just what is before. -/
def StandsAt (source : String) (here : Position) (cs : List Char) (before : List Token)
    (token : Token) (k : Nat) : Prop :=
  Laid source here (cs.take k) before ∧ token.lexeme.text.toList <+: cs.drop k

section

variable {source : String} {here : Position} {c : Char} {cs : List Char} {tokens : List Token}

theorem laid_of_scanFrom {inside : Nat} (h : scanFrom source inside here cs = .ok tokens) :
    Laid source here (cs.drop inside) tokens := by
  induction cs generalizing inside here tokens with
  | nil =>
    cases h
    rw [List.drop_nil]
    exact .nil
  | cons c cs ih =>
    cases inside with
    | succ inside => exact ih h
    | zero =>
      rw [scanFrom_zero] at h
      split at h
      · next hc => exact .blank hc (ih h)
      · split at h
        · cases h
        · next n l hl =>
          obtain ⟨hwhole, htext, hpos, hle⟩ := whole_of_longest hl
          have hsplit : c :: cs = l.text.toList ++ cs.drop (n - 1) := by
            rw [htext, ← List.drop_succ_cons (a := c), Nat.sub_add_cancel hpos, List.take_append_drop]
          dsimp only at h
          rw [← htext] at h
          cases hrest : scanFrom source (n - 1) _ cs with
          | error e =>
            rw [hrest] at h
            cases h
          | ok rest =>
            rw [hrest] at h
            cases h
            rw [List.drop_zero, hsplit]
            exact .lexeme hwhole rfl (ih hrest)

theorem laid_of_scan {text : String} (h : scan text = .ok tokens) :
    Laid text ⟨0, 0⟩ text.toList tokens :=
  laid_of_scanFrom h

theorem Laid.whole (h : Laid source here cs tokens) : ∀ token ∈ tokens, token.lexeme.Whole := by
  induction h with
  | nil => simp
  | blank _ _ ih => exact ih
  | lexeme hwhole _ _ ih =>
    intro token htoken
    rcases List.mem_cons.1 htoken with rfl | htoken
    · exact hwhole
    · exact ih token htoken

section

variable {before after : List Token} {token : Token} {k : Nat}

theorem StandsAt.blank (hc : isBlank c) (h : StandsAt source (pass here c) cs before token k) :
    StandsAt source here (c :: cs) before token (k + 1) :=
  ⟨.blank hc h.1, h.2⟩

theorem StandsAt.lexeme {stop : Position} {l : Lexeme} (hwhole : l.Whole)
    (hstop : stop = ⟨here.line, here.column + byteLength l.text.toList⟩)
    (h : StandsAt source stop cs before token k) :
    StandsAt source here (l.text.toList ++ cs) (⟨l, ⟨here, stop, source⟩⟩ :: before) token
      (l.text.toList.length + k) := by
  refine ⟨?_, ?_⟩
  · rw [List.take_length_add_append]
    exact .lexeme hwhole hstop h.1
  · rw [List.drop_length_add_append]
    exact h.2

theorem standsAt_zero (h : token.lexeme.text.toList <+: cs) : StandsAt source here cs [] token 0 :=
  ⟨.nil, h⟩

theorem Laid.exists_standsAt (h : Laid source here cs tokens)
    (htokens : tokens = before ++ token :: after) :
    ∃ k, StandsAt source here cs before token k := by
  induction h generalizing before with
  | nil => simp at htokens
  | blank hc _ ih =>
    obtain ⟨k, hk⟩ := ih htokens
    exact ⟨k + 1, hk.blank hc⟩
  | lexeme hwhole hstop _ ih =>
    cases before with
    | nil =>
      cases htokens
      exact ⟨0, standsAt_zero (List.prefix_append _ _)⟩
    | cons first before =>
      cases htokens
      obtain ⟨k, hk⟩ := ih rfl
      exact ⟨_, hk.lexeme hwhole hstop⟩

end

end

/-! ### Strings and comments -/

section

variable {source : String} {here : Position} {c : Char} {w cs : List Char} {tokens : List Token}
  {l : Lexeme}

theorem next_of_isPlain (h : isPlain c) : Region.next .code c = .code := by
  simp only [isPlain, Bool.and_eq_true, bne_iff_ne] at h
  obtain ⟨⟨⟨hhash, hquote⟩, -⟩, -⟩ := h
  rw [Region.next, if_neg hhash, if_neg hquote]

theorem foldl_next_of_all_isPlain (h : w.all isPlain) : w.foldl Region.next .code = .code := by
  induction w with
  | nil => rfl
  | cons c w ih =>
    rw [List.all_cons, Bool.and_eq_true] at h
    rw [List.foldl_cons, next_of_isPlain h.1, ih h.2]

theorem Closed.foldl_next (h : Closed w) : w.foldl Region.next (.quoted false) = .code := by
  induction h with
  | quote => rfl
  | escape _ _ ih => exact ih
  | @char c cs hquote hescape _ ih =>
    have hnext : Region.next (.quoted false) c = .quoted false := by
      rw [Region.next, if_neg hescape, if_neg hquote]
    rw [List.foldl_cons, hnext, ih]

theorem foldl_next_of_whole (h : l.Whole) : l.text.toList.foldl Region.next .code = .code := by
  cases l with
  | quoted text =>
    obtain ⟨body, htext, hclosed⟩ := h
    rw [Lexeme.text, htext]
    exact hclosed.foldl_next
  | _ => exact foldl_next_of_all_isPlain h.2

theorem Laid.foldl_next (h : Laid source here cs tokens) : cs.foldl Region.next .code = .code := by
  induction h with
  | nil => rfl
  | @blank here c cs tokens hc _ ih =>
    have hnext : Region.next .code c = .code := by
      have hne : c ≠ '#' ∧ c ≠ '"' := by constructor <;> (rintro rfl; simp [isBlank] at hc)
      rw [Region.next, if_neg hne.1, if_neg hne.2]
    rw [List.foldl_cons, hnext, ih]
  | lexeme hwhole _ _ ih => rw [List.foldl_append, foldl_next_of_whole hwhole, ih]

/-- A string is read in a blanked text as it stands in the text itself. -/
theorem Closed.prefix_of_prefix_blank (h : Closed w) (hw : w <+: Source.blank (.quoted false) cs) :
    w <+: cs := by
  induction h generalizing cs with
  | quote =>
    obtain _ | ⟨d, cs⟩ := cs
    · simp [Source.blank] at hw
    · obtain ⟨rfl, -⟩ := List.cons_prefix_cons.1 hw
      exact List.prefix_append [_] cs
  | escape _ _ ih =>
    obtain _ | ⟨d, _ | ⟨e, cs⟩⟩ := cs
    · simp [Source.blank] at hw
    · simp [Source.blank] at hw
    · obtain ⟨rfl, hw⟩ := List.cons_prefix_cons.1 hw
      obtain ⟨rfl, hw⟩ := List.cons_prefix_cons.1 hw
      exact List.cons_prefix_cons.2 ⟨rfl, List.cons_prefix_cons.2 ⟨rfl, ih hw⟩⟩
  | @char c _ hquote hescape _ ih =>
    obtain _ | ⟨d, cs⟩ := cs
    · simp [Source.blank] at hw
    · obtain ⟨rfl, hw⟩ := List.cons_prefix_cons.1 hw
      have hnext : Region.next (.quoted false) c = .quoted false := by
        rw [Region.next, if_neg hescape, if_neg hquote]
      exact List.cons_prefix_cons.2 ⟨rfl, ih (hnext ▸ hw)⟩

theorem eq_quote_of_keep {region : Region} (hregion : region.settled = .code)
    (h : region.keep c = '"') : region = .code ∧ c = '"' := by
  cases region with
  | quoted => cases hregion
  | comment => by_cases hc : c = '\n' <;> simp [Region.keep, hc] at h
  | code =>
    by_cases hc : c = '#'
    · simp [Region.keep, hc] at h
    · rw [Region.keep, if_neg hc] at h
      exact ⟨rfl, h⟩

/-- What scanning a blanked text takes for a string is a string of the text itself. -/
theorem StandsAt.prefix_drop {before : List Token} {token : Token} {k : Nat} {word : String}
    (h : StandsAt source here (Source.blank .code cs) before token k) (hwhole : token.lexeme.Whole)
    (hword : token.lexeme = .quoted word) : word.toList <+: cs.drop k := by
  obtain ⟨hlaid, hprefix⟩ := h
  rw [hword] at hprefix hwhole
  obtain ⟨body, htext, hclosed⟩ := hwhole
  rw [Lexeme.text, htext] at hprefix
  have hregion : ((cs.take k).foldl Region.next .code).settled = .code := by
    rw [← foldl_next_blank, ← take_blank]
    exact hlaid.foldl_next
  rw [drop_blank] at hprefix
  rw [htext]
  cases hcs : cs.drop k with
  | nil => simp [hcs, Source.blank] at hprefix
  | cons c ds =>
    rw [hcs] at hprefix
    obtain ⟨hquote, hprefix⟩ := List.cons_prefix_cons.1 hprefix
    obtain ⟨hcode, rfl⟩ := eq_quote_of_keep hregion hquote.symm
    rw [hcode] at hprefix
    exact List.cons_prefix_cons.2 ⟨rfl, hclosed.prefix_of_prefix_blank hprefix⟩

theorem Laid.exists_quoted {i : Nat} (h : Laid source here cs tokens) (hi : cs[i]? = some '#') :
    ∃ before token after word k, tokens = before ++ token :: after ∧
      token.lexeme = .quoted word ∧ StandsAt source here cs before token k ∧
      k < i ∧ i < k + word.toList.length := by
  induction h generalizing i with
  | nil => simp at hi
  | blank hc _ ih =>
    cases i with
    | zero =>
      cases hi
      cases hc
    | succ i =>
      obtain ⟨before, token, after, word, k, rfl, hword, hk, hlt, hle⟩ := ih hi
      exact ⟨before, token, after, word, k + 1, rfl, hword, hk.blank hc, by omega, by omega⟩
  | @lexeme here stop l cs tokens hwhole hstop hrest ih =>
    by_cases hlt : i < l.text.toList.length
    · rw [List.getElem?_append_left hlt] at hi
      have hmem := List.mem_of_getElem? hi
      cases l with
      | quoted word =>
        refine ⟨[], _, tokens, word, 0, rfl, rfl, standsAt_zero (List.prefix_append _ _), ?_, ?_⟩
        · obtain ⟨body, htext, -⟩ := hwhole
          rw [Lexeme.text, htext] at hi
          cases i with
          | zero => cases hi
          | succ i => exact Nat.succ_pos i
        · rwa [Nat.zero_add]
      | _ => exact absurd (List.all_eq_true.1 hwhole.2 _ hmem) (by decide)
    · rw [List.getElem?_append_right (by omega)] at hi
      obtain ⟨before, token, after, word, k, rfl, hword, hk, hlt, hle⟩ := ih hi
      exact ⟨_ :: before, token, after, word, _, rfl, hword, hk.lexeme hwhole hstop, by omega,
        by omega⟩

end

/-! ### Lines -/

section

variable {source : String} {here : Position} {c : Char} {w cs us : List Char} {tokens : List Token}
  {l : Lexeme}

theorem pass_eq_step (here : Position) (h : isBlank c) : pass here c = here.step c := by
  have hc : c = ' ' ∨ c = '\t' ∨ c = '\n' ∨ c = '\r' ∨ c = '\x0c' := by
    simpa [isBlank, or_assoc] using h
  have hsize : c.utf8Size = 1 := by rcases hc with rfl | rfl | rfl | rfl | rfl <;> rfl
  rw [pass, Position.step, hsize]

theorem newline_not_mem_of_whole (h : l.Whole) (hl : ∀ text, l = .quoted text → '\n' ∉ text.toList) :
    '\n' ∉ l.text.toList := by
  cases l with
  | quoted text => exact hl text rfl
  | _ => exact fun hmem => absurd (List.all_eq_true.1 h.2 _ hmem) (by decide)

theorem Closed.getLast? (h : Closed w) : w.getLast? = some '"' := by
  induction h with
  | quote => rfl
  | escape _ h ih =>
    rw [List.getLast?_cons_cons, List.getLast?_cons, ih]
    rfl
  | char _ _ h ih =>
    rw [List.getLast?_cons, ih]
    rfl

/-- No lexeme ends with what may be part of a line end. -/
theorem getLast?_text_ne (h : l.Whole) : l.text.toList.getLast? ≠ some '\r' := by
  intro hlast
  cases l with
  | quoted text =>
    obtain ⟨body, htext, hclosed⟩ := h
    rw [Lexeme.text, htext, List.getLast?_cons, hclosed.getLast?] at hlast
    cases hlast
  | _ => exact absurd (List.all_eq_true.1 h.2 _ (List.mem_of_getLast? hlast)) (by decide)

/-- Every token is on one line, unless a string goes over the end of one. -/
theorem Laid.onLine (h : Laid source here cs tokens) (hsource : source.toList = us ++ cs)
    (hhere : Position.after ⟨0, 0⟩ us = here)
    (hstrings : ∀ token ∈ tokens, ∀ text, token.lexeme = .quoted text → '\n' ∉ text.toList) :
    ∀ token ∈ tokens, token.span.source = source ∧ token.span.OnLine := by
  induction h generalizing us with
  | nil => simp
  | @blank here c cs tokens hc _ ih =>
    have hstep : Position.after ⟨0, 0⟩ (us ++ [c]) = pass here c := by
      rw [Position.after_append, hhere, pass_eq_step here hc]
      rfl
    exact ih (by simp [hsource]) hstep hstrings
  | @lexeme here stop l cs tokens hwhole hstop _ ih =>
    have hline := newline_not_mem_of_whole hwhole (hstrings _ (List.mem_cons_self ..))
    have hafter : Position.after ⟨0, 0⟩ (us ++ l.text.toList) = stop := by
      rw [Position.after_append, hhere, after_eq _ hline, hstop]
    obtain ⟨earlier, before, rest, later, hlines, hstart⟩ :=
      exists_line (text_ne_nil_of_whole hwhole) hline (getLast?_text_ne hwhole) us cs 0
    have hplace : here = ⟨earlier.length, byteLength before⟩ := by
      rw [← hhere, hstart, Nat.zero_add]
    intro token htoken
    rcases List.mem_cons.1 htoken with rfl | htoken
    · refine ⟨rfl, earlier, before, l.text.toList, rest, later, ?_, text_ne_nil_of_whole hwhole,
        hplace, ?_⟩
      · rw [hsource, ← List.append_assoc, hlines]
      · rw [hstop, hplace, byteLength_append]
    · exact ih (by simp [hsource]) hafter (fun token h => hstrings token (List.mem_cons_of_mem _ h))
        token htoken

end

/-- The tokens of a blanked text stand in it, a `#` that is left stands in a string, and each string
stands in the text itself at the same index. -/
structure AgreesOnStrings (source text : String) (tokens : List Token) : Prop where
  stands : ∀ before token after, tokens = before ++ token :: after →
    ∃ k, StandsAt text ⟨0, 0⟩ text.toList before token k
  hash : ∀ i : Nat, text.toList[i]? = some '#' → ∃ before token after word k,
    tokens = before ++ token :: after ∧ token.lexeme = .quoted word ∧
      StandsAt text ⟨0, 0⟩ text.toList before token k ∧ k < i ∧ i < k + word.toList.length
  quoted : ∀ before token after word k, tokens = before ++ token :: after →
    token.lexeme = .quoted word → StandsAt text ⟨0, 0⟩ text.toList before token k →
      word.toList <+: source.toList.drop k

theorem agreesOnStrings_of_scan {source : String} {tokens : List Token}
    (h : scan (stripComments source) = .ok tokens) :
    AgreesOnStrings source (stripComments source) tokens where
  stands _ _ _ htokens := (laid_of_scan h).exists_standsAt htokens
  hash _ hi := (laid_of_scan h).exists_quoted hi
  quoted before token after word k htokens hword hk := by
    have hwhole := (laid_of_scan h).whole token (by simp [htokens])
    rw [stripComments, String.toList_ofList] at hk
    exact hk.prefix_drop hwhole hword

end Scan

namespace Source

/-- Blanking comments keeps places, is done once and for all, and takes for strings what scanning
takes for strings. -/
theorem stripComments_keeps_places (source : String) :
    KeepsPlaces source.toList (stripComments source).toList ∧
      stripComments (stripComments source) = stripComments source ∧
      ∀ tokens, scan (stripComments source) = .ok tokens →
        Scan.AgreesOnStrings source (stripComments source) tokens := by
  refine ⟨?_, ?_, fun tokens => Scan.agreesOnStrings_of_scan⟩
  · rw [stripComments, String.toList_ofList]
    exact keepsPlaces_blank _
  · rw [stripComments, stripComments, String.toList_ofList]
    exact congrArg String.ofList (blank_blank .code _)

theorem stripComments_keeps_string_with_hash :
    ∃ tokens, scan (stripComments "\"a # \\\"\" # é \"") = .ok tokens ∧
      tokens.map Token.lexeme = [.quoted "\"a # \\\"\""] ∧
      Scan.AgreesOnStrings "\"a # \\\"\" # é \"" (stripComments "\"a # \\\"\" # é \"") tokens := by
  refine ⟨_, rfl, rfl, (stripComments_keeps_places _).2.2 _ rfl⟩

/-- The line end behind a comment comes to an earlier column when characters of the comment take more
than one byte. -/
theorem positionAt_lineEnd_behind_comment :
    "#é\n".toList[2]? = some '\n' ∧ ¬ InComment "#é\n".toList 2 ∧
      (stripComments "#é\n").toList[2]? = some '\n' ∧ positionAt "#é\n".toList 2 = ⟨0, 3⟩ ∧
      positionAt (stripComments "#é\n").toList 2 = ⟨0, 2⟩ := by
  refine ⟨by decide, ?_, by decide, by decide, by decide⟩
  rintro ⟨-, j, hj, -, -, hline⟩
  exact hline 2 hj (Nat.le_refl 2) (by decide)

end Source

end ClauseLang
