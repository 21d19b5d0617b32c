import ClauseLang.Proofs.Expr.Spelling
import ClauseLang.Proofs.Reader.Complete

namespace ClauseLang.Reader

open Scan ClauseLang.Expr

/-- What scanning promises of a row of lexemes. -/
def AllProper (ts : List Lexeme) : Prop :=
  ∀ l ∈ ts, l.Proper

theorem AllProper.tail {l : Lexeme} {ts : List Lexeme} (h : AllProper (l :: ts)) : AllProper ts :=
  fun l hl => h l (by simp [hl])

theorem AllProper.head {l : Lexeme} {ts : List Lexeme} (h : AllProper (l :: ts)) : l.Proper :=
  h l (by simp)

/-- The expression can be printed, and the lexemes of what is printed are a phrase for it. -/
structure Restored (P : Phrase Expr) (e : Expr) : Prop where
  printable : e.IsPrintable
  derives (rest : List Lexeme) : P (e.spell rest) e rest

/-- Expressions that are read from proper lexemes are restored. -/
def Restores (P Q : Phrase Expr) : Prop :=
  ∀ {ts e rest}, P ts e rest → AllProper ts → AllProper rest ∧ Restored Q e

section

variable {P Q : Phrase Expr} {ts rest : List Lexeme} {l : Lexeme} {e : Expr}

theorem numeralValue_numeral (n : Int) : Source.numeralValue (Source.numeral n) = n := by
  have hdigits : ∀ m : Nat, Source.digitsValue (Nat.toDigits 10 m) = m :=
    fun m => Nat.ofDigitChars_ten_toDigits
  cases n with
  | ofNat n =>
    have hminus : '-' ∉ Nat.toDigits 10 n := fun h =>
      absurd (Nat.isDigit_of_mem_toDigits (by decide) (by decide) h) (by decide)
    have hfall : ∀ cs : List Char, '-' ∉ cs → Source.numeralValue cs = Source.digitsValue cs := by
      intro cs hcs
      unfold Source.numeralValue
      split
      · simp at hcs
      · rfl
    rw [Source.numeral, hfall _ hminus, hdigits]
    rfl
  | negSucc n =>
    rw [Source.numeral, Source.numeralValue, hdigits]
    rfl

theorem readWord?_numeral (n : Int64) :
    Source.readWord? (String.ofList (Source.numeral n.toInt)) = some n := by
  have hlo : Int64.minValue.toInt ≤ n.toInt := n.minValue_le_toInt
  have hhi : n.toInt ≤ Int64.maxValue.toInt := n.toInt_le
  rw [Source.readWord?, String.toList_ofList, numeralValue_numeral, word?, if_pos ⟨hlo, hhi⟩,
    Int64.ofInt_toInt]

theorem unquote_quote (value : String) :
    Source.unquote (String.ofList (Source.quote value.toList)) = value := by
  rw [Source.unquote, String.toList_ofList, Source.unescape_stripQuotes_quote, String.ofList_toList]

theorem dropWhile_dot {cs : List Char} (h : cs.all isIdentRest) :
    cs.dropWhile (· == '.') = cs := by
  cases cs with
  | nil => rfl
  | cons c cs =>
    have hc : c ≠ '.' := by
      rintro rfl
      simp [isIdentRest] at h
    simp [hc]

theorem label_restored (hs : ∀ {l e rest}, Literal l e → P (l :: rest) e rest) {name : String}
    (hne : name.toList ≠ []) (hall : name.toList.all isIdentRest) : Restored P (.label name) := by
  refine ⟨by rw [Expr.IsPrintable]; exact ⟨hne, hall⟩, fun rest => ?_⟩
  have hd : P (_ :: rest) _ rest := hs (.label (String.ofList ('.' :: name.toList)))
  simpa [spell, dropWhile_dot hall] using hd

theorem Literal.restored (hs : ∀ {l e rest}, Literal l e → P (l :: rest) e rest)
    (h : Literal l e) (hl : l.Proper) : Restored P e := by
  cases h with
  | label text =>
    obtain ⟨name, htext, hne, hall⟩ := hl
    have hname : (Expr.label (String.ofList (text.toList.dropWhile (· == '.')))) =
        .label (String.ofList name) := by
      simp [htext, dropWhile_dot hall]
    rw [hname]
    exact label_restored hs (by simpa using hne) (by simpa using hall)
  | string text =>
    refine ⟨by simp [Expr.IsPrintable], fun rest => ?_⟩
    have hd : P (_ :: rest) _ rest :=
      hs (.string (String.ofList (Source.quote (Source.unquote text).toList)))
    rwa [unquote_quote] at hd
  | @integer text n hn =>
    refine ⟨by simp [Expr.IsPrintable], fun rest => ?_⟩
    rw [spell]
    exact hs (.integer (readWord?_numeral n))

theorem restored_ident {x : String} (hx : (Lexeme.ident x).Proper)
    (hs : ∀ rest, P (.ident x :: rest) (.identifier x) rest) : Restored P (.identifier x) := by
  have hname := nameLexeme_of_isIdent hx.1
  refine ⟨by rwa [Expr.IsPrintable, hname], fun rest => ?_⟩
  rw [spell, hname]
  exact hs rest

theorem Many.restored (hPQ : Restores P Q) {items : List Expr} (h : Many P ts items rest)
    (hts : AllProper ts) :
    AllProper rest ∧ ItemsPrintable items ∧
      ∀ rest, Many Q (spellItems items rest) items rest := by
  induction h with
  | nil => exact ⟨hts, trivial, fun _ => .nil⟩
  | cons h _ ih =>
    obtain ⟨hus, he⟩ := hPQ h hts
    obtain ⟨hrest, hitems, hmany⟩ := ih hus
    exact ⟨hrest, ⟨he.printable, hitems⟩, fun rest => .cons (he.derives _) (hmany rest)⟩

theorem Simple.restored (hPQ : Restores P Q) : Restores (Simple P) (Simple Q) := by
  intro ts e rest h hts
  induction h with
  | name x => exact ⟨hts.tail, restored_ident hts.head (fun _ => .name x)⟩
  | literal h => exact ⟨hts.tail, h.restored .literal hts.head⟩
  | cons _ _ ih₁ ih₂ =>
    obtain ⟨hus, hhead⟩ := ih₁ hts.tail
    obtain ⟨hrest, htail⟩ := ih₂ hus.tail
    exact ⟨hrest.tail, ⟨hhead.printable, htail.printable⟩,
      fun rest => .cons (hhead.derives _) (htail.derives _)⟩
  | list h =>
    obtain ⟨hrest, hitems, hmany⟩ := h.restored hPQ hts.tail
    exact ⟨hrest.tail, hitems, fun rest => .list (hmany _)⟩

theorem Formal.restored (hPQ : Restores P Q) : Restores (Formal P) (Formal Q) := by
  intro ts e rest h hts
  have hname : ∀ {x : String}, (Lexeme.ident x).Proper → nameLexeme x = .ident x :=
    fun hx => nameLexeme_of_isIdent hx.1
  cases h with
  | simple h =>
    obtain ⟨hrest, he⟩ := Simple.restored hPQ h hts
    exact ⟨hrest, he.printable, fun rest => .simple (he.derives rest)⟩
  | guarded x h =>
    obtain ⟨hrest, he⟩ := hPQ h hts.tail.tail
    have hx := hname hts.head
    refine ⟨hrest, ⟨by rw [Expr.IsPrintable, hx]; exact hts.head, he.printable⟩, fun rest => ?_⟩
    rw [spell, spell, hx]
    exact .guarded x (he.derives rest)
  | constant x h =>
    obtain ⟨hrest, he⟩ := hPQ h hts.tail.tail
    have hx := hname hts.head
    refine ⟨hrest, ⟨by rw [Expr.IsPrintable, hx]; exact hts.head, he.printable⟩, fun rest => ?_⟩
    rw [spell, spell, hx]
    exact .constant x (he.derives rest)

theorem openRow_restored (n : Nat) : ItemsPrintable (openRow n) ∧
    ∀ rest, Many (Formal Q) (spellItems (openRow n) rest) (openRow n) rest := by
  have hproper : (Lexeme.ident discard).Proper := ⟨by decide, by decide⟩
  have hformal : Restored (Formal Q) (.identifier discard) :=
    restored_ident hproper (fun _ => .simple (.name discard))
  induction n with
  | zero => exact ⟨trivial, fun _ => .nil⟩
  | succ n ih =>
    exact ⟨⟨hformal.printable, ih.1⟩, fun rest => .cons (hformal.derives _) (ih.2 rest)⟩

theorem Row.of_many {row : List Expr} (h : Many (Formal Q) ts row rest) (hne : 0 < row.length) :
    Row Q ts row rest := by
  cases h with
  | nil => simp at hne
  | cons h hs => exact ⟨h, hs⟩

theorem Row.length_pos {row : List Expr} (h : Row P ts row rest) : 0 < row.length := by
  cases h
  simp

theorem Row.restored (hPQ : Restores P Q) {row : List Expr} (h : Row P ts row rest)
    (hts : AllProper ts) :
    AllProper rest ∧ ItemsPrintable row ∧ ∀ rest, Row Q (spellItems row rest) row rest := by
  cases h with
  | mk h hs =>
    obtain ⟨hus, hformal⟩ := Formal.restored hPQ h hts
    obtain ⟨hrest, hrow, hmany⟩ := hs.restored (Formal.restored hPQ) hus
    exact ⟨hrest, ⟨hformal.printable, hrow⟩, fun rest => ⟨hformal.derives _, hmany rest⟩⟩

theorem Plain.restored (hPQ : Restores P Q) {clause : Clause} (h : Plain P ts clause rest)
    (hts : AllProper ts) :
    AllProper rest ∧ ItemsPrintable clause.row ∧ clause.body.IsPrintable ∧
      ∀ rest, Plain Q (spellItems clause.row (.arrow :: clause.body.spell rest)) clause rest := by
  cases h with
  | mk hr hb =>
    obtain ⟨hus, hrow, hderives⟩ := hr.restored hPQ hts
    obtain ⟨hrest, hbody⟩ := hPQ hb hus.tail
    exact ⟨hrest, hrow, hbody.printable, fun rest => ⟨hderives _, hbody.derives rest⟩⟩

/-- A default clause comes back as a clause with a row of its own. -/
theorem Others.restored (hPQ : Restores P Q) {arity : Nat} {clauses : List Clause}
    (h : Others P arity ts clauses rest) (hpos : 0 < arity) (hts : AllProper ts) :
    AllProper rest ∧ ClausesPrintable clauses ∧
      ∀ rest, Others Q arity (spellClauses clauses rest) clauses rest := by
  induction h with
  | nil => exact ⟨hts, trivial, fun _ => .nil⟩
  | @plain _ _ _ _ clause _ h ha _ ih =>
    obtain ⟨row, body⟩ := clause
    obtain ⟨hus, hrow, hbody, hplain⟩ := h.restored hPQ hts
    obtain ⟨hrest, hclauses, hothers⟩ := ih hpos hus
    exact ⟨hrest, ⟨hrow, hbody, hclauses⟩, fun rest => .plain (hplain _) ha (hothers rest)⟩
  | @default _ _ _ arity _ _ h _ ih =>
    obtain ⟨hus, hbody⟩ := hPQ h hts.tail
    obtain ⟨hrest, hclauses, hothers⟩ := ih hpos hus
    obtain ⟨hrow, hmany⟩ := openRow_restored (Q := Q) arity
    have hlen : (openRow arity).length = arity := by simp [openRow]
    exact ⟨hrest, ⟨hrow, hbody.printable, hclauses⟩, fun rest =>
      .plain ⟨.of_many (hmany _) (by rwa [hlen]), hbody.derives _⟩ hlen (hothers rest)⟩

theorem spell_bindFirst (x : String) (value body : Expr) (rest : List Lexeme) :
    (bindFirst x value body).spell rest =
      .letWord :: .ident x :: .equals :: value.spell (body.spell rest) := by
  cases body <;> simp [bindFirst, spell, spellBindings]

theorem bindFirst_printable {x : String} {value body : Expr} (hx : (Lexeme.ident x).Proper)
    (hv : value.IsPrintable) (hb : body.IsPrintable) : (bindFirst x value body).IsPrintable := by
  have hone : (Expr.letIn [x] [value] body).IsPrintable := by
    rw [Expr.IsPrintable]
    exact ⟨by simpa using hx, ⟨hv, trivial⟩, hb⟩
  cases body with
  | letIn names values body =>
    rw [Expr.IsPrintable] at hb
    rw [bindFirst, Expr.IsPrintable]
    exact ⟨by simpa using ⟨hx, hb.1⟩, ⟨hv, hb.2.1⟩, hb.2.2⟩
  | _ => exact hone

theorem Level.restored (hPQ : Restores P Q)
    (hQ : ∀ {l e rest}, Literal l e → Q (l :: rest) e rest) : Restores (Level P) (Level Q) := by
  intro ts e rest h hts
  cases h with
  | ident x => exact ⟨hts.tail, restored_ident hts.head (fun _ => .ident x)⟩
  | operator x =>
    have hname : nameLexeme x = .operator x := if_pos hts.head
    refine ⟨hts.tail, by rw [Expr.IsPrintable, hname]; exact hts.head, fun rest => ?_⟩
    rw [spell, hname]
    exact .operator x
  | literal h => exact ⟨hts.tail, h.restored .literal hts.head⟩
  | letIn x hv hb =>
    obtain ⟨hus, hvalue⟩ := hPQ hv hts.tail.tail.tail
    obtain ⟨hrest, hbody⟩ := hPQ hb hus
    refine ⟨hrest, bindFirst_printable hts.tail.head hvalue.printable hbody.printable,
      fun rest => ?_⟩
    rw [spell_bindFirst]
    exact .letIn x (hvalue.derives _) (hbody.derives rest)
  | application h =>
    obtain ⟨hrest, hitems, hmany⟩ := h.restored hPQ hts.tail
    exact ⟨hrest.tail, hitems, fun rest => .application (hmany _)⟩
  | list h =>
    obtain ⟨hrest, hitems, hmany⟩ := h.restored hPQ hts.tail
    exact ⟨hrest.tail, hitems, fun rest => .list (hmany _)⟩
  | @test _ _ row h =>
    obtain ⟨hrest, hrow, hderives⟩ := h.restored hPQ hts.tail
    obtain ⟨hopen, hmany⟩ := openRow_restored (Q := Q) row.length
    have hlen : (openRow row.length).length = row.length := by simp [openRow]
    have htrue : Restored Q .truthy := label_restored hQ (by decide) (by decide)
    have hfalse : Restored Q .falsy := label_restored hQ (by decide) (by decide)
    refine ⟨hrest.tail, ⟨hrow, htrue.printable, hopen, hfalse.printable, trivial⟩, fun rest => ?_⟩
    have hplain (us : List Lexeme) :
        Plain Q (spellItems row (.arrow :: spell .truthy us)) (.mk row .truthy) us :=
      ⟨hderives _, htrue.derives us⟩
    exact .pattern (hplain _) (.plain ⟨.of_many (hmany _) (by rw [hlen]; exact h.length_pos),
      hfalse.derives _⟩ hlen .nil)
  | @pattern _ _ _ clause _ h hs =>
    obtain ⟨row, body⟩ := clause
    have hpos : 0 < row.length := by
      cases h with
      | mk hr _ => exact hr.length_pos
    obtain ⟨hus, hrow, hbody, hplain⟩ := h.restored hPQ hts.tail
    obtain ⟨hrest, hclauses, hothers⟩ := hs.restored hPQ hpos hus
    exact ⟨hrest.tail, ⟨hrow, hbody, hclauses⟩, fun rest => .pattern (hplain _) (hothers _)⟩

theorem Derives.restored : Restores Derives Derives := by
  intro ts e rest h
  refine Derives.induction (motive := fun ts e rest =>
    AllProper ts → AllProper rest ∧ Restored Derives e) (fun {ts e rest} h hts => ?_) h
  have hQ : ∀ {l e rest}, Literal l e → Derives (l :: rest) e rest :=
    fun h => derives_iff_level.2 (.literal h)
  obtain ⟨hrest, he⟩ := Level.restored (fun h hts => h.2 hts) hQ h hts
  exact ⟨hrest, he.printable, fun rest => derives_iff_level.2 (he.derives rest)⟩

end

end ClauseLang.Reader

namespace ClauseLang

open Scan Reader

theorem parse_eq_ok_iff {source : String} {e : Expr} :
    parse source = .ok e ↔ ∃ tokens, scan (Source.stripComments source) = .ok tokens ∧
      Derives (tokens.map Token.lexeme) e [] := by
  rw [parse]
  cases scan (Source.stripComments source) with
  | error err => simp
  | ok tokens => simp [ofTokens_program_eq_ok_iff]

theorem exists_eq_ok_of_toBool {ε α : Type} {x : Except ε α} (h : x.toBool = true) :
    ∃ a, x = .ok a := by
  cases x with
  | error e => cases h
  | ok a => exact ⟨a, rfl⟩

theorem eq_ok_of_toOption_eq_some {ε α : Type} {x : Except ε α} {a : α}
    (h : x.toOption = some a) : x = .ok a := by
  cases x with
  | error e => cases h
  | ok b =>
    cases h
    rfl

theorem allProper_of_scan {source : String} {tokens : List Token} (h : scan source = .ok tokens) :
    AllProper (tokens.map Token.lexeme) :=
  List.forall_mem_map.2 (proper_of_scanFrom h)

theorem restored_of_parse {source : String} {e : Expr} (h : parse source = .ok e) :
    Restored Derives e := by
  obtain ⟨tokens, hscan, hd⟩ := parse_eq_ok_iff.1 h
  exact (Derives.restored hd (allProper_of_scan hscan)).2

/-- What is printed is read as whatever its spelling derives. -/
theorem parse_render_of_derives {e e' : Expr} (hprint : e.IsPrintable)
    (hderives : Derives (e.spell []) e' []) : parse e.render = .ok e' := by
  have hspelled : Spelled (e.spell []) (e.write 0 []) := spelled_write 0 e hprint rfl .nil
  have hstrip : Source.stripComments e.render = e.render := by
    rw [Expr.render, Source.stripComments, String.toList_ofList, hspelled.blank_eq]
  obtain ⟨tokens, hscan, hlexemes⟩ := hspelled.scan e.render ⟨0, 0⟩
  refine parse_eq_ok_iff.2 ⟨tokens, ?_, hlexemes ▸ hderives⟩
  rw [hstrip, scan, Expr.render, String.toList_ofList]
  exact hscan

/-- What is printed for a program reads as that program. -/
theorem parse_render {source : String} {e : Expr} (h : parse source = .ok e) :
    parse e.render = .ok e := by
  obtain ⟨hprint, hderives⟩ := restored_of_parse h
  exact parse_render_of_derives hprint (hderives [])

theorem parse_render_guarded_clauses :
    ∃ e, parse "let f = \x7b n : (> n -1) # a guard\n -> \"#\" [h : t] -> h => \x7b x \x7d \x7d (f -3)"
      = .ok e ∧ parse e.render = .ok e := by
  obtain ⟨e, h⟩ := exists_eq_ok_of_toBool (x := parse
    "let f = \x7b n : (> n -1) # a guard\n -> \"#\" [h : t] -> h => \x7b x \x7d \x7d (f -3)")
      (by decide +kernel)
  exact ⟨e, h, parse_render h⟩

end ClauseLang
