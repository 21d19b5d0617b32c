import ClauseLang.Expr.Print
import ClauseLang.Proofs.Token.Spelling

namespace ClauseLang

open Scan

/-- The lexeme that a name is written with. -/
def nameLexeme (x : String) : Lexeme :=
  if x.toList ∈ operators then .operator x else .ident x

theorem text_nameLexeme (x : String) : (nameLexeme x).text = x := by
  rw [nameLexeme]
  split <;> rfl

theorem nameLexeme_of_isIdent {x : String} (h : isIdent x.toList) : nameLexeme x = .ident x :=
  if_neg (not_mem_operators_of_isIdent h)

namespace Expr

mutual

/-- The lexemes of an expression, with others after them. -/
def spell : Expr → List Lexeme → List Lexeme
  | .application items, rest => .lparen :: spellItems items (.rparen :: rest)
  | .identifier name, rest => nameLexeme name :: rest
  | .label name, rest => .label (String.ofList ('.' :: name.toList)) :: rest
  | .text value, rest => .quoted (String.ofList (Source.quote value.toList)) :: rest
  | .number value, rest => .integer (String.ofList (Source.numeral value.toInt)) :: rest
  | .list items, rest => .lbracket :: spellItems items (.rbracket :: rest)
  | .cons head tail, rest => .lbracket :: spell head (.colon :: spell tail (.rbracket :: rest))
  | .letIn names values body, rest => spellBindings names values (spell body rest)
  | .guarded inner condition constant, rest =>
    spell inner ((if constant then .doubleColon else .colon) :: spell condition rest)
  | .pattern clauses _, rest => .lbrace :: spellClauses clauses (.rbrace :: rest)
  | .builtin _, rest => rest

def spellItems : List Expr → List Lexeme → List Lexeme
  | [], rest => rest
  | item :: items, rest => spell item (spellItems items rest)

def spellBindings : List String → List Expr → List Lexeme → List Lexeme
  | name :: names, value :: values, rest =>
    .letWord :: .ident name :: .equals :: spell value (spellBindings names values rest)
  | _, _, rest => rest

def spellClauses : List Clause → List Lexeme → List Lexeme
  | [], rest => rest
  | .mk row body :: clauses, rest =>
    spellItems row (.arrow :: spell body (spellClauses clauses rest))

end

mutual

/-- Names are written as names and labels as labels, and there are no builtins. -/
def IsPrintable : Expr → Prop
  | .application items | .list items => ItemsPrintable items
  | .identifier name => (nameLexeme name).Printable
  | .label name => name.toList ≠ [] ∧ name.toList.all isIdentRest
  | .text _ | .number _ => True
  | .cons head tail => head.IsPrintable ∧ tail.IsPrintable
  | .letIn names values body =>
    (∀ name ∈ names, (Lexeme.ident name).Proper) ∧ ItemsPrintable values ∧ body.IsPrintable
  | .guarded inner condition _ => inner.IsPrintable ∧ condition.IsPrintable
  | .pattern clauses _ => ClausesPrintable clauses
  | .builtin _ => False

def ItemsPrintable : List Expr → Prop
  | [] => True
  | item :: items => item.IsPrintable ∧ ItemsPrintable items

def ClausesPrintable : List Clause → Prop
  | [] => True
  | .mk row body :: clauses => ItemsPrintable row ∧ body.IsPrintable ∧ ClausesPrintable clauses

end

end Expr

namespace Scan

open ClauseLang.Expr

variable {ls : List Lexeme} {cs : List Char}

theorem Spelled.blanks {w : List Char} (hw : w.all isBlank) (h : Spelled ls cs) :
    Spelled ls (w ++ cs) := by
  induction w with
  | nil => exact h
  | cons c w ih =>
    simp only [List.all_cons, Bool.and_eq_true] at hw
    exact .blank hw.1 (ih hw.2)

theorem Spelled.space (h : Spelled ls cs) : Spelled ls (' ' :: cs) :=
  .blank rfl h

theorem all_isBlank_newline (level : Nat) : (newline level).all isBlank := by
  simp [newline, isBlank]

theorem breaks_newline_append (level : Nat) (cs : List Char) : breaks (newline level ++ cs) := rfl

/-- Text that may stand before a clause. -/
structure IsLead (lead : List Char) : Prop where
  blank : lead.all isBlank
  ne_nil : lead ≠ []

theorem IsLead.space : IsLead [' '] := ⟨rfl, by simp⟩

theorem IsLead.newline (level : Nat) : IsLead (newline level) :=
  ⟨all_isBlank_newline level, by simp [ClauseLang.newline]⟩

theorem IsLead.breaks_append {lead : List Char} (h : IsLead lead) (cs : List Char) :
    breaks (lead ++ cs) := by
  cases lead with
  | nil => exact absurd rfl h.ne_nil
  | cons c lead =>
    have hc := h.blank
    simp only [List.all_cons, Bool.and_eq_true] at hc
    simp [breaks, isBreak, hc.1]

theorem breaks_writeClauses {level : Nat} {lead : List Char} (hlead : IsLead lead) (h : breaks cs)
    (clauses : List Clause) : breaks (writeClauses level lead clauses cs) := by
  cases clauses with
  | nil => rwa [writeClauses]
  | cons clause clauses =>
    obtain ⟨row, body⟩ := clause
    rw [writeClauses]
    exact hlead.breaks_append _

/-- A closing bracket, wherever it stands. -/
theorem Spelled.close {l : Lexeme} {c : Char} (hl : l.Printable) (htext : l.text.toList = [c])
    (hb : breaks cs) (h : Spelled ls cs) : Spelled (l :: ls) (c :: cs) := by
  have := Spelled.lexeme hl hb h
  rwa [htext] at this

mutual

/-- What is printed before a break spells the lexemes of the expression. -/
theorem spelled_write (level : Nat) (e : Expr) {ls : List Lexeme} {cs : List Char}
    (he : e.IsPrintable) (hb : breaks cs) (h : Spelled ls cs) :
    Spelled (e.spell ls) (e.write level cs) := by
  cases e with
  | application items =>
    rw [Expr.IsPrintable] at he
    rw [spell, write]
    exact .opening (.inl rfl)
      (spelled_writeItems level items he rfl (.close (l := .rparen) trivial rfl hb h))
  | identifier name =>
    rw [Expr.IsPrintable] at he
    have := Spelled.lexeme he hb h
    rwa [text_nameLexeme] at this
  | label name =>
    rw [Expr.IsPrintable] at he
    have hl : (Lexeme.label (String.ofList ('.' :: name.toList))).Printable :=
      ⟨name.toList, by simp, he.1, he.2⟩
    have := Spelled.lexeme hl hb h
    simpa [spell, write, Lexeme.text] using this
  | text value =>
    have hl : (Lexeme.quoted (String.ofList (Source.quote value.toList))).Printable :=
      ⟨value.toList, by simp⟩
    have := Spelled.lexeme hl hb h
    simpa [spell, write, Lexeme.text] using this
  | number value =>
    have hl : (Lexeme.integer (String.ofList (Source.numeral value.toInt))).Printable :=
      ⟨value.toInt, by simp⟩
    have := Spelled.lexeme hl hb h
    simpa [spell, write, Lexeme.text] using this
  | list items =>
    rw [Expr.IsPrintable] at he
    rw [spell, write]
    exact .opening (.inr rfl)
      (spelled_writeItems level items he rfl (.close (l := .rbracket) trivial rfl hb h))
  | cons head tail =>
    rw [Expr.IsPrintable] at he
    rw [spell, write]
    have htail := spelled_write level tail he.2 rfl (.close (l := .rbracket) trivial rfl hb h)
    exact .opening (.inr rfl) (spelled_write level head he.1 rfl
      (.space (.close (l := .colon) trivial rfl rfl (.space htail))))
  | letIn names values body =>
    rw [Expr.IsPrintable] at he
    rw [spell, write]
    exact spelled_writeBindings level names values he.1 he.2.1 (spelled_write level body he.2.2 hb h)
  | guarded inner condition constant =>
    rw [Expr.IsPrintable] at he
    rw [spell, write]
    have hcond := (spelled_write level condition he.2 hb h).space
    cases constant with
    | true =>
      exact spelled_write level inner he.1 rfl
        (.space (.lexeme (l := .doubleColon) trivial rfl hcond))
    | false =>
      exact spelled_write level inner he.1 rfl
        (.space (.lexeme (l := .colon) trivial rfl hcond))
  | pattern clauses captured =>
    rw [Expr.IsPrintable] at he
    rw [spell, write]
    have hclose : Spelled (.rbrace :: ls) ('}' :: cs) := .close trivial rfl hb h
    split
    · exact .close trivial rfl (breaks_writeClauses .space rfl clauses)
        (spelled_writeClauses level clauses he .space rfl hclose.space)
    · exact .close trivial rfl
        (breaks_writeClauses (.newline _) (breaks_newline_append _ _) clauses)
        (spelled_writeClauses (level + 1) clauses he (.newline _) (breaks_newline_append _ _)
          (hclose.blanks (all_isBlank_newline level)))
  | builtin op => rw [Expr.IsPrintable] at he; exact he.elim

theorem spelled_writeItems (level : Nat) (items : List Expr) {ls : List Lexeme} {cs : List Char}
    (he : ItemsPrintable items) (hb : breaks cs) (h : Spelled ls cs) :
    Spelled (spellItems items ls) (writeItems level items cs) := by
  match items with
  | [] => rwa [spellItems, writeItems]
  | [item] =>
    rw [ItemsPrintable] at he
    rw [spellItems, spellItems, writeItems]
    exact spelled_write level item he.1 hb h
  | item :: next :: items =>
    rw [ItemsPrintable] at he
    rw [spellItems, writeItems]
    · exact spelled_write level item he.1 rfl
        (spelled_writeItems level (next :: items) he.2 hb h).space
    · simp

theorem spelled_writeBindings (level : Nat) (names : List String) (values : List Expr)
    {ls : List Lexeme} {cs : List Char}
    (hn : ∀ name ∈ names, (Lexeme.ident name).Proper) (he : ItemsPrintable values)
    (h : Spelled ls cs) :
    Spelled (spellBindings names values ls) (writeBindings level names values cs) := by
  match names, values with
  | name :: names, value :: values =>
    rw [ItemsPrintable] at he
    rw [spellBindings, writeBindings]
    have hrest := spelled_writeBindings level names values (fun x hx => hn x (by simp [hx])) he.2 h
    have hvalue := spelled_write level value he.1 (breaks_newline_append level _)
      (hrest.blanks (all_isBlank_newline level))
    have hname : Spelled _ (name.toList ++ _) := .lexeme (l := .ident name) (hn name (by simp)) rfl
      (.space (.close (l := .equals) trivial rfl rfl hvalue.space))
    exact .lexeme (l := .letWord) trivial rfl hname.space
  | [], _ => rwa [spellBindings, writeBindings] <;> simp
  | _ :: _, [] => rwa [spellBindings, writeBindings] <;> simp

theorem spelled_writeRow (level : Nat) (row : List Expr) {ls : List Lexeme} {cs : List Char}
    (he : ItemsPrintable row) (h : Spelled ls cs) :
    Spelled (spellItems row ls) (writeRow level row cs) := by
  match row with
  | [] => rwa [spellItems, writeRow]
  | formal :: row =>
    rw [ItemsPrintable] at he
    rw [spellItems, writeRow]
    exact spelled_write level formal he.1 rfl (spelled_writeRow level row he.2 h).space

theorem spelled_writeClauses (level : Nat) {lead : List Char} (clauses : List Clause)
    {ls : List Lexeme} {cs : List Char}
    (he : ClausesPrintable clauses) (hlead : IsLead lead) (hb : breaks cs) (h : Spelled ls cs) :
    Spelled (spellClauses clauses ls) (writeClauses level lead clauses cs) := by
  match clauses with
  | [] => rwa [spellClauses, writeClauses]
  | .mk row body :: clauses =>
    rw [ClausesPrintable] at he
    rw [spellClauses, writeClauses]
    have hbody := spelled_write level body he.2.1 (breaks_writeClauses hlead hb clauses)
      (spelled_writeClauses level clauses he.2.2 hlead hb h)
    have harrow : Spelled _ ('-' :: '>' :: ' ' :: _) :=
      .lexeme (l := .arrow) trivial rfl hbody.space
    exact (spelled_writeRow level row he.1 harrow).blanks hlead.blank

end

end Scan

end ClauseLang
