import ClauseLang.Reader.Grammar

namespace ClauseLang.Reader

/-- What a phrase of some sort can be, and the lexemes after it. -/
abbrev Phrase (α : Type) := List Lexeme → α → List Lexeme → Prop

inductive Many {α : Type} (P : Phrase α) : Phrase (List α)
  | nil {ts : List Lexeme} : Many P ts [] ts
  | cons {ts us rest : List Lexeme} {a : α} {as : List α} :
    P ts a us → Many P us as rest → Many P ts (a :: as) rest

inductive Literal : Lexeme → Expr → Prop
  | label (text : String) :
    Literal (.label text) (.label (String.ofList (text.toList.dropWhile (· == '.'))))
  | string (text : String) : Literal (.quoted text) (.text (Source.unquote text))
  | integer {text : String} {n : Int64} :
    Source.readWord? text = some n → Literal (.integer text) (.number n)

inductive Simple (P : Phrase Expr) : Phrase Expr
  | name {rest : List Lexeme} (x : String) : Simple P (.ident x :: rest) (.identifier x) rest
  | literal {rest : List Lexeme} {l : Lexeme} {e : Expr} :
    Literal l e → Simple P (l :: rest) e rest
  | cons {ts us rest : List Lexeme} {head tail : Expr} :
    Simple P ts head (.colon :: us) → Simple P us tail (.rbracket :: rest) →
      Simple P (.lbracket :: ts) (.cons head tail) rest
  | list {ts rest : List Lexeme} {items : List Expr} :
    Many P ts items (.rbracket :: rest) → Simple P (.lbracket :: ts) (.list items) rest

inductive Formal (P : Phrase Expr) : Phrase Expr
  | simple {ts rest : List Lexeme} {e : Expr} : Simple P ts e rest → Formal P ts e rest
  | guarded {ts rest : List Lexeme} (x : String) {e : Expr} :
    P ts e rest → Formal P (.ident x :: .colon :: ts) (.guarded (.identifier x) e false) rest
  | constant {ts rest : List Lexeme} (x : String) {e : Expr} :
    P ts e rest → Formal P (.ident x :: .doubleColon :: ts) (.guarded (.identifier x) e true) rest

inductive Row (P : Phrase Expr) : Phrase (List Expr)
  | mk {ts us rest : List Lexeme} {formal : Expr} {row : List Expr} :
    Formal P ts formal us → Many (Formal P) us row rest → Row P ts (formal :: row) rest

inductive Plain (P : Phrase Expr) : Phrase Clause
  | mk {ts us rest : List Lexeme} {row : List Expr} {body : Expr} :
    Row P ts row (.arrow :: us) → P us body rest → Plain P ts (.mk row body) rest

/-- The clauses after the first one, whose row has the given length. -/
inductive Others (P : Phrase Expr) : Nat → Phrase (List Clause)
  | nil {ts : List Lexeme} {arity : Nat} : Others P arity ts [] ts
  | plain {ts us rest : List Lexeme} {arity : Nat} {clause : Clause} {clauses : List Clause} :
    Plain P ts clause us → clause.row.length = arity → Others P arity us clauses rest →
      Others P arity ts (clause :: clauses) rest
  | default {ts us rest : List Lexeme} {arity : Nat} {body : Expr} {clauses : List Clause} :
    P ts body us → Others P arity us clauses rest →
      Others P arity (.fatArrow :: ts) (.mk (openRow arity) body :: clauses) rest

/-- One level of the grammar, over what the expressions inside can be. -/
inductive Level (P : Phrase Expr) : Phrase Expr
  | ident {rest : List Lexeme} (x : String) : Level P (.ident x :: rest) (.identifier x) rest
  | operator {rest : List Lexeme} (x : String) : Level P (.operator x :: rest) (.identifier x) rest
  | literal {rest : List Lexeme} {l : Lexeme} {e : Expr} : Literal l e → Level P (l :: rest) e rest
  | letIn {ts us rest : List Lexeme} (x : String) {value body : Expr} :
    P ts value us → P us body rest →
      Level P (.letWord :: .ident x :: .equals :: ts) (bindFirst x value body) rest
  | application {ts rest : List Lexeme} {items : List Expr} :
    Many P ts items (.rparen :: rest) → Level P (.lparen :: ts) (.application items) rest
  | list {ts rest : List Lexeme} {items : List Expr} :
    Many P ts items (.rbracket :: rest) → Level P (.lbracket :: ts) (.list items) rest
  | test {ts rest : List Lexeme} {row : List Expr} :
    Row P ts row (.rbrace :: rest) →
      Level P (.lbrace :: ts) (.pattern [.mk row .truthy, .mk (openRow row.length) .falsy] []) rest
  | pattern {ts us rest : List Lexeme} {clause : Clause} {clauses : List Clause} :
    Plain P ts clause us → Others P clause.row.length us clauses (.rbrace :: rest) →
      Level P (.lbrace :: ts) (.pattern (clause :: clauses) []) rest

def DerivesWithin : Nat → Phrase Expr
  | 0 => fun _ _ _ => False
  | n + 1 => Level (DerivesWithin n)

/-- The lexemes `ts` begin with a phrase for the expression `e`, and `rest` comes after it. -/
def Derives : Phrase Expr := fun ts e rest =>
  ∃ n, DerivesWithin n ts e rest

def Consumes {α : Type} (P : Phrase α) : Prop :=
  ∀ {ts a rest}, P ts a rest → rest.length < ts.length

/-- Below a length of the lexemes ahead, one sort of phrase is another. -/
def Below {α : Type} (n : Nat) (P Q : Phrase α) : Prop :=
  ∀ {ts a rest}, ts.length < n → P ts a rest → Q ts a rest

section

variable {α : Type} {P Q : Phrase Expr} {ts rest : List Lexeme} {n : Nat}

theorem Many.length_le {R : Phrase α} (hR : Consumes R) {as : List α} (h : Many R ts as rest) :
    rest.length ≤ ts.length := by
  induction h with
  | nil => exact Nat.le_refl _
  | cons h _ ih => exact Nat.le_trans ih (Nat.le_of_lt (hR h))

theorem Many.mono {R S : Phrase α} (hR : Consumes R) (hRS : Below n R S) {as : List α}
    (h : Many R ts as rest) (hn : ts.length < n) : Many S ts as rest := by
  induction h with
  | nil => exact .nil
  | cons h _ ih => exact .cons (hRS hn h) (ih (Nat.lt_trans (hR h) hn))

theorem Simple.consumes (hP : Consumes P) : Consumes (Simple P) := by
  intro ts e rest h
  induction h with
  | name | literal => simp
  | cons _ _ ih₁ ih₂ => simp only [List.length_cons] at *; omega
  | list h =>
    have := h.length_le hP
    simp only [List.length_cons] at *
    omega

theorem Simple.mono (hP : Consumes P) (hPQ : Below n P Q) {e : Expr} (h : Simple P ts e rest)
    (hn : ts.length < n) : Simple Q ts e rest := by
  induction h with
  | name x => exact .name x
  | literal h => exact .literal h
  | cons h₁ _ ih₁ ih₂ =>
    have := Simple.consumes hP h₁
    simp only [List.length_cons] at *
    exact .cons (ih₁ (by omega)) (ih₂ (by omega))
  | list h => exact .list (h.mono hP hPQ (Nat.lt_of_succ_lt hn))

theorem Formal.consumes (hP : Consumes P) : Consumes (Formal P) := by
  intro ts e rest h
  cases h with
  | simple h => exact Simple.consumes hP h
  | guarded _ h | constant _ h =>
    have := hP h
    simp only [List.length_cons]
    omega

theorem Formal.mono (hP : Consumes P) (hPQ : Below n P Q) : Below n (Formal P) (Formal Q) := by
  intro ts e rest hn h
  cases h with
  | simple h => exact .simple (h.mono hP hPQ hn)
  | guarded x h => exact .guarded x (hPQ (by simp only [List.length_cons] at hn; omega) h)
  | constant x h => exact .constant x (hPQ (by simp only [List.length_cons] at hn; omega) h)

theorem Row.consumes (hP : Consumes P) : Consumes (Row P) := by
  rintro ts row rest ⟨h, hs⟩
  exact Nat.lt_of_le_of_lt (hs.length_le (Formal.consumes hP)) (Formal.consumes hP h)

theorem Row.mono (hP : Consumes P) (hPQ : Below n P Q) : Below n (Row P) (Row Q) := by
  rintro ts row rest hn ⟨h, hs⟩
  exact ⟨Formal.mono hP hPQ hn h, hs.mono (Formal.consumes hP) (Formal.mono hP hPQ)
    (Nat.lt_trans (Formal.consumes hP h) hn)⟩

theorem Plain.consumes (hP : Consumes P) : Consumes (Plain P) := by
  rintro ts clause rest ⟨hr, hb⟩
  have := Row.consumes hP hr
  have := hP hb
  simp only [List.length_cons] at *
  omega

theorem Plain.mono (hP : Consumes P) (hPQ : Below n P Q) : Below n (Plain P) (Plain Q) := by
  rintro ts clause rest hn ⟨hr, hb⟩
  have := Row.consumes hP hr
  simp only [List.length_cons] at this
  exact ⟨Row.mono hP hPQ hn hr, hPQ (by omega) hb⟩

theorem Others.length_le (hP : Consumes P) {arity : Nat} {clauses : List Clause}
    (h : Others P arity ts clauses rest) : rest.length ≤ ts.length := by
  induction h with
  | nil => exact Nat.le_refl _
  | plain h _ _ ih => exact Nat.le_trans ih (Nat.le_of_lt (Plain.consumes hP h))
  | default h _ ih =>
    have := hP h
    simp only [List.length_cons]
    omega

theorem Others.mono (hP : Consumes P) (hPQ : Below n P Q) {arity : Nat} {clauses : List Clause}
    (h : Others P arity ts clauses rest) (hn : ts.length < n) :
    Others Q arity ts clauses rest := by
  induction h with
  | nil => exact .nil
  | plain h ha _ ih =>
    exact .plain (Plain.mono hP hPQ hn h) ha (ih (Nat.lt_trans (Plain.consumes hP h) hn))
  | default h _ ih =>
    have := hP h
    simp only [List.length_cons] at hn
    exact .default (hPQ (by omega) h) (ih (by omega))

theorem Level.consumes (hP : Consumes P) : Consumes (Level P) := by
  intro ts e rest h
  cases h with
  | ident | operator | literal => simp
  | letIn _ h₁ h₂ =>
    have := hP h₁
    have := hP h₂
    simp only [List.length_cons]
    omega
  | application h | list h =>
    have := h.length_le hP
    simp only [List.length_cons] at *
    omega
  | test h =>
    have := Row.consumes hP h
    simp only [List.length_cons] at *
    omega
  | pattern h hs =>
    have := Plain.consumes hP h
    have := hs.length_le hP
    simp only [List.length_cons] at *
    omega

/-- What nests inside a phrase is shorter than it. -/
theorem Level.mono (hP : Consumes P) (hPQ : Below ts.length P Q) {e : Expr}
    (h : Level P ts e rest) : Level Q ts e rest := by
  cases h with
  | ident x => exact .ident x
  | operator x => exact .operator x
  | literal h => exact .literal h
  | letIn x h₁ h₂ =>
    have := hP h₁
    simp only [List.length_cons] at hPQ
    exact .letIn x (hPQ (by omega) h₁) (hPQ (by omega) h₂)
  | application h => exact .application (h.mono hP hPQ (by simp))
  | list h => exact .list (h.mono hP hPQ (by simp))
  | test h => exact .test (Row.mono hP hPQ (by simp) h)
  | pattern h hs =>
    have := Plain.consumes hP h
    exact .pattern (Plain.mono hP hPQ (by simp) h)
      (hs.mono hP hPQ (by simp only [List.length_cons]; omega))

end

section

variable {ts rest : List Lexeme} {e : Expr} {n : Nat}

theorem DerivesWithin.consumes : Consumes (DerivesWithin n) := by
  induction n with
  | zero => exact fun h => h.elim
  | succ n ih => exact Level.consumes ih

theorem DerivesWithin.succ (h : DerivesWithin n ts e rest) : DerivesWithin (n + 1) ts e rest := by
  induction n generalizing ts e rest with
  | zero => exact h.elim
  | succ n ih => exact Level.mono DerivesWithin.consumes (fun _ h => ih h) h

theorem DerivesWithin.level (h : DerivesWithin n ts e rest) : Level (DerivesWithin n) ts e rest :=
  h.succ

/-- A phrase nests no deeper than it has lexemes. -/
theorem DerivesWithin.of_length (h : DerivesWithin n ts e rest) {k : Nat} (hk : ts.length < k) :
    DerivesWithin k ts e rest := by
  induction n generalizing ts e rest k with
  | zero => exact h.elim
  | succ n ih =>
    cases k with
    | zero => omega
    | succ k => exact Level.mono DerivesWithin.consumes (fun hts h => ih h (by omega)) h

theorem Derives.consumes : Consumes Derives :=
  fun ⟨_, h⟩ => DerivesWithin.consumes h

theorem Derives.within (h : Derives ts e rest) (hn : ts.length < n) :
    DerivesWithin n ts e rest :=
  let ⟨_, h⟩ := h
  h.of_length hn

theorem derives_iff_level : Derives ts e rest ↔ Level Derives ts e rest := by
  constructor
  · rintro ⟨n, h⟩
    cases n with
    | zero => exact h.elim
    | succ n => exact Level.mono DerivesWithin.consumes (fun _ h => ⟨n, h⟩) h
  · intro h
    exact ⟨ts.length + 1, Level.mono Derives.consumes (fun hts h => h.within hts) h⟩

/-- To show something of all phrases it is enough to show it of one level whose inner phrases have
it already. -/
theorem Derives.induction {motive : Phrase Expr}
    (step : ∀ {ts e rest},
      Level (fun ts e rest => Derives ts e rest ∧ motive ts e rest) ts e rest → motive ts e rest)
    (h : Derives ts e rest) : motive ts e rest := by
  generalize hn : ts.length = n
  induction n using Nat.strongRecOn generalizing ts e rest with
  | ind n ih =>
    subst hn
    exact step (Level.mono Derives.consumes (fun hts h => ⟨h, ih _ hts h rfl⟩)
      (derives_iff_level.1 h))

end

end ClauseLang.Reader
