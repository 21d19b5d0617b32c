import ClauseLang.Proofs.Reader.Complete

/-!
Where a phrase can stand inside a program, and which braces are in order as far as their lexemes go
but do not make a pattern. A phrase is the same whatever comes after it, so it stands where it does
for every way to go on.
-/

namespace ClauseLang

/-- What the check on the clauses of a pattern can find. -/
def Problem.isCheck : Problem → Bool
  | .defaultFirst | .noClauses | .bareClause | .unevenRows _ => true
  | _ => false

namespace Reader

/-- The clauses that are read one after another, after a first row of the given length if there was
one. The row of a clause without a body goes on as far as it can. -/
inductive Written (P : Phrase Expr) : Option Nat → Phrase (List RawClause)
  | nil {ts : List Lexeme} {first : Option Nat} : Written P first ts [] ts
  | default {ts us rest : List Lexeme} {arity : Nat} {body : Expr} {raws : List RawClause} :
    P ts body us → Written P (some arity) us raws rest →
      Written P (some arity) (.fatArrow :: ts) (⟨openRow arity, some body⟩ :: raws) rest
  | plain {ts us vs rest : List Lexeme} {first : Option Nat} {row : List Expr} {body : Expr}
      {raws : List RawClause} :
    Row P ts row (.arrow :: us) → P us body vs →
      Written P (first.or (some row.length)) vs raws rest →
      Written P first ts (⟨row, some body⟩ :: raws) rest
  | bare {ts us rest : List Lexeme} {first : Option Nat} {row : List Expr}
      {raws : List RawClause} :
    Row P ts row us → Lacks Lexeme.goesOn us →
      Written P (first.or (some row.length)) us raws rest →
      Written P first ts (⟨row, none⟩ :: raws) rest

inductive Flawed : Problem → List Lexeme → Prop
  | defaultFirst (ts : List Lexeme) : Flawed .defaultFirst (.lbrace :: .fatArrow :: ts)
  | finished {ts rest : List Lexeme} {raws : List RawClause} {problem : Problem} :
    Written Derives none ts raws (.rbrace :: rest) → finishClauses raws = .error problem →
      Flawed problem (.lbrace :: ts)

/-- The places of an expression in the one around it. -/
inductive Place where
  | item
  | element
  | guard
  | clauseBody
  | letValue
  | letBody
deriving DecidableEq

/-- Nothing else is tried in that place when there is no expression. -/
def Place.isFinal : Place → Bool
  | .clauseBody | .letValue | .letBody => true
  | .item | .element | .guard => false

/-- An expression that is begun at the first lexemes comes through these places to the second
lexemes, where the innermost of its parts begins. -/
inductive Leads : List Place → List Lexeme → List Lexeme → Prop
  | here {ts : List Lexeme} : Leads [] ts ts
  | item {ts us rest : List Lexeme} {items : List Expr} {path : List Place} :
    Many Derives ts items us → Leads path us rest → Leads (.item :: path) (.lparen :: ts) rest
  | element {ts us rest : List Lexeme} {items : List Expr} {path : List Place} :
    Many Derives ts items us → Leads path us rest → Leads (.element :: path) (.lbracket :: ts) rest
  | guard {ts us vs rest : List Lexeme} {raws : List RawClause} {row : List Expr} {x : String}
      {mark : Lexeme} {path : List Place} :
    Written Derives none ts raws us → Many (Formal Derives) us row (.ident x :: mark :: vs) →
      mark.opensGuard → Leads path vs rest → Leads (.guard :: path) (.lbrace :: ts) rest
  | clauseBody {ts us vs rest : List Lexeme} {raws : List RawClause} {row : List Expr}
      {path : List Place} :
    Written Derives none ts raws us → Row Derives us row (.arrow :: vs) → Leads path vs rest →
      Leads (.clauseBody :: path) (.lbrace :: ts) rest
  | defaultBody {ts us rest : List Lexeme} {raws : List RawClause} {path : List Place} :
    Written Derives none ts raws (.fatArrow :: us) → raws ≠ [] → Leads path us rest →
      Leads (.clauseBody :: path) (.lbrace :: ts) rest
  | letValue {ts rest : List Lexeme} (x : String) {path : List Place} :
    Leads path ts rest → Leads (.letValue :: path) (.letWord :: .ident x :: .equals :: ts) rest
  | letBody {ts us rest : List Lexeme} (x : String) {value : Expr} {path : List Place} :
    Derives ts value us → Leads path us rest →
      Leads (.letBody :: path) (.letWord :: .ident x :: .equals :: ts) rest

/-- The lexemes lead through final places to a flawed brace. -/
def Refused (problem : Problem) (ts : List Lexeme) : Prop :=
  ∃ path us, path.all Place.isFinal ∧ Leads path ts us ∧ Flawed problem us

theorem Derives.below (n : Nat) : Below n Derives (DerivesWithin n) :=
  fun hlt h => h.within hlt

/-! ### More lexemes -/

/-- A phrase of the first sort is one of the second with these lexemes after it. -/
def Carries {α : Type} (after : List Lexeme) (P Q : Phrase α) : Prop :=
  ∀ {ts a rest}, P ts a rest → Q (ts ++ after) a (rest ++ after)

section

variable {after ts rest : List Lexeme} {P Q : Phrase Expr}

theorem Many.append {α : Type} {R S : Phrase α} (hRS : Carries after R S) {as : List α}
    (h : Many R ts as rest) : Many S (ts ++ after) as (rest ++ after) := by
  induction h with
  | nil => exact .nil
  | cons h _ ih => exact .cons (hRS h) ih

theorem Simple.append (hPQ : Carries after P Q) {e : Expr} (h : Simple P ts e rest) :
    Simple Q (ts ++ after) e (rest ++ after) := by
  induction h with
  | name x => exact .name x
  | literal hl => exact .literal hl
  | cons _ _ ihhead ihtail => exact .cons ihhead ihtail
  | list hm => exact .list (hm.append hPQ)

theorem Formal.append (hPQ : Carries after P Q) : Carries after (Formal P) (Formal Q) := by
  intro ts e rest h
  cases h with
  | simple h => exact .simple (h.append hPQ)
  | guarded x h => exact .guarded x (hPQ h)
  | constant x h => exact .constant x (hPQ h)

theorem Row.append (hPQ : Carries after P Q) : Carries after (Row P) (Row Q) := by
  rintro ts row rest ⟨h, hs⟩
  exact ⟨Formal.append hPQ h, hs.append (Formal.append hPQ)⟩

theorem Plain.append (hPQ : Carries after P Q) : Carries after (Plain P) (Plain Q) := by
  rintro ts clause rest ⟨hr, hb⟩
  exact ⟨Row.append hPQ hr, hPQ hb⟩

theorem Others.append (hPQ : Carries after P Q) {arity : Nat} {clauses : List Clause}
    (h : Others P arity ts clauses rest) :
    Others Q arity (ts ++ after) clauses (rest ++ after) := by
  induction h with
  | nil => exact .nil
  | plain h ha _ ih => exact .plain (Plain.append hPQ h) ha ih
  | default h _ ih => exact .default (hPQ h) ih

theorem Level.append (hPQ : Carries after P Q) : Carries after (Level P) (Level Q) := by
  intro ts e rest h
  cases h with
  | ident x => exact .ident x
  | operator x => exact .operator x
  | literal hl => exact .literal hl
  | letIn x hv hb => exact .letIn x (hPQ hv) (hPQ hb)
  | application hm => exact .application (hm.append hPQ)
  | list hm => exact .list (hm.append hPQ)
  | test hr => exact .test (Row.append hPQ hr)
  | pattern hp ho => exact .pattern (Plain.append hPQ hp) (ho.append hPQ)

theorem DerivesWithin.append {n : Nat} : Carries after (DerivesWithin n) (DerivesWithin n) := by
  induction n with
  | zero => exact fun h => h.elim
  | succ n ih => exact Level.append ih

theorem Derives.append : Carries after Derives Derives :=
  fun ⟨n, h⟩ => ⟨n, DerivesWithin.append h⟩

theorem Row.ne_nil {row : List Expr} (h : Row P ts row rest) : ts ≠ [] := by
  obtain ⟨_, _, rfl, -⟩ := h.opensFormal
  exact List.cons_ne_nil _ _

theorem Written.eq_nil {first : Option Nat} {raws : List RawClause}
    (h : Written P first [] raws rest) : rest = [] := by
  cases h with
  | nil => rfl
  | plain hr => exact absurd rfl hr.ne_nil
  | bare hr => exact absurd rfl hr.ne_nil

theorem Written.mono {n : Nat} (hP : Consumes P) (hPQ : Below n P Q) {first : Option Nat}
    {raws : List RawClause} (h : Written P first ts raws rest) (hn : ts.length < n) :
    Written Q first ts raws rest := by
  induction h with
  | nil => exact .nil
  | default h _ ih =>
    have := hP h
    simp only [List.length_cons] at hn
    exact .default (hPQ (by omega) h) (ih (by omega))
  | plain hr hb _ ih =>
    have := Row.consumes hP hr
    have := hP hb
    simp only [List.length_cons] at *
    exact .plain (Row.mono hP hPQ hn hr) (hPQ (by omega) hb) (ih (by omega))
  | bare hr hl _ ih =>
    have := Row.consumes hP hr
    exact .bare (Row.mono hP hPQ hn hr) hl (ih (by omega))

theorem Written.length_le (hP : Consumes P) {first : Option Nat} {raws : List RawClause}
    (h : Written P first ts raws rest) : rest.length ≤ ts.length := by
  induction h with
  | nil => exact Nat.le_refl _
  | default h _ ih =>
    have := hP h
    simp only [List.length_cons]
    omega
  | plain hr hb _ ih =>
    have := Row.consumes hP hr
    have := hP hb
    simp only [List.length_cons] at *
    omega
  | bare hr _ _ ih =>
    have := Row.consumes hP hr
    omega

/-- Clauses with something after them are the same clauses when more follows. -/
theorem Written.append (hPQ : Carries after P Q) {first : Option Nat} {raws : List RawClause}
    (h : Written P first ts raws rest) (hne : rest ≠ []) :
    Written Q first (ts ++ after) raws (rest ++ after) := by
  induction h with
  | nil => exact .nil
  | default h _ ih => exact .default (hPQ h) (ih hne)
  | plain hr hb _ ih => exact .plain (Row.append hPQ hr) (hPQ hb) (ih hne)
  | @bare ts us rest first row raws hr hl hw ih =>
    refine .bare (Row.append hPQ hr) ?_ (ih hne)
    cases us with
    | nil => exact absurd hw.eq_nil hne
    | cons l us => exact lacks_cons (hl l us rfl)

theorem Flawed.append {problem : Problem} (h : Flawed problem ts) (after : List Lexeme) :
    Flawed problem (ts ++ after) := by
  cases h with
  | defaultFirst ts => exact .defaultFirst _
  | finished hw hf => exact .finished (hw.append Derives.append (List.cons_ne_nil _ _)) hf

theorem Leads.append {path : List Place} (h : Leads path ts rest) (after : List Lexeme) :
    Leads path (ts ++ after) (rest ++ after) := by
  induction h with
  | here => exact .here
  | item hm _ ih => exact .item (hm.append Derives.append) ih
  | element hm _ ih => exact .element (hm.append Derives.append) ih
  | guard hw hm hmark _ ih =>
    refine .guard (hw.append Derives.append ?_) (hm.append (Formal.append Derives.append)) hmark ih
    rintro rfl
    cases hm with
    | cons h => cases h with
      | simple h => cases h
  | clauseBody hw hr _ ih =>
    exact .clauseBody (hw.append Derives.append hr.ne_nil) (Row.append Derives.append hr) ih
  | defaultBody hw hne _ ih =>
    exact .defaultBody (hw.append Derives.append (List.cons_ne_nil _ _)) hne ih
  | letValue x _ ih => exact .letValue x ih
  | letBody x hv _ ih => exact .letBody x (Derives.append hv) ih

theorem Leads.trans {path path' : List Place} {us : List Lexeme} (h : Leads path ts us)
    (h' : Leads path' us rest) : Leads (path ++ path') ts rest := by
  induction h with
  | here => exact h'
  | item hm _ ih => exact .item hm (ih h')
  | element hm _ ih => exact .element hm (ih h')
  | guard hw hm hmark _ ih => exact .guard hw hm hmark (ih h')
  | clauseBody hw hr _ ih => exact .clauseBody hw hr (ih h')
  | defaultBody hw hne _ ih => exact .defaultBody hw hne (ih h')
  | letValue x _ ih => exact .letValue x (ih h')
  | letBody x hv _ ih => exact .letBody x hv (ih h')

end

end Reader

end ClauseLang
