import ClauseLang.Proofs.Expr.Code
import ClauseLang.Proofs.Scope.Merges

namespace ClauseLang

/-- What the reader makes of an expression, or could make of one. -/
def IsMerged (e : Expr) : Prop :=
  ∃ p, Merges p e

theorem exists_forall₂ {α β : Type} {R : α → β → Prop} {bs : List β} (h : ∀ b ∈ bs, ∃ a, R a b) :
    ∃ as, List.Forall₂ R as bs := by
  induction bs with
  | nil => exact ⟨[], .nil⟩
  | cons b bs ih =>
    simp only [List.mem_cons, forall_eq_or_imp] at h
    obtain ⟨⟨a, ha⟩, hbs⟩ := h
    obtain ⟨as, has⟩ := ih hbs
    exact ⟨a :: as, .cons ha has⟩

theorem isMerged_application {items : List Expr} (h : ∀ item ∈ items, IsMerged item) :
    IsMerged (.application items) :=
  let ⟨_, hitems⟩ := exists_forall₂ h
  ⟨_, .application hitems⟩

theorem isMerged_list {items : List Expr} (h : ∀ item ∈ items, IsMerged item) :
    IsMerged (.list items) :=
  let ⟨_, hitems⟩ := exists_forall₂ h
  ⟨_, .list hitems⟩

def IsMergedClause (clause : Clause) : Prop :=
  ∃ c, MergesClause c clause

theorem isMergedClause_mk {row : List Expr} {body : Expr} (hrow : ∀ formal ∈ row, IsMerged formal)
    (hbody : IsMerged body) : IsMergedClause (.mk row body) := by
  obtain ⟨row', hrow'⟩ := exists_forall₂ hrow
  obtain ⟨body', hbody'⟩ := hbody
  exact ⟨_, .mk hrow' hbody'⟩

theorem isMerged_pattern {clauses : List Clause} (h : ∀ clause ∈ clauses, IsMergedClause clause) :
    IsMerged (.pattern clauses []) :=
  let ⟨_, hclauses⟩ := exists_forall₂ h
  ⟨_, .pattern hclauses .nil⟩

namespace Reader

variable {P : Phrase Expr} {ts rest : List Lexeme}

theorem Literal.isMerged {l : Lexeme} {e : Expr} (h : Literal l e) : IsMerged e := by
  cases h with
  | label text => exact ⟨_, .label _⟩
  | string text => exact ⟨_, .text _⟩
  | integer => exact ⟨_, .number _⟩

variable (hP : ∀ {ts e rest}, P ts e rest → IsMerged e)
include hP

theorem Simple.isMerged {e : Expr} (h : Simple P ts e rest) : IsMerged e := by
  induction h with
  | name x => exact ⟨_, .identifier x⟩
  | literal h => exact h.isMerged
  | cons _ _ ih₁ ih₂ =>
    obtain ⟨head, hhead⟩ := ih₁
    obtain ⟨tail, htail⟩ := ih₂
    exact ⟨_, .cons hhead htail⟩
  | list h => exact isMerged_list (h.forall hP)

theorem Formal.isMerged {e : Expr} (h : Formal P ts e rest) : IsMerged e := by
  cases h with
  | simple h => exact h.isMerged hP
  | guarded x h =>
    obtain ⟨condition, hcondition⟩ := hP h
    exact ⟨_, .guarded false (.identifier x) hcondition⟩
  | constant x h =>
    obtain ⟨condition, hcondition⟩ := hP h
    exact ⟨_, .guarded true (.identifier x) hcondition⟩

theorem Row.isMerged {row : List Expr} (h : Row P ts row rest) : ∀ formal ∈ row, IsMerged formal := by
  cases h with
  | mk h hs => simpa using ⟨h.isMerged hP, hs.forall (Formal.isMerged hP)⟩

theorem Plain.isMerged {clause : Clause} (h : Plain P ts clause rest) : IsMergedClause clause := by
  cases h with
  | mk hr hb => exact isMergedClause_mk (hr.isMerged hP) (hP hb)

omit hP in
theorem isMergedClause_openRow (arity : Nat) {body : Expr} (h : IsMerged body) :
    IsMergedClause (.mk (openRow arity) body) := by
  refine isMergedClause_mk (fun formal hformal => ?_) h
  rw [List.eq_of_mem_replicate hformal]
  exact ⟨_, .identifier _⟩

theorem Others.isMerged {arity : Nat} {clauses : List Clause} (h : Others P arity ts clauses rest) :
    ∀ clause ∈ clauses, IsMergedClause clause := by
  induction h with
  | nil => simp
  | plain h _ _ ih => simpa using ⟨h.isMerged hP, ih⟩
  | default h _ ih => simpa using ⟨isMergedClause_openRow _ (hP h), ih⟩

theorem Level.isMerged {e : Expr} (h : Level P ts e rest) : IsMerged e := by
  cases h with
  | ident x => exact ⟨_, .identifier x⟩
  | operator x => exact ⟨_, .identifier x⟩
  | literal h => exact h.isMerged
  | letIn x hv hb =>
    obtain ⟨value, hvalue⟩ := hP hv
    obtain ⟨body, hbody⟩ := hP hb
    exact ⟨_, .letIn x hvalue hbody⟩
  | application h => exact isMerged_application (h.forall hP)
  | list h => exact isMerged_list (h.forall hP)
  | @test _ _ row h =>
    have htest : IsMergedClause (.mk row .truthy) :=
      isMergedClause_mk (h.isMerged hP) ⟨_, .label _⟩
    exact isMerged_pattern (by
      simpa using ⟨htest, isMergedClause_openRow row.length ⟨_, .label _⟩⟩)
  | pattern h hs => exact isMerged_pattern (by simpa using ⟨h.isMerged hP, hs.isMerged hP⟩)

omit hP in
theorem Derives.isMerged {e : Expr} (h : Derives ts e rest) : IsMerged e :=
  Derives.induction (motive := fun _ e _ => IsMerged e) (Level.isMerged fun h => h.2) h

end Reader

theorem isMerged_of_parse {source : String} {e : Expr} (h : parse source = .ok e) : IsMerged e := by
  obtain ⟨_, _, hd⟩ := parse_eq_ok_iff.1 h
  exact hd.isMerged

end ClauseLang
