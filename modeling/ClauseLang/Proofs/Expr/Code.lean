import ClauseLang.Proofs.Expr.Guards
import ClauseLang.Proofs.Reader.RoundTrip

/-!
Code: the expressions that programs are made of. Rows have formals in them and nothing else does, no
pattern is without clauses, and its rows are equally long and not empty.
-/

namespace ClauseLang

/-- Where a row may have guards: at formals that are names, or at any part of a formal if no condition
uses a name that its formal has yet to bind. -/
inductive Guarding where
  | shallow
  | timely

mutual

/-- An expression that can be evaluated. It holds neither closures nor builtins. -/
inductive IsCodeOf : Guarding → Expr → Prop
  | identifier {g : Guarding} (name : String) : IsCodeOf g (.identifier name)
  | label {g : Guarding} (name : String) : IsCodeOf g (.label name)
  | text {g : Guarding} (value : String) : IsCodeOf g (.text value)
  | number {g : Guarding} (value : Int64) : IsCodeOf g (.number value)
  | application {g : Guarding} {items : List Expr} :
    (∀ item ∈ items, IsCodeOf g item) → IsCodeOf g (.application items)
  | list {g : Guarding} {items : List Expr} :
    (∀ item ∈ items, IsCodeOf g item) → IsCodeOf g (.list items)
  | letIn {g : Guarding} {names : List String} {values : List Expr} {body : Expr} :
    names.length = values.length → (∀ value ∈ values, IsCodeOf g value) → IsCodeOf g body →
      IsCodeOf g (.letIn names values body)
  | pattern {g : Guarding} {arity : Nat} {clauses : List Clause} :
    0 < arity → clauses ≠ [] → (∀ clause ∈ clauses, IsClauseOf g arity clause) →
      IsCodeOf g (.pattern clauses [])

/-- A formal without a guard. -/
inductive IsSimpleOf : Guarding → Expr → Prop
  | identifier {g : Guarding} (name : String) : IsSimpleOf g (.identifier name)
  | label {g : Guarding} (name : String) : IsSimpleOf g (.label name)
  | text {g : Guarding} (value : String) : IsSimpleOf g (.text value)
  | number {g : Guarding} (value : Int64) : IsSimpleOf g (.number value)
  | list {g : Guarding} {items : List Expr} :
    (∀ item ∈ items, IsCodeOf g item) → IsSimpleOf g (.list items)
  | cons {g : Guarding} {head tail : Expr} :
    IsSimpleOf g head → IsSimpleOf g tail → IsSimpleOf g (.cons head tail)

/-- A formal. If guarding is shallow, only a name has a guard. -/
inductive IsFormalOf : Guarding → Expr → Prop
  | simple {g : Guarding} {formal : Expr} : IsSimpleOf g formal → IsFormalOf g formal
  | guarded {g : Guarding} (name : String) {condition : Expr} (constant : Bool) :
    IsCodeOf g condition → IsFormalOf g (.guarded (.identifier name) condition constant)
  | nestedCons {head tail : Expr} : IsFormalOf .timely head → IsFormalOf .timely tail →
    IsFormalOf .timely (.cons head tail)
  | nestedGuarded {inner condition : Expr} (constant : Bool) : IsFormalOf .timely inner →
    IsCodeOf .timely condition → IsFormalOf .timely (.guarded inner condition constant)

/-- A clause with so many formals. -/
inductive IsClauseOf : Guarding → Nat → Clause → Prop
  | mk {row : List Expr} {body : Expr} :
    (∀ formal ∈ row, IsFormalOf .shallow formal) → IsCodeOf .shallow body →
      IsClauseOf .shallow row.length (.mk row body)
  | timely {row : List Expr} {body : Expr} :
    (∀ formal ∈ row, IsFormalOf .timely formal) → (∀ g ∈ Expr.rowGuards [] row, g.Timely) →
      IsCodeOf .timely body → IsClauseOf .timely row.length (.mk row body)

end

abbrev IsCode : Expr → Prop := IsCodeOf .shallow

abbrev IsSimple : Expr → Prop := IsSimpleOf .shallow

abbrev IsFormal : Expr → Prop := IsFormalOf .shallow

abbrev IsClause : Nat → Clause → Prop := IsClauseOf .shallow

section

variable {g : Guarding} {arity : Nat} {clause : Clause}

theorem IsClauseOf.length_row (h : IsClauseOf g arity clause) : clause.row.length = arity := by
  cases h <;> rfl

theorem IsClauseOf.isCode_body (h : IsClauseOf g arity clause) : IsCodeOf g clause.body := by
  cases h <;> assumption

theorem IsClauseOf.isFormal_of_mem (h : IsClauseOf g arity clause) :
    ∀ formal ∈ clause.row, IsFormalOf g formal := by
  cases h <;> assumption

theorem IsClauseOf.timely_of_mem (h : IsClauseOf .timely arity clause) :
    ∀ g ∈ Expr.rowGuards [] clause.row, g.Timely := by
  cases h
  assumption

end

theorem IsFormalOf.of_cons {head tail : Expr} (h : IsFormalOf .timely (.cons head tail)) :
    IsFormalOf .timely head ∧ IsFormalOf .timely tail := by
  cases h with
  | simple h =>
    cases h with
    | cons hhead htail => exact ⟨.simple hhead, .simple htail⟩
  | nestedCons hhead htail => exact ⟨hhead, htail⟩

theorem IsFormalOf.of_list {items : List Expr} (h : IsFormalOf .timely (.list items)) :
    ∀ item ∈ items, IsCodeOf .timely item := by
  cases h with
  | simple h =>
    cases h with
    | list hitems => exact hitems

theorem IsFormalOf.of_guarded {inner condition : Expr} {constant : Bool}
    (h : IsFormalOf .timely (.guarded inner condition constant)) :
    IsFormalOf .timely inner ∧ IsCodeOf .timely condition := by
  cases h with
  | simple h => cases h
  | guarded name _ hcondition => exact ⟨.simple (.identifier name), hcondition⟩
  | nestedGuarded _ hinner hcondition => exact ⟨hinner, hcondition⟩

mutual

/-- Whatever row stands in code, its guards are timely. -/
theorem timely_of_mem_rows {e : Expr} (h : IsCodeOf .timely e) :
    ∀ row ∈ e.rows, ∀ g ∈ Expr.rowGuards [] row, g.Timely := by
  match e, h with
  | .application items, .application hitems | .list items, .list hitems =>
    exact timely_of_mem_itemsRows hitems
  | .letIn names values body, .letIn _ hvalues hbody =>
    rw [Expr.rows, List.forall_mem_append]
    exact ⟨timely_of_mem_itemsRows hvalues, timely_of_mem_rows hbody⟩
  | .pattern clauses _, .pattern _ _ hclauses => exact timely_of_mem_clausesRows hclauses
  | _, .identifier _ | _, .label _ | _, .text _ | _, .number _ =>
    exact fun row hrow => absurd hrow List.not_mem_nil
termination_by sizeOf e

theorem timely_of_mem_itemsRows {items : List Expr} (h : ∀ item ∈ items, IsCodeOf .timely item) :
    ∀ row ∈ Expr.itemsRows items, ∀ g ∈ Expr.rowGuards [] row, g.Timely := by
  match items with
  | [] => exact fun row hrow => absurd hrow List.not_mem_nil
  | item :: items =>
    rw [List.forall_mem_cons] at h
    rw [Expr.itemsRows, List.forall_mem_append]
    exact ⟨timely_of_mem_rows h.1, timely_of_mem_itemsRows h.2⟩
termination_by sizeOf items

theorem timely_of_mem_clausesRows {arity : Nat} {clauses : List Clause}
    (h : ∀ clause ∈ clauses, IsClauseOf .timely arity clause) :
    ∀ row ∈ Expr.clausesRows clauses, ∀ g ∈ Expr.rowGuards [] row, g.Timely := by
  match clauses with
  | [] => exact fun row hrow => absurd hrow List.not_mem_nil
  | .mk row body :: clauses =>
    rw [List.forall_mem_cons] at h
    rw [Expr.clausesRows, List.forall_mem_cons, List.forall_mem_append, List.forall_mem_append]
    exact ⟨h.1.timely_of_mem, ⟨timely_of_mem_formalsRows h.1.isFormal_of_mem,
      timely_of_mem_rows h.1.isCode_body⟩, timely_of_mem_clausesRows h.2⟩
termination_by sizeOf clauses

theorem timely_of_mem_formalsRows {formals : List Expr}
    (h : ∀ formal ∈ formals, IsFormalOf .timely formal) :
    ∀ row ∈ Expr.itemsRows formals, ∀ g ∈ Expr.rowGuards [] row, g.Timely := by
  match formals with
  | [] => exact fun row hrow => absurd hrow List.not_mem_nil
  | formal :: formals =>
    rw [List.forall_mem_cons] at h
    rw [Expr.itemsRows, List.forall_mem_append]
    exact ⟨timely_of_mem_formalRows h.1, timely_of_mem_formalsRows h.2⟩
termination_by sizeOf formals

theorem timely_of_mem_formalRows {e : Expr} (h : IsFormalOf .timely e) :
    ∀ row ∈ e.rows, ∀ g ∈ Expr.rowGuards [] row, g.Timely := by
  match e with
  | .cons head tail =>
    rw [Expr.rows, List.forall_mem_append]
    exact ⟨timely_of_mem_formalRows h.of_cons.1, timely_of_mem_formalRows h.of_cons.2⟩
  | .guarded inner condition constant =>
    rw [Expr.rows, List.forall_mem_append]
    exact ⟨timely_of_mem_formalRows h.of_guarded.1, timely_of_mem_rows h.of_guarded.2⟩
  | .list items => exact timely_of_mem_itemsRows h.of_list
  | .identifier _ | .label _ | .text _ | .number _ | .application _ | .letIn _ _ _ | .pattern _ _
  | .builtin _ => cases h with
    | simple h => cases h <;> exact fun row hrow => absurd hrow List.not_mem_nil
termination_by sizeOf e

end

theorem guards_of_isSimple {g : Guarding} {e : Expr} (h : IsSimpleOf g e)
    (before after : List String) : e.guards before after = [] := by
  match e, h with
  | .cons head tail, .cons hhead htail =>
    rw [Expr.guards, guards_of_isSimple hhead, guards_of_isSimple htail, List.append_nil]
  | _, .identifier _ | _, .label _ | _, .text _ | _, .number _ | .list _, .list _ => rfl
termination_by sizeOf e

/-- A guard at a name stands at the end of its formal. -/
theorem timely_of_isFormal {row : List Expr} (h : ∀ formal ∈ row, IsFormal formal)
    (before : List String) : ∀ g ∈ Expr.rowGuards before row, g.Timely := by
  induction row generalizing before with
  | nil => exact fun g hg => absurd hg List.not_mem_nil
  | cons formal row ih =>
    rw [List.forall_mem_cons] at h
    intro g hg
    rw [Expr.rowGuards, List.mem_append] at hg
    rcases hg with hg | hg
    · cases h.1 with
      | simple hsimple =>
        rw [guards_of_isSimple hsimple] at hg
        cases hg
      | guarded name constant =>
        obtain rfl := List.mem_singleton.1 hg
        exact fun x _ hafter => absurd hafter List.not_mem_nil
    · exact ih h.2 _ g hg

mutual

/-- Guards at names are a special case. -/
theorem isCode_timely {e : Expr} (h : IsCode e) : IsCodeOf .timely e := by
  match e, h with
  | _, .identifier name => exact .identifier name
  | _, .label name => exact .label name
  | _, .text value => exact .text value
  | _, .number value => exact .number value
  | .application items, .application hitems => exact .application (isCode_timely_items hitems)
  | .list items, .list hitems => exact .list (isCode_timely_items hitems)
  | .letIn names values body, .letIn hlength hvalues hbody =>
    exact .letIn hlength (isCode_timely_items hvalues) (isCode_timely hbody)
  | .pattern clauses _, .pattern hpos hne hclauses =>
    exact .pattern hpos hne (isClause_timely hclauses)
termination_by sizeOf e

theorem isCode_timely_items {items : List Expr} (h : ∀ item ∈ items, IsCode item) :
    ∀ item ∈ items, IsCodeOf .timely item := by
  match items with
  | [] => exact fun _ hitem => absurd hitem List.not_mem_nil
  | item :: items =>
    rw [List.forall_mem_cons] at h ⊢
    exact ⟨isCode_timely h.1, isCode_timely_items h.2⟩
termination_by sizeOf items

theorem isClause_timely {arity : Nat} {clauses : List Clause}
    (h : ∀ clause ∈ clauses, IsClause arity clause) :
    ∀ clause ∈ clauses, IsClauseOf .timely arity clause := by
  match clauses with
  | [] => exact fun _ hclause => absurd hclause List.not_mem_nil
  | .mk row body :: clauses =>
    rw [List.forall_mem_cons] at h ⊢
    refine ⟨?_, isClause_timely h.2⟩
    match arity, h.1 with
    | _, .mk hrow hbody =>
      exact .timely (isFormal_timely_row hrow) (timely_of_isFormal hrow []) (isCode_timely hbody)
termination_by sizeOf clauses

theorem isFormal_timely_row {row : List Expr} (h : ∀ formal ∈ row, IsFormal formal) :
    ∀ formal ∈ row, IsFormalOf .timely formal := by
  match row with
  | [] => exact fun _ hformal => absurd hformal List.not_mem_nil
  | formal :: row =>
    rw [List.forall_mem_cons] at h ⊢
    exact ⟨isFormal_timely h.1, isFormal_timely_row h.2⟩
termination_by sizeOf row + 1

theorem isFormal_timely {e : Expr} (h : IsFormal e) : IsFormalOf .timely e := by
  match e, h with
  | _, .simple hsimple => exact .simple (isSimple_timely hsimple)
  | .guarded (.identifier name) condition constant, .guarded _ _ hcondition =>
    exact .guarded name constant (isCode_timely hcondition)
termination_by sizeOf e + 1

theorem isSimple_timely {e : Expr} (h : IsSimple e) : IsSimpleOf .timely e := by
  match e, h with
  | _, .identifier name => exact .identifier name
  | _, .label name => exact .label name
  | _, .text value => exact .text value
  | _, .number value => exact .number value
  | .list items, .list hitems => exact .list (isCode_timely_items hitems)
  | .cons head tail, .cons hhead htail =>
    exact .cons (isSimple_timely hhead) (isSimple_timely htail)
termination_by sizeOf e

end

theorem isFormal_identifier (name : String) : IsFormal (.identifier name) :=
  .simple (.identifier name)

namespace Reader

variable {P : Phrase Expr} {ts rest : List Lexeme}

/-- Every phrase stands for code. -/
def Codes (P : Phrase Expr) : Prop :=
  ∀ {ts e rest}, P ts e rest → IsCode e

theorem Literal.isCode {l : Lexeme} {e : Expr} (h : Literal l e) : IsCode e := by
  cases h with
  | label text => exact .label _
  | string text => exact .text _
  | integer => exact .number _

theorem Literal.isSimple {l : Lexeme} {e : Expr} (h : Literal l e) : IsSimple e := by
  cases h with
  | label text => exact .label _
  | string text => exact .text _
  | integer => exact .number _

theorem Many.forall {α : Type} {R : Phrase α} {Q : α → Prop} {as : List α}
    (hR : ∀ {ts a rest}, R ts a rest → Q a) (h : Many R ts as rest) : ∀ a ∈ as, Q a := by
  induction h with
  | nil => simp
  | cons ha _ ih => simpa using ⟨hR ha, ih⟩

theorem Simple.isSimple (hP : Codes P) {e : Expr} (h : Simple P ts e rest) : IsSimple e := by
  induction h with
  | name x => exact .identifier x
  | literal h => exact h.isSimple
  | cons _ _ ih₁ ih₂ => exact .cons ih₁ ih₂
  | list h => exact .list (h.forall hP)

theorem Formal.isFormal (hP : Codes P) {e : Expr} (h : Formal P ts e rest) : IsFormal e := by
  cases h with
  | simple h => exact .simple (h.isSimple hP)
  | guarded x h => exact .guarded x false (hP h)
  | constant x h => exact .guarded x true (hP h)

theorem Row.isFormal (hP : Codes P) {row : List Expr} (h : Row P ts row rest) :
    ∀ formal ∈ row, IsFormal formal := by
  cases h with
  | mk h hs => simpa using ⟨h.isFormal hP, hs.forall (Formal.isFormal hP)⟩

theorem Plain.isClause (hP : Codes P) {clause : Clause} (h : Plain P ts clause rest) :
    IsClause clause.row.length clause := by
  cases h with
  | mk hr hb => exact .mk (hr.isFormal hP) (hP hb)

theorem isFormal_of_mem_openRow {arity : Nat} {formal : Expr} (h : formal ∈ openRow arity) :
    IsFormal formal := by
  rw [List.eq_of_mem_replicate h]
  exact isFormal_identifier discard

theorem isClause_openRow (arity : Nat) {body : Expr} (h : IsCode body) :
    IsClause arity (.mk (openRow arity) body) := by
  have hc : IsClause (openRow arity).length (.mk (openRow arity) body) :=
    .mk (fun _ => isFormal_of_mem_openRow) h
  rwa [openRow, List.length_replicate] at hc

theorem Others.isClause (hP : Codes P) {arity : Nat} {clauses : List Clause}
    (h : Others P arity ts clauses rest) : ∀ clause ∈ clauses, IsClause arity clause := by
  induction h with
  | nil => simp
  | plain h ha _ ih =>
    have hc := h.isClause hP
    rw [ha] at hc
    simpa using ⟨hc, ih⟩
  | default h _ ih => simpa using ⟨isClause_openRow _ (hP h), ih⟩

theorem isCode_bindFirst {x : String} {value body : Expr} (hv : IsCode value) (hb : IsCode body) :
    IsCode (bindFirst x value body) := by
  have hone : IsCode (.letIn [x] [value] body) := .letIn rfl (by simpa using hv) hb
  cases hb with
  | letIn hlen hvs hb => exact .letIn (by simpa using hlen) (by simpa using ⟨hv, hvs⟩) hb
  | _ => exact hone

theorem Level.isCode (hP : Codes P) : Codes (Level P) := by
  intro ts e rest h
  cases h with
  | ident x => exact .identifier x
  | operator x => exact .identifier x
  | literal h => exact h.isCode
  | letIn x hv hb => exact isCode_bindFirst (hP hv) (hP hb)
  | application h => exact .application (h.forall hP)
  | list h => exact .list (h.forall hP)
  | @test _ _ row h =>
    have htest : IsClause row.length (.mk row .truthy) := .mk (h.isFormal hP) (.label _)
    exact .pattern h.length_pos (by simp)
      (by simpa using ⟨htest, isClause_openRow row.length (.label _)⟩)
  | @pattern _ _ _ clause _ h hs =>
    have hpos : 0 < clause.row.length := by
      cases h with
      | mk hr _ => exact hr.length_pos
    exact .pattern hpos (by simp) (by simpa using ⟨h.isClause hP, hs.isClause hP⟩)

theorem Derives.isCode : Codes Derives := by
  intro ts e rest h
  exact Derives.induction (motive := fun _ e _ => IsCode e) (Level.isCode fun h => h.2) h

end Reader

theorem isCode_of_parse {source : String} {e : Expr} (h : parse source = .ok e) : IsCode e := by
  obtain ⟨_, _, hd⟩ := parse_eq_ok_iff.1 h
  exact Reader.Derives.isCode hd

end ClauseLang
