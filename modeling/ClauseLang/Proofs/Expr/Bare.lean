import ClauseLang.Proofs.Expr.Code
import ClauseLang.Proofs.Expr.Equal
import ClauseLang.Proofs.Scope.Rename

/-!
Code as it is written down: names are spelled as names, and there are neither builtins nor closures.
Programs are such code. For it, equality of the language is equality.
-/

namespace ClauseLang

open ClauseLang.Expr

/-- Code as it is written down. -/
def Expr.IsBare (e : Expr) : Prop :=
  e.IsPrintable ∧ e.marks = []

def Clause.IsBare (clause : Clause) : Prop :=
  (∀ formal ∈ clause.row, formal.IsBare) ∧ clause.body.IsBare

section

variable {items values : List Expr} {clauses : List Clause} {captured : List Env}
  {head tail inner condition body : Expr} {names : List String} {name : String} {constant : Bool}
  {op : Builtin}

theorem bareItems_iff :
    ItemsPrintable items ∧ itemsMarks items = [] ↔ ∀ item ∈ items, item.IsBare := by
  induction items with
  | nil => simp [ItemsPrintable, itemsMarks]
  | cons item items ih =>
    rw [List.forall_mem_cons, ← ih, ItemsPrintable, itemsMarks, List.append_eq_nil_iff, IsBare]
    tauto

theorem bareClauses_iff :
    ClausesPrintable clauses ∧ clausesMarks clauses = [] ↔ ∀ clause ∈ clauses, clause.IsBare := by
  induction clauses with
  | nil => simp [ClausesPrintable, clausesMarks]
  | cons clause clauses ih =>
    obtain ⟨row, body⟩ := clause
    rw [List.forall_mem_cons, ← ih, ClausesPrintable, clausesMarks, Clause.marks, Clause.IsBare,
      Clause.row, Clause.body, ← bareItems_iff, IsBare, List.append_eq_nil_iff,
      List.append_eq_nil_iff]
    tauto

theorem isBare_application : (application items).IsBare ↔ ∀ item ∈ items, item.IsBare := by
  rw [IsBare, IsPrintable, marks, bareItems_iff]

theorem isBare_list : (list items).IsBare ↔ ∀ item ∈ items, item.IsBare := by
  rw [IsBare, IsPrintable, marks, bareItems_iff]

theorem isBare_cons : (cons head tail).IsBare ↔ head.IsBare ∧ tail.IsBare := by
  rw [IsBare, IsPrintable, marks, List.append_eq_nil_iff, IsBare, IsBare]
  tauto

theorem isBare_guarded :
    (guarded inner condition constant).IsBare ↔ inner.IsBare ∧ condition.IsBare := by
  rw [IsBare, IsPrintable, marks, List.append_eq_nil_iff, IsBare, IsBare]
  tauto

theorem isBare_letIn : (letIn names values body).IsBare ↔
    (∀ name ∈ names, (Lexeme.ident name).Proper) ∧ (∀ value ∈ values, value.IsBare) ∧
      body.IsBare := by
  rw [IsBare, IsPrintable, marks, List.append_eq_nil_iff, ← bareItems_iff, IsBare]
  tauto

theorem isBare_pattern :
    (pattern clauses captured).IsBare ↔ (∀ clause ∈ clauses, clause.IsBare) ∧ captured = [] := by
  have hcaptured : scopesMarks captured = [] ↔ captured = [] := by
    cases captured with
    | nil => simp [scopesMarks]
    | cons env envs => cases env <;> simp [Env.marks]
  rw [IsBare, IsPrintable, marks, List.append_eq_nil_iff, ← bareClauses_iff, hcaptured]
  tauto

theorem not_isBare_builtin : ¬(builtin op).IsBare := by
  rintro ⟨h, -⟩
  rwa [IsPrintable] at h

end

mutual

/-- Code is equal to nothing but itself. -/
theorem eq_of_equal {e e' : Expr} (he : e.IsBare) (h : e.equal e') : e = e' := by
  cases e with
  | application items =>
    cases e' with
    | application items' =>
      rw [equal] at h
      rw [eq_of_equalItems (isBare_application.1 he) h]
    | _ => simp [equal] at h
  | list items =>
    cases e' with
    | list items' =>
      rw [equal] at h
      rw [eq_of_equalItems (isBare_list.1 he) h]
    | _ => simp [equal] at h
  | identifier | label | text | number => cases e' <;> simp_all [equal]
  | cons head tail =>
    cases e' with
    | cons head' tail' =>
      rw [equal, Bool.and_eq_true] at h
      obtain ⟨hhead, htail⟩ := isBare_cons.1 he
      rw [eq_of_equal hhead h.1, eq_of_equal htail h.2]
    | _ => simp [equal] at h
  | letIn names values body =>
    cases e' with
    | letIn names' values' body' =>
      rw [equal, Bool.and_eq_true, Bool.and_eq_true, beq_iff_eq] at h
      obtain ⟨⟨rfl, hvalues'⟩, hbody'⟩ := h
      obtain ⟨-, hvalues, hbody⟩ := isBare_letIn.1 he
      rw [eq_of_equalItems hvalues hvalues', eq_of_equal hbody hbody']
    | _ => simp [equal] at h
  | guarded inner condition constant =>
    cases e' with
    | guarded inner' condition' constant' =>
      rw [equal, Bool.and_eq_true, Bool.and_eq_true, beq_iff_eq] at h
      obtain ⟨⟨hinner', hcondition'⟩, rfl⟩ := h
      obtain ⟨hinner, hcondition⟩ := isBare_guarded.1 he
      rw [eq_of_equal hinner hinner', eq_of_equal hcondition hcondition']
    | _ => simp [equal] at h
  | pattern clauses captured =>
    cases e' with
    | pattern clauses' captured' =>
      rw [equal, Bool.and_eq_true, beq_iff_eq] at h
      obtain ⟨hclauses, rfl⟩ := isBare_pattern.1 he
      rw [eq_of_equalClauses hclauses h.1, List.map_eq_nil_iff.1 h.2.symm]
    | _ => simp [equal] at h
  | builtin op => exact absurd he not_isBare_builtin

theorem eq_of_equalItems {items items' : List Expr} (hitems : ∀ item ∈ items, item.IsBare)
    (h : equalItems items items') : items = items' := by
  match items, items' with
  | [], [] => rfl
  | item :: items, item' :: items' =>
    rw [equalItems, Bool.and_eq_true] at h
    rw [List.forall_mem_cons] at hitems
    rw [eq_of_equal hitems.1 h.1, eq_of_equalItems hitems.2 h.2]
  | [], _ :: _ | _ :: _, [] => simp [equalItems] at h

theorem eq_of_equalClauses {clauses clauses' : List Clause}
    (hclauses : ∀ clause ∈ clauses, clause.IsBare) (h : equalClauses clauses clauses') :
    clauses = clauses' := by
  match clauses, clauses' with
  | [], [] => rfl
  | .mk row body :: clauses, .mk row' body' :: clauses' =>
    rw [equalClauses, Bool.and_eq_true, Bool.and_eq_true] at h
    rw [List.forall_mem_cons] at hclauses
    obtain ⟨⟨hrow, hbody⟩, hclauses⟩ := hclauses
    obtain rfl : row = row' := eq_of_equalItems hrow h.1.1
    obtain rfl : body = body' := eq_of_equal hbody h.1.2
    rw [eq_of_equalClauses hclauses h.2]
  | [], _ :: _ | _ :: _, [] => simp [equalClauses] at h

end

mutual

theorem marks_of_isCode {g : Guarding} {e : Expr} (h : IsCodeOf g e) : e.marks = [] := by
  match e, h with
  | _, .identifier _ | _, .label _ | _, .text _ | _, .number _ => rfl
  | .application items, .application hitems | .list items, .list hitems =>
    exact itemsMarks_of_isCode hitems
  | .letIn names values body, .letIn _ hvalues hbody =>
    rw [marks, itemsMarks_of_isCode hvalues, marks_of_isCode hbody]
    rfl
  | .pattern clauses _, .pattern _ _ hclauses =>
    rw [marks, clausesMarks_of_isClause hclauses]
    rfl
termination_by sizeOf e

theorem itemsMarks_of_isCode {g : Guarding} {items : List Expr}
    (h : ∀ item ∈ items, IsCodeOf g item) : itemsMarks items = [] := by
  match items with
  | [] => rfl
  | item :: items =>
    rw [List.forall_mem_cons] at h
    rw [itemsMarks, marks_of_isCode h.1, itemsMarks_of_isCode h.2]
    rfl
termination_by sizeOf items

theorem clausesMarks_of_isClause {g : Guarding} {arity : Nat} {clauses : List Clause}
    (h : ∀ clause ∈ clauses, IsClauseOf g arity clause) : clausesMarks clauses = [] := by
  match clauses with
  | [] => rfl
  | .mk row body :: clauses =>
    rw [List.forall_mem_cons] at h
    have hrow : itemsMarks row = [] := rowMarks_of_isFormal h.1.isFormal_of_mem
    have hbody : body.marks = [] := marks_of_isCode h.1.isCode_body
    rw [clausesMarks, Clause.marks, hrow, hbody, clausesMarks_of_isClause h.2]
    rfl
termination_by sizeOf clauses

theorem rowMarks_of_isFormal {g : Guarding} {row : List Expr}
    (h : ∀ formal ∈ row, IsFormalOf g formal) : itemsMarks row = [] := by
  match row with
  | [] => rfl
  | formal :: row =>
    rw [List.forall_mem_cons] at h
    rw [itemsMarks, marks_of_isFormal h.1, rowMarks_of_isFormal h.2]
    rfl
termination_by sizeOf row + 1

theorem marks_of_isFormal {g : Guarding} {e : Expr} (h : IsFormalOf g e) : e.marks = [] := by
  match e, h with
  | _, .simple hsimple => exact marks_of_isSimple hsimple
  | .guarded (.identifier name) condition _, .guarded _ _ hcondition =>
    rw [marks, marks_of_isCode hcondition]
    rfl
  | .cons head tail, .nestedCons hhead htail =>
    rw [marks, marks_of_isFormal hhead, marks_of_isFormal htail]
    rfl
  | .guarded inner condition _, .nestedGuarded _ hinner hcondition =>
    rw [marks, marks_of_isFormal hinner, marks_of_isCode hcondition]
    rfl
termination_by sizeOf e + 1

theorem marks_of_isSimple {g : Guarding} {e : Expr} (h : IsSimpleOf g e) : e.marks = [] := by
  match e, h with
  | _, .identifier _ | _, .label _ | _, .text _ | _, .number _ => rfl
  | .cons head tail, .cons hhead htail =>
    rw [marks, marks_of_isSimple hhead, marks_of_isSimple htail]
    rfl
  | .list items, .list hitems => exact itemsMarks_of_isCode hitems
termination_by sizeOf e

end

theorem isBare_of_parse {source : String} {e : Expr} (h : parse source = .ok e) : e.IsBare :=
  ⟨(restored_of_parse h).printable, marks_of_isCode (isCode_of_parse h)⟩

end ClauseLang
