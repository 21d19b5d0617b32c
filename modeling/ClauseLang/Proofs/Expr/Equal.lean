import ClauseLang.Expr.Equal

namespace ClauseLang.Expr

mutual

theorem equal_refl (e : Expr) : e.equal e := by
  match e with
  | .application items | .list items => exact equalItems_refl items
  | .identifier name | .label name => exact beq_self_eq_true name
  | .text value => exact beq_self_eq_true value
  | .number value => exact beq_self_eq_true value
  | .cons head tail =>
    rw [equal, equal_refl head, equal_refl tail]
    rfl
  | .letIn names values body =>
    rw [equal, equalItems_refl values, equal_refl body, beq_self_eq_true]
    rfl
  | .guarded inner condition constant =>
    rw [equal, equal_refl inner, equal_refl condition, beq_self_eq_true]
    rfl
  | .pattern clauses captured =>
    rw [equal, equalClauses_refl clauses, beq_self_eq_true]
    rfl
  | .builtin op => exact beq_self_eq_true op.name

theorem equalItems_refl (items : List Expr) : equalItems items items := by
  match items with
  | [] => rfl
  | item :: items =>
    rw [equalItems, equal_refl item, equalItems_refl items]
    rfl

theorem equalClauses_refl (clauses : List Clause) : equalClauses clauses clauses := by
  match clauses with
  | [] => rfl
  | .mk row body :: clauses =>
    rw [equalClauses, equalItems_refl row, equal_refl body, equalClauses_refl clauses]
    rfl

end

mutual

/-- Equal expressions are equal to the same ones. -/
theorem equal_congr {e e' : Expr} (h : e.equal e') (a : Expr) : e.equal a = e'.equal a := by
  cases e with
  | application items =>
    cases e' with
    | application items' =>
      rw [equal] at h
      cases a with
      | application others => simp only [equal, equalItems_congr h others]
      | _ => simp only [equal]
    | _ => simp [equal] at h
  | list items =>
    cases e' with
    | list items' =>
      rw [equal] at h
      cases a with
      | list others => simp only [equal, equalItems_congr h others]
      | _ => simp only [equal]
    | _ => simp [equal] at h
  | identifier | label | text | number =>
    cases e' with
    | identifier | label | text | number =>
      simp only [equal, beq_iff_eq, Bool.false_eq_true] at h
      try rw [h]
    | _ => simp [equal] at h
  | cons head tail =>
    cases e' with
    | cons head' tail' =>
      rw [equal, Bool.and_eq_true] at h
      cases a with
      | cons head'' tail'' =>
        simp only [equal, equal_congr h.1 head'', equal_congr h.2 tail'']
      | _ => simp only [equal]
    | _ => simp [equal] at h
  | letIn names values body =>
    cases e' with
    | letIn names' values' body' =>
      rw [equal, Bool.and_eq_true, Bool.and_eq_true, beq_iff_eq] at h
      obtain ⟨⟨rfl, hvalues⟩, hbody⟩ := h
      cases a with
      | letIn names'' values'' body'' =>
        simp only [equal, equalItems_congr hvalues values'', equal_congr hbody body'']
      | _ => simp only [equal]
    | _ => simp [equal] at h
  | guarded inner condition constant =>
    cases e' with
    | guarded inner' condition' constant' =>
      rw [equal, Bool.and_eq_true, Bool.and_eq_true, beq_iff_eq] at h
      obtain ⟨⟨hinner, hcondition⟩, rfl⟩ := h
      cases a with
      | guarded inner'' condition'' constant'' =>
        simp only [equal, equal_congr hinner inner'', equal_congr hcondition condition'']
      | _ => simp only [equal]
    | _ => simp [equal] at h
  | pattern clauses captured =>
    cases e' with
    | pattern clauses' captured' =>
      rw [equal, Bool.and_eq_true, beq_iff_eq] at h
      cases a with
      | pattern clauses'' captured'' =>
        simp only [equal, equalClauses_congr h.1 clauses'', h.2]
      | _ => simp only [equal]
    | _ => simp [equal] at h
  | builtin op =>
    cases e' with
    | builtin op' =>
      rw [equal, beq_iff_eq] at h
      cases a with
      | builtin op'' => simp only [equal, h]
      | _ => simp only [equal]
    | _ => simp [equal] at h

theorem equalItems_congr {items items' : List Expr} (h : equalItems items items')
    (others : List Expr) : equalItems items others = equalItems items' others := by
  match items, items' with
  | [], [] => rfl
  | item :: items, item' :: items' =>
    rw [equalItems, Bool.and_eq_true] at h
    cases others with
    | nil => rfl
    | cons other others =>
      simp only [equalItems, equal_congr h.1 other, equalItems_congr h.2 others]
  | [], _ :: _ | _ :: _, [] => simp [equalItems] at h

theorem equalClauses_congr {clauses clauses' : List Clause} (h : equalClauses clauses clauses')
    (others : List Clause) : equalClauses clauses others = equalClauses clauses' others := by
  match clauses, clauses' with
  | [], [] => rfl
  | .mk row body :: clauses, .mk row' body' :: clauses' =>
    rw [equalClauses, Bool.and_eq_true, Bool.and_eq_true] at h
    cases others with
    | nil => rfl
    | cons other others =>
      obtain ⟨row'', body''⟩ := other
      simp only [equalClauses, equalItems_congr h.1.1 row'', equal_congr h.1.2 body'',
        equalClauses_congr h.2 others]
  | [], _ :: _ | _ :: _, [] => simp [equalClauses] at h

end

variable {e : Expr}

theorem eq_text_of_equal {value : String} (h : e.equal (.text value)) : e = .text value := by
  cases e with
  | text other =>
    rw [equal, beq_iff_eq] at h
    rw [h]
  | _ => simp [equal] at h

theorem exists_list_of_equal {items : List Expr} (h : e.equal (.list items)) :
    ∃ others, e = .list others ∧ equalItems others items := by
  cases e with
  | list others =>
    rw [equal] at h
    exact ⟨others, rfl, h⟩
  | _ => simp [equal] at h

end ClauseLang.Expr
