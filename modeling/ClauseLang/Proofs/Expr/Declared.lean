import ClauseLang.Expr.Names

namespace ClauseLang

namespace Expr

mutual

/-- Every name in an expression that stands where a name is bound, in the order in which they are
written. -/
def declared : Expr → List String
  | .application items | .list items => itemsDeclared items
  | .cons head tail => head.declared ++ tail.declared
  | .letIn names values body => bindingsDeclared names values ++ body.declared
  | .guarded inner condition _ => inner.declared ++ condition.declared
  | .pattern clauses _ => clausesDeclared clauses
  | .identifier _ | .label _ | .text _ | .number _ | .builtin _ => []

def itemsDeclared : List Expr → List String
  | [] => []
  | item :: items => item.declared ++ itemsDeclared items

def bindingsDeclared : List String → List Expr → List String
  | name :: names, value :: values => name :: (value.declared ++ bindingsDeclared names values)
  | _, _ => []

def clausesDeclared : List Clause → List String
  | [] => []
  | .mk row body :: clauses => rowDeclared row ++ body.declared ++ clausesDeclared clauses

def rowDeclared : List Expr → List String
  | [] => []
  | formal :: row => formal.formalDeclared ++ rowDeclared row

def formalDeclared : Expr → List String
  | .identifier name => [name]
  | .cons head tail => head.formalDeclared ++ tail.formalDeclared
  | .guarded inner condition _ => inner.formalDeclared ++ condition.declared
  | .application items | .list items => itemsDeclared items
  | .letIn names values body => bindingsDeclared names values ++ body.declared
  | .pattern clauses _ => clausesDeclared clauses
  | .label _ | .text _ | .number _ | .builtin _ => []

end

mutual

theorem declared_sublist : ∀ e : Expr, e.declared.Sublist e.identifiers
  | .application items | .list items => by
    rw [declared, identifiers]
    exact itemsDeclared_sublist items
  | .cons head tail => by
    rw [declared, identifiers]
    exact List.Sublist.append (declared_sublist head) (declared_sublist tail)
  | .letIn names values body => by
    rw [declared, identifiers]
    exact List.Sublist.append (bindingsDeclared_sublist names values) (declared_sublist body)
  | .guarded inner condition _ => by
    rw [declared, identifiers]
    exact List.Sublist.append (declared_sublist inner) (declared_sublist condition)
  | .pattern clauses _ => by
    rw [declared, identifiers]
    exact clausesDeclared_sublist clauses
  | .identifier _ | .label _ | .text _ | .number _ | .builtin _ => List.nil_sublist _

theorem itemsDeclared_sublist : ∀ items : List Expr,
    (itemsDeclared items).Sublist (itemsIdentifiers items)
  | [] => List.nil_sublist _
  | item :: items => by
    rw [itemsDeclared, itemsIdentifiers]
    exact List.Sublist.append (declared_sublist item) (itemsDeclared_sublist items)

theorem bindingsDeclared_sublist : ∀ (names : List String) (values : List Expr),
    (bindingsDeclared names values).Sublist (bindingsIdentifiers names values)
  | [], _ | _ :: _, [] => by
    simp [bindingsDeclared]
  | name :: names, value :: values => by
    rw [bindingsDeclared, bindingsIdentifiers]
    exact List.Sublist.cons_cons name
      (List.Sublist.append (declared_sublist value) (bindingsDeclared_sublist names values))

theorem clausesDeclared_sublist : ∀ clauses : List Clause,
    (clausesDeclared clauses).Sublist (clausesIdentifiers clauses)
  | [] => List.nil_sublist _
  | .mk row body :: clauses => by
    rw [clausesDeclared, clausesIdentifiers]
    exact List.Sublist.append
      (List.Sublist.append (rowDeclared_sublist row) (declared_sublist body))
      (clausesDeclared_sublist clauses)

theorem rowDeclared_sublist : ∀ row : List Expr, (rowDeclared row).Sublist (itemsIdentifiers row)
  | [] => List.nil_sublist _
  | formal :: row => by
    rw [rowDeclared, itemsIdentifiers]
    exact List.Sublist.append (formalDeclared_sublist formal) (rowDeclared_sublist row)

theorem formalDeclared_sublist : ∀ formal : Expr, formal.formalDeclared.Sublist formal.identifiers
  | .identifier _ => List.Sublist.refl _
  | .application items | .list items => by
    rw [formalDeclared, identifiers]
    exact itemsDeclared_sublist items
  | .cons head tail => by
    rw [formalDeclared, identifiers]
    exact List.Sublist.append (formalDeclared_sublist head) (formalDeclared_sublist tail)
  | .letIn names values body => by
    rw [formalDeclared, identifiers]
    exact List.Sublist.append (bindingsDeclared_sublist names values) (declared_sublist body)
  | .guarded inner condition _ => by
    rw [formalDeclared, identifiers]
    exact List.Sublist.append (formalDeclared_sublist inner) (declared_sublist condition)
  | .pattern clauses _ => by
    rw [formalDeclared, identifiers]
    exact clausesDeclared_sublist clauses
  | .label _ | .text _ | .number _ | .builtin _ => List.nil_sublist _

end

theorem rowDeclared_append (row row' : List Expr) :
    rowDeclared (row ++ row') = rowDeclared row ++ rowDeclared row' := by
  induction row with
  | nil => rfl
  | cons formal row ih => rw [List.cons_append, rowDeclared, rowDeclared, ih, List.append_assoc]

theorem rowDeclared_map_identifier (names : List String) :
    rowDeclared (names.map .identifier) = names := by
  induction names with
  | nil => rfl
  | cons name names ih => rw [List.map_cons, rowDeclared, formalDeclared, ih, List.singleton_append]

theorem itemsDeclared_map_identifier (names : List String) :
    itemsDeclared (names.map .identifier) = [] := by
  induction names with
  | nil => rfl
  | cons name names ih => rw [List.map_cons, itemsDeclared, declared, ih, List.nil_append]

theorem bindingsDeclared_map (bindings : List (String × Expr)) :
    bindingsDeclared (bindings.map Prod.fst) (bindings.map Prod.snd) =
      bindings.flatMap fun p => p.1 :: p.2.declared := by
  induction bindings with
  | nil => rfl
  | cons p bindings ih =>
    rw [List.map_cons, List.map_cons, bindingsDeclared, ih, List.flatMap_cons, List.cons_append]

end Expr

end ClauseLang
