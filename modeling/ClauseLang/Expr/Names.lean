import ClauseLang.Expr.Basic

namespace ClauseLang

namespace Expr

mutual

/-- Every name in an expression, bound or used, in the order in which they are written. -/
def identifiers : Expr → List String
  | .identifier name => [name]
  | .application items | .list items => itemsIdentifiers items
  | .cons head tail => head.identifiers ++ tail.identifiers
  | .letIn names values body => bindingsIdentifiers names values ++ body.identifiers
  | .guarded inner condition _ => inner.identifiers ++ condition.identifiers
  | .pattern clauses _ => clausesIdentifiers clauses
  | .label _ | .text _ | .number _ | .builtin _ => []

def itemsIdentifiers : List Expr → List String
  | [] => []
  | item :: items => item.identifiers ++ itemsIdentifiers items

def bindingsIdentifiers : List String → List Expr → List String
  | name :: names, value :: values =>
    name :: (value.identifiers ++ bindingsIdentifiers names values)
  | _, _ => []

def clausesIdentifiers : List Clause → List String
  | [] => []
  | .mk row body :: clauses =>
    itemsIdentifiers row ++ body.identifiers ++ clausesIdentifiers clauses

end

/-- The names that a formal binds, from left to right. -/
def boundNames : Expr → List String
  | .identifier name => if name = discard then [] else [name]
  | .cons head tail => head.boundNames ++ tail.boundNames
  | .guarded inner _ _ => inner.boundNames
  | _ => []

def rowNames (row : List Expr) : List String :=
  row.flatMap boundNames

end Expr

end ClauseLang
