import ClauseLang.Scope.Basic
import Mathlib.Data.List.Basic
import Mathlib.Logic.Function.Basic

/-!
Renaming the marks of scopes. Values that differ in their marks alone look the same to a program, as
long as scopes with different marks still have different ones.
-/

namespace ClauseLang

mutual

/-- Change all marks in an expression. -/
def Expr.rename (ρ : Nat → Nat) : Expr → Expr
  | .application items => .application (renameItems ρ items)
  | .identifier name => .identifier name
  | .label name => .label name
  | .text value => .text value
  | .number value => .number value
  | .list items => .list (renameItems ρ items)
  | .cons head tail => .cons (head.rename ρ) (tail.rename ρ)
  | .letIn names values body => .letIn names (renameItems ρ values) (body.rename ρ)
  | .guarded inner condition constant =>
    .guarded (inner.rename ρ) (condition.rename ρ) constant
  | .pattern clauses captured => .pattern (renameClauses ρ clauses) (renameScopes ρ captured)
  | .builtin op => .builtin (op.rename ρ)

def renameItems (ρ : Nat → Nat) : List Expr → List Expr
  | [] => []
  | item :: items => item.rename ρ :: renameItems ρ items

def Clause.rename (ρ : Nat → Nat) : Clause → Clause
  | .mk row body => .mk (renameItems ρ row) (body.rename ρ)

def renameClauses (ρ : Nat → Nat) : List Clause → List Clause
  | [] => []
  | clause :: clauses => clause.rename ρ :: renameClauses ρ clauses

def Builtin.rename (ρ : Nat → Nat) : Builtin → Builtin
  | .unary op => .unary op
  | .binary op => .binary op
  | .waiting op left => .waiting op (left.rename ρ)
  | .host name => .host name

def Binding.rename (ρ : Nat → Nat) : Binding → Binding
  | .value name held => .value name (held.rename ρ)
  | .recursive name clauses => .recursive name (renameClauses ρ clauses)

def renameBindings (ρ : Nat → Nat) : List Binding → List Binding
  | [] => []
  | binding :: bindings => binding.rename ρ :: renameBindings ρ bindings

def Env.rename (ρ : Nat → Nat) : Env → Env
  | .root mark bindings => .root (ρ mark) (renameBindings ρ bindings)
  | .child mark bindings parent =>
    .child (ρ mark) (renameBindings ρ bindings) (parent.rename ρ)

def renameScopes (ρ : Nat → Nat) : List Env → List Env
  | [] => []
  | env :: envs => env.rename ρ :: renameScopes ρ envs

end

mutual

/-- All marks in an expression. -/
def Expr.marks : Expr → List Nat
  | .application items | .list items => itemsMarks items
  | .cons head tail => head.marks ++ tail.marks
  | .letIn _ values body => itemsMarks values ++ body.marks
  | .guarded inner condition _ => inner.marks ++ condition.marks
  | .pattern clauses captured => clausesMarks clauses ++ scopesMarks captured
  | .builtin op => op.marks
  | .identifier _ | .label _ | .text _ | .number _ => []

def itemsMarks : List Expr → List Nat
  | [] => []
  | item :: items => item.marks ++ itemsMarks items

def Clause.marks : Clause → List Nat
  | .mk row body => itemsMarks row ++ body.marks

def clausesMarks : List Clause → List Nat
  | [] => []
  | clause :: clauses => clause.marks ++ clausesMarks clauses

def Builtin.marks : Builtin → List Nat
  | .waiting _ left => left.marks
  | .unary _ | .binary _ | .host _ => []

def Binding.marks : Binding → List Nat
  | .value _ held => held.marks
  | .recursive _ clauses => clausesMarks clauses

def bindingsMarks : List Binding → List Nat
  | [] => []
  | binding :: bindings => binding.marks ++ bindingsMarks bindings

def Env.marks : Env → List Nat
  | .root mark bindings => mark :: bindingsMarks bindings
  | .child mark bindings parent => mark :: (bindingsMarks bindings ++ parent.marks)

def scopesMarks : List Env → List Nat
  | [] => []
  | env :: envs => env.marks ++ scopesMarks envs

end

section

variable (ρ : Nat → Nat)

@[simp] theorem renameItems_eq (items : List Expr) :
    renameItems ρ items = items.map (·.rename ρ) := by
  induction items with
  | nil => rfl
  | cons item items ih => simp [renameItems, ih]

@[simp] theorem renameClauses_eq (clauses : List Clause) :
    renameClauses ρ clauses = clauses.map (·.rename ρ) := by
  induction clauses with
  | nil => rfl
  | cons clause clauses ih => simp [renameClauses, ih]

@[simp] theorem renameBindings_eq (bindings : List Binding) :
    renameBindings ρ bindings = bindings.map (·.rename ρ) := by
  induction bindings with
  | nil => rfl
  | cons binding bindings ih => simp [renameBindings, ih]

@[simp] theorem renameScopes_eq (envs : List Env) :
    renameScopes ρ envs = envs.map (·.rename ρ) := by
  induction envs with
  | nil => rfl
  | cons env envs ih => simp [renameScopes, ih]

@[simp] theorem itemsMarks_eq (items : List Expr) : itemsMarks items = items.flatMap Expr.marks := by
  induction items with
  | nil => rfl
  | cons item items ih => simp [itemsMarks, ih]

@[simp] theorem clausesMarks_eq (clauses : List Clause) :
    clausesMarks clauses = clauses.flatMap Clause.marks := by
  induction clauses with
  | nil => rfl
  | cons clause clauses ih => simp [clausesMarks, ih]

@[simp] theorem bindingsMarks_eq (bindings : List Binding) :
    bindingsMarks bindings = bindings.flatMap Binding.marks := by
  induction bindings with
  | nil => rfl
  | cons binding bindings ih => simp [bindingsMarks, ih]

@[simp] theorem scopesMarks_eq (envs : List Env) : scopesMarks envs = envs.flatMap Env.marks := by
  induction envs with
  | nil => rfl
  | cons env envs ih => simp [scopesMarks, ih]

end

section

variable {ρ ρ' : Nat → Nat}

mutual

theorem Expr.rename_congr (e : Expr) (h : ∀ k ∈ e.marks, ρ k = ρ' k) :
    e.rename ρ = e.rename ρ' := by
  match e with
  | .application items | .list items =>
    simp only [Expr.rename]
    rw [renameItems_congr items h]
  | .identifier _ | .label _ | .text _ | .number _ => simp only [Expr.rename]
  | .cons head tail =>
    simp only [Expr.marks, List.mem_append] at h
    simp only [Expr.rename]
    rw [head.rename_congr fun k hk => h k (.inl hk), tail.rename_congr fun k hk => h k (.inr hk)]
  | .letIn names values body =>
    simp only [Expr.marks, List.mem_append] at h
    simp only [Expr.rename]
    rw [renameItems_congr values fun k hk => h k (.inl hk),
      body.rename_congr fun k hk => h k (.inr hk)]
  | .guarded inner condition constant =>
    simp only [Expr.marks, List.mem_append] at h
    simp only [Expr.rename]
    rw [inner.rename_congr fun k hk => h k (.inl hk),
      condition.rename_congr fun k hk => h k (.inr hk)]
  | .pattern clauses captured =>
    simp only [Expr.marks, List.mem_append] at h
    simp only [Expr.rename]
    rw [renameClauses_congr clauses fun k hk => h k (.inl hk),
      renameScopes_congr captured fun k hk => h k (.inr hk)]
  | .builtin op =>
    simp only [Expr.rename]
    rw [op.rename_congr h]

theorem renameItems_congr (items : List Expr) (h : ∀ k ∈ itemsMarks items, ρ k = ρ' k) :
    renameItems ρ items = renameItems ρ' items := by
  match items with
  | [] => simp only [renameItems]
  | item :: items =>
    simp only [itemsMarks, List.mem_append] at h
    simp only [renameItems]
    rw [item.rename_congr fun k hk => h k (.inl hk),
      renameItems_congr items fun k hk => h k (.inr hk)]

theorem Clause.rename_congr (clause : Clause) (h : ∀ k ∈ clause.marks, ρ k = ρ' k) :
    clause.rename ρ = clause.rename ρ' := by
  match clause with
  | .mk row body =>
    simp only [Clause.marks, List.mem_append] at h
    simp only [Clause.rename]
    rw [renameItems_congr row fun k hk => h k (.inl hk), body.rename_congr fun k hk => h k (.inr hk)]

theorem renameClauses_congr (clauses : List Clause) (h : ∀ k ∈ clausesMarks clauses, ρ k = ρ' k) :
    renameClauses ρ clauses = renameClauses ρ' clauses := by
  match clauses with
  | [] => simp only [renameClauses]
  | clause :: clauses =>
    simp only [clausesMarks, List.mem_append] at h
    simp only [renameClauses]
    rw [clause.rename_congr fun k hk => h k (.inl hk),
      renameClauses_congr clauses fun k hk => h k (.inr hk)]

theorem Builtin.rename_congr (op : Builtin) (h : ∀ k ∈ op.marks, ρ k = ρ' k) :
    op.rename ρ = op.rename ρ' := by
  match op with
  | .unary _ | .binary _ | .host _ => simp only [Builtin.rename]
  | .waiting op left =>
    simp only [Builtin.rename]
    rw [left.rename_congr h]

theorem Binding.rename_congr (binding : Binding) (h : ∀ k ∈ binding.marks, ρ k = ρ' k) :
    binding.rename ρ = binding.rename ρ' := by
  match binding with
  | .value name held =>
    simp only [Binding.rename]
    rw [held.rename_congr h]
  | .recursive name clauses =>
    simp only [Binding.rename]
    rw [renameClauses_congr clauses h]

theorem renameBindings_congr (bindings : List Binding)
    (h : ∀ k ∈ bindingsMarks bindings, ρ k = ρ' k) :
    renameBindings ρ bindings = renameBindings ρ' bindings := by
  match bindings with
  | [] => simp only [renameBindings]
  | binding :: bindings =>
    simp only [bindingsMarks, List.mem_append] at h
    simp only [renameBindings]
    rw [binding.rename_congr fun k hk => h k (.inl hk),
      renameBindings_congr bindings fun k hk => h k (.inr hk)]

theorem Env.rename_congr (env : Env) (h : ∀ k ∈ env.marks, ρ k = ρ' k) :
    env.rename ρ = env.rename ρ' := by
  match env with
  | .root mark bindings =>
    simp only [Env.marks, List.mem_cons] at h
    simp only [Env.rename]
    rw [h mark (.inl rfl), renameBindings_congr bindings fun k hk => h k (.inr hk)]
  | .child mark bindings parent =>
    simp only [Env.marks, List.mem_cons, List.mem_append] at h
    simp only [Env.rename]
    rw [h mark (.inl rfl), renameBindings_congr bindings fun k hk => h k (.inr (.inl hk)),
      parent.rename_congr fun k hk => h k (.inr (.inr hk))]

theorem renameScopes_congr (envs : List Env) (h : ∀ k ∈ scopesMarks envs, ρ k = ρ' k) :
    renameScopes ρ envs = renameScopes ρ' envs := by
  match envs with
  | [] => simp only [renameScopes]
  | env :: envs =>
    simp only [scopesMarks, List.mem_append] at h
    simp only [renameScopes]
    rw [env.rename_congr fun k hk => h k (.inl hk),
      renameScopes_congr envs fun k hk => h k (.inr hk)]

end

end

mutual

theorem Expr.rename_id (e : Expr) : e.rename id = e := by
  match e with
  | .application items | .list items => rw [Expr.rename, renameItems_id items]
  | .identifier _ | .label _ | .text _ | .number _ => rw [Expr.rename]
  | .cons head tail => rw [Expr.rename, head.rename_id, tail.rename_id]
  | .letIn names values body => rw [Expr.rename, renameItems_id values, body.rename_id]
  | .guarded inner condition constant => rw [Expr.rename, inner.rename_id, condition.rename_id]
  | .pattern clauses captured =>
    rw [Expr.rename, renameClauses_id clauses, renameScopes_id captured]
  | .builtin op => rw [Expr.rename, op.rename_id]

theorem renameItems_id (items : List Expr) : renameItems id items = items := by
  match items with
  | [] => rw [renameItems]
  | item :: items => rw [renameItems, item.rename_id, renameItems_id items]

theorem Clause.rename_id (clause : Clause) : clause.rename id = clause := by
  match clause with
  | .mk row body => rw [Clause.rename, renameItems_id row, body.rename_id]

theorem renameClauses_id (clauses : List Clause) : renameClauses id clauses = clauses := by
  match clauses with
  | [] => rw [renameClauses]
  | clause :: clauses => rw [renameClauses, clause.rename_id, renameClauses_id clauses]

theorem Builtin.rename_id (op : Builtin) : op.rename id = op := by
  match op with
  | .unary _ | .binary _ | .host _ => rw [Builtin.rename]
  | .waiting op left => rw [Builtin.rename, left.rename_id]

theorem Binding.rename_id (binding : Binding) : binding.rename id = binding := by
  match binding with
  | .value name held => rw [Binding.rename, held.rename_id]
  | .recursive name clauses => rw [Binding.rename, renameClauses_id clauses]

theorem renameBindings_id (bindings : List Binding) : renameBindings id bindings = bindings := by
  match bindings with
  | [] => rw [renameBindings]
  | binding :: bindings => rw [renameBindings, binding.rename_id, renameBindings_id bindings]

theorem Env.rename_id (env : Env) : env.rename id = env := by
  match env with
  | .root mark bindings => rw [Env.rename, renameBindings_id bindings, id]
  | .child mark bindings parent =>
    rw [Env.rename, renameBindings_id bindings, parent.rename_id, id]

theorem renameScopes_id (envs : List Env) : renameScopes id envs = envs := by
  match envs with
  | [] => rw [renameScopes]
  | env :: envs => rw [renameScopes, env.rename_id, renameScopes_id envs]

end

section

variable {ρ : Nat → Nat}

theorem Expr.rename_eq_self {e : Expr} (h : ∀ k ∈ e.marks, ρ k = k) : e.rename ρ = e :=
  calc
    e.rename ρ = e.rename id := e.rename_congr h
    _ = e := e.rename_id

@[simp] theorem Env.mark_rename (env : Env) : (env.rename ρ).mark = ρ env.mark := by
  cases env <;> simp only [Env.rename, Env.mark]

mutual

theorem Expr.spansLines_rename (e : Expr) : (e.rename ρ).spansLines = e.spansLines := by
  match e with
  | .application items | .list items =>
    simp only [Expr.rename, Expr.spansLines, itemsSpanLines_rename items]
  | .identifier _ | .label _ | .text _ | .number _ => simp only [Expr.rename]
  | .cons head tail =>
    simp only [Expr.rename, Expr.spansLines, head.spansLines_rename, tail.spansLines_rename]
  | .letIn names values body =>
    simp only [Expr.rename, Expr.spansLines, body.spansLines_rename, renameItems_eq,
      List.isEmpty_map]
  | .guarded inner condition constant =>
    simp only [Expr.rename, Expr.spansLines, inner.spansLines_rename, condition.spansLines_rename]
  | .pattern clauses captured =>
    simp only [Expr.rename, Expr.spansLines, clausesSpanLines_rename clauses]
    rw [renameClauses_eq, List.length_map]
  | .builtin op =>
    cases op with
    | waiting op left =>
      simp only [Expr.rename, Builtin.rename, Expr.spansLines, Expr.builtinSpansLines,
        left.spansLines_rename]
    | _ => simp only [Expr.rename, Builtin.rename]

theorem itemsSpanLines_rename (items : List Expr) :
    Expr.itemsSpanLines (renameItems ρ items) = Expr.itemsSpanLines items := by
  match items with
  | [] => simp only [renameItems]
  | item :: items =>
    simp only [renameItems, Expr.itemsSpanLines, item.spansLines_rename,
      itemsSpanLines_rename items]

theorem clausesSpanLines_rename (clauses : List Clause) :
    Expr.clausesSpanLines (renameClauses ρ clauses) = Expr.clausesSpanLines clauses := by
  match clauses with
  | [] => simp only [renameClauses]
  | .mk row body :: clauses =>
    simp only [renameClauses, Clause.rename, Expr.clausesSpanLines, itemsSpanLines_rename row,
      body.spansLines_rename, clausesSpanLines_rename clauses]

end

theorem fitsLine_rename (clauses : List Clause) :
    Expr.fitsLine (renameClauses ρ clauses) = Expr.fitsLine clauses := by
  match clauses with
  | [] => rfl
  | [.mk row body] =>
    simp only [renameClauses, Clause.rename, Expr.fitsLine, Clause.body, body.spansLines_rename]
  | _ :: _ :: _ => simp only [renameClauses, Expr.fitsLine]

mutual

theorem Expr.write_rename (level : Nat) (e : Expr) (rest : List Char) :
    (e.rename ρ).write level rest = e.write level rest := by
  match e with
  | .application items | .list items =>
    simp only [Expr.rename, Expr.write, writeItems_rename level items]
  | .identifier _ | .label _ | .text _ | .number _ => simp only [Expr.rename]
  | .cons head tail =>
    simp only [Expr.rename, Expr.write, head.write_rename, tail.write_rename]
  | .letIn names values body =>
    simp only [Expr.rename, Expr.write, body.write_rename, writeBindings_rename level names values]
  | .guarded inner condition constant =>
    simp only [Expr.rename, Expr.write, inner.write_rename, condition.write_rename]
  | .pattern clauses captured =>
    simp only [Expr.rename, Expr.write, fitsLine_rename, writeClauses_rename _ _ clauses]
  | .builtin op => simp only [Expr.rename, Expr.write, writeBuiltin_rename op]

theorem writeItems_rename (level : Nat) (items : List Expr) (rest : List Char) :
    Expr.writeItems level (renameItems ρ items) rest = Expr.writeItems level items rest := by
  match items with
  | [] => simp only [renameItems]
  | [item] => simp only [renameItems, Expr.writeItems, item.write_rename]
  | item :: next :: items =>
    have ih := writeItems_rename level (next :: items) rest
    simp only [renameItems] at ih
    simp only [renameItems, Expr.writeItems, item.write_rename, ih]

theorem writeBindings_rename (level : Nat) (names : List String) (values : List Expr)
    (rest : List Char) :
    Expr.writeBindings level names (renameItems ρ values) rest =
      Expr.writeBindings level names values rest := by
  match values with
  | [] => simp only [renameItems]
  | value :: values =>
    cases names with
    | nil => simp only [renameItems, Expr.writeBindings]
    | cons name names =>
      simp only [renameItems, Expr.writeBindings, value.write_rename,
        writeBindings_rename level names values]

theorem writeRow_rename (level : Nat) (row : List Expr) (rest : List Char) :
    Expr.writeRow level (renameItems ρ row) rest = Expr.writeRow level row rest := by
  match row with
  | [] => simp only [renameItems]
  | formal :: row =>
    simp only [renameItems, Expr.writeRow, formal.write_rename, writeRow_rename level row]

theorem writeClauses_rename (level : Nat) (lead : List Char) (clauses : List Clause)
    (rest : List Char) :
    Expr.writeClauses level lead (renameClauses ρ clauses) rest =
      Expr.writeClauses level lead clauses rest := by
  match clauses with
  | [] => simp only [renameClauses]
  | .mk row body :: clauses =>
    simp only [renameClauses, Clause.rename, Expr.writeClauses, writeRow_rename level row,
      body.write_rename, writeClauses_rename level lead clauses]

theorem writeBuiltin_rename (op : Builtin) (rest : List Char) :
    Expr.writeBuiltin (op.rename ρ) rest = Expr.writeBuiltin op rest := by
  match op with
  | .unary _ | .binary _ | .host _ => simp only [Builtin.rename]
  | .waiting op left => simp only [Builtin.rename, Expr.writeBuiltin, left.write_rename]

end

@[simp] theorem Builtin.name_rename (op : Builtin) : (op.rename ρ).name = op.name := by
  rw [Builtin.name, writeBuiltin_rename, Builtin.name]

mutual

theorem Expr.equal_rename (hρ : Function.Injective ρ) (a b : Expr) :
    (a.rename ρ).equal (b.rename ρ) = a.equal b := by
  match a with
  | .application xs =>
    cases b with
    | application ys => simp only [Expr.rename, Expr.equal, equalItems_rename hρ xs ys]
    | _ => simp only [Expr.rename, Expr.equal]
  | .list xs =>
    cases b with
    | list ys => simp only [Expr.rename, Expr.equal, equalItems_rename hρ xs ys]
    | _ => simp only [Expr.rename, Expr.equal]
  | .identifier _ | .label _ | .text _ | .number _ =>
    cases b <;> simp only [Expr.rename, Expr.equal]
  | .cons head tail =>
    cases b with
    | cons head' tail' =>
      simp only [Expr.rename, Expr.equal, head.equal_rename hρ head', tail.equal_rename hρ tail']
    | _ => simp only [Expr.rename, Expr.equal]
  | .letIn names values body =>
    cases b with
    | letIn names' values' body' =>
      simp only [Expr.rename, Expr.equal, equalItems_rename hρ values values',
        body.equal_rename hρ body']
    | _ => simp only [Expr.rename, Expr.equal]
  | .guarded inner condition constant =>
    cases b with
    | guarded inner' condition' constant' =>
      simp only [Expr.rename, Expr.equal, inner.equal_rename hρ inner',
        condition.equal_rename hρ condition']
    | _ => simp only [Expr.rename, Expr.equal]
  | .pattern clauses captured =>
    cases b with
    | pattern clauses' captured' =>
      have hmarks (envs : List Env) :
          (envs.map (·.rename ρ)).map Env.mark = (envs.map Env.mark).map ρ := by
        simp [Function.comp_def]
      have hsame : (captured.map Env.mark).map ρ = (captured'.map Env.mark).map ρ ↔
          captured.map Env.mark = captured'.map Env.mark :=
        (List.map_injective_iff.2 hρ).eq_iff
      simp only [Expr.rename, Expr.equal, equalClauses_rename hρ clauses clauses',
        renameScopes_eq, hmarks, beq_eq_decide, hsame]
    | _ => simp only [Expr.rename, Expr.equal]
  | .builtin op =>
    cases b with
    | builtin op' => simp only [Expr.rename, Expr.equal, Builtin.name_rename]
    | _ => simp only [Expr.rename, Expr.equal]

theorem equalItems_rename (hρ : Function.Injective ρ) (xs ys : List Expr) :
    Expr.equalItems (renameItems ρ xs) (renameItems ρ ys) = Expr.equalItems xs ys := by
  match xs with
  | [] => cases ys <;> simp only [renameItems, Expr.equalItems]
  | x :: xs =>
    cases ys with
    | nil => simp only [renameItems, Expr.equalItems]
    | cons y ys =>
      simp only [renameItems, Expr.equalItems, x.equal_rename hρ y, equalItems_rename hρ xs ys]

theorem equalClauses_rename (hρ : Function.Injective ρ) (clauses clauses' : List Clause) :
    Expr.equalClauses (renameClauses ρ clauses) (renameClauses ρ clauses') =
      Expr.equalClauses clauses clauses' := by
  match clauses with
  | [] => cases clauses' <;> simp only [renameClauses, Expr.equalClauses]
  | .mk row body :: clauses =>
    cases clauses' with
    | nil => simp only [renameClauses, Clause.rename, Expr.equalClauses]
    | cons clause' clauses' =>
      obtain ⟨row', body'⟩ := clause'
      simp only [renameClauses, Clause.rename, Expr.equalClauses, equalItems_rename hρ row row',
        body.equal_rename hρ body', equalClauses_rename hρ clauses clauses']

end

@[simp] theorem Binding.name_rename (binding : Binding) :
    (binding.rename ρ).name = binding.name := by
  cases binding <;> rfl

theorem Expr.rename_closeOver (clauses : List Clause) (env : Env) :
    (Expr.closeOver clauses env).rename ρ =
      .closeOver (clauses.map (·.rename ρ)) (env.rename ρ) := by
  simp [Expr.closeOver, Expr.rename]

theorem Binding.resolve_rename (binding : Binding) (env : Env) :
    (binding.rename ρ).resolve (env.rename ρ) = (binding.resolve env).rename ρ := by
  cases binding with
  | value name held => rfl
  | recursive name clauses =>
    simp only [Binding.rename, Binding.resolve, Expr.rename_closeOver, renameClauses_eq]

theorem find?_rename (bindings : List Binding) (name : String) :
    (bindings.map (·.rename ρ)).find? (fun b => b.name = name) =
      (bindings.find? fun b => b.name = name).map (·.rename ρ) := by
  have hname : (fun b : Binding => decide (b.name = name)) ∘ Binding.rename ρ =
      fun b => decide (b.name = name) := by
    funext b
    simp
  rw [List.find?_map, hname]

theorem Env.find?_rename (env : Env) (name : String) :
    (env.rename ρ).find? name = (env.find? name).map (·.rename ρ) := by
  match env with
  | .root mark bindings =>
    simp only [Env.rename, Env.find?, renameBindings_eq, ClauseLang.find?_rename, Option.map_map]
    congr 1
    funext binding
    have hb := binding.resolve_rename (ρ := ρ) (.root mark bindings)
    rw [Env.rename, renameBindings_eq] at hb
    exact hb
  | .child mark bindings parent =>
    have ih := parent.find?_rename name
    simp only [Env.rename, Env.find?, renameBindings_eq, ClauseLang.find?_rename]
    cases bindings.find? fun b => b.name = name with
    | none => exact ih
    | some binding =>
      have hb := binding.resolve_rename (ρ := ρ) (.child mark bindings parent)
      rw [Env.rename, renameBindings_eq] at hb
      exact congrArg some hb

theorem Env.get?_rename (env : Env) (name : String) :
    (env.rename ρ).get? name = (env.get? name).map (·.rename ρ) := by
  unfold Env.get?
  split
  · rfl
  · exact env.find?_rename name

/-- Change all marks in named values. -/
def renameValues (ρ : Nat → Nat) (values : List (String × Expr)) : List (String × Expr) :=
  values.map fun (name, held) => (name, held.rename ρ)

theorem setBinding_rename (name : String) (held : Expr) (frame : List Binding) :
    (setBinding name held frame).map (·.rename ρ) =
      setBinding name (held.rename ρ) (frame.map (·.rename ρ)) := by
  induction frame with
  | nil => rfl
  | cons binding frame ih =>
    simp only [setBinding, List.map_cons, Binding.name_rename]
    split
    · rfl
    · rw [List.map_cons, ih]

theorem frameOf_rename (values : List (String × Expr)) :
    (frameOf values).map (·.rename ρ) = frameOf (renameValues ρ values) := by
  have hfold : ∀ frame : List Binding,
      (values.foldl (fun frame (name, held) =>
        if name = discard then frame else setBinding name held frame) frame).map (·.rename ρ) =
      (renameValues ρ values).foldl (fun frame (name, held) =>
        if name = discard then frame else setBinding name held frame) (frame.map (·.rename ρ)) := by
    unfold renameValues
    induction values with
    | nil => exact fun _ => rfl
    | cons p values ih =>
      intro frame
      simp only [List.foldl_cons, List.map_cons]
      rw [ih]
      split
      · rfl
      · rw [setBinding_rename]
  exact hfold []

theorem Env.extend_rename (env : Env) (mark : Nat) (values : List (String × Expr)) :
    (env.extend mark values).rename ρ =
      (env.rename ρ).extend (ρ mark) (renameValues ρ values) := by
  unfold Env.extend
  rw [← frameOf_rename]
  cases frameOf values with
  | nil => rfl
  | cons binding frame => simp only [List.map_cons, Env.rename, renameBindings_eq]

theorem Env.extendRecursive_rename (env : Env) (mark : Nat) (name : String)
    (clauses : List Clause) :
    (env.extendRecursive mark name clauses).rename ρ =
      (env.rename ρ).extendRecursive (ρ mark) name (clauses.map (·.rename ρ)) := by
  unfold Env.extendRecursive
  split
  · rfl
  · simp [Env.rename, Binding.rename]

end

section

variable {k : Nat}

theorem Expr.mem_marks_closeOver {clauses : List Clause} {env : Env}
    (h : k ∈ (Expr.closeOver clauses env).marks) :
    (∃ clause ∈ clauses, k ∈ clause.marks) ∨ k ∈ env.marks := by
  simp only [Expr.closeOver, Expr.marks, clausesMarks_eq, scopesMarks_eq, List.mem_append,
    List.mem_flatMap, List.mem_replicate] at h
  rcases h with h | ⟨_, ⟨_, rfl⟩, h⟩
  · exact .inl h
  · exact .inr h

theorem Binding.mem_marks_resolve {binding : Binding} {env : Env}
    (h : k ∈ (binding.resolve env).marks) : k ∈ binding.marks ∨ k ∈ env.marks := by
  cases binding with
  | value name held => exact .inl h
  | recursive name clauses =>
    rcases Expr.mem_marks_closeOver h with ⟨clause, hc, hk⟩ | h
    · refine .inl ?_
      rw [Binding.marks, clausesMarks_eq, List.mem_flatMap]
      exact ⟨clause, hc, hk⟩
    · exact .inr h

theorem mem_bindingsMarks {binding : Binding} {bindings : List Binding} (hb : binding ∈ bindings)
    (h : k ∈ binding.marks) : k ∈ bindingsMarks bindings := by
  rw [bindingsMarks_eq, List.mem_flatMap]
  exact ⟨binding, hb, h⟩

theorem Env.mem_marks_of_find? {env : Env} {name : String} {v : Expr} (h : env.find? name = some v)
    (hk : k ∈ v.marks) : k ∈ env.marks := by
  match env with
  | .root mark bindings =>
    obtain ⟨binding, hb, rfl⟩ := Option.map_eq_some_iff.1 h
    rcases Binding.mem_marks_resolve hk with hk | hk
    · exact List.mem_cons_of_mem _ (mem_bindingsMarks (List.mem_of_find?_eq_some hb) hk)
    · exact hk
  | .child mark bindings parent =>
    rw [Env.find?] at h
    split at h
    next binding hb =>
      cases h
      rcases Binding.mem_marks_resolve hk with hk | hk
      · have hm := mem_bindingsMarks (List.mem_of_find?_eq_some hb) hk
        exact List.mem_cons_of_mem _ (List.mem_append_left _ hm)
      · exact hk
    next =>
      have hm := Env.mem_marks_of_find? h hk
      exact List.mem_cons_of_mem _ (List.mem_append_right _ hm)

theorem Env.mem_marks_of_get? {env : Env} {name : String} {v : Expr} (h : env.get? name = some v)
    (hk : k ∈ v.marks) : k ∈ env.marks := by
  unfold Env.get? at h
  split at h
  · cases h
  · exact Env.mem_marks_of_find? h hk

theorem mem_marks_setBinding {name : String} {held : Expr} {frame : List Binding}
    (h : k ∈ bindingsMarks (setBinding name held frame)) :
    k ∈ held.marks ∨ k ∈ bindingsMarks frame := by
  induction frame with
  | nil => simpa [setBinding, Binding.marks] using h
  | cons binding frame ih =>
    rw [setBinding] at h
    split at h
    · simp only [bindingsMarks, Binding.marks, List.mem_append] at h ⊢
      tauto
    · simp only [bindingsMarks, List.mem_append] at h ⊢
      tauto

theorem mem_marks_frameOf {values : List (String × Expr)} (h : k ∈ bindingsMarks (frameOf values)) :
    ∃ p ∈ values, k ∈ p.2.marks := by
  have hfold : ∀ frame : List Binding,
      k ∈ bindingsMarks (values.foldl (fun frame (name, held) =>
        if name = discard then frame else setBinding name held frame) frame) →
      (∃ p ∈ values, k ∈ p.2.marks) ∨ k ∈ bindingsMarks frame := by
    clear h
    induction values with
    | nil => exact fun _ h => .inr h
    | cons p values ih =>
      obtain ⟨name, held⟩ := p
      intro frame h
      rw [List.foldl_cons] at h
      rcases ih _ h with ⟨q, hq, hk⟩ | h
      · exact .inl ⟨q, List.mem_cons_of_mem _ hq, hk⟩
      · dsimp only at h
        split at h
        · exact .inr h
        · rcases mem_marks_setBinding h with h | h
          · exact .inl ⟨(name, held), List.mem_cons_self, h⟩
          · exact .inr h
  rcases hfold [] h with h | h
  · exact h
  · simp at h

theorem Env.mem_marks_extend {env : Env} {mark : Nat} {values : List (String × Expr)}
    (h : k ∈ (env.extend mark values).marks) :
    k = mark ∨ (∃ p ∈ values, k ∈ p.2.marks) ∨ k ∈ env.marks := by
  have hframe := @mem_marks_frameOf k values
  unfold Env.extend at h
  cases hf : frameOf values with
  | nil => rw [hf] at h; exact .inr (.inr h)
  | cons binding frame =>
    rw [hf] at h hframe
    simp only [Env.marks, List.mem_cons, List.mem_append] at h
    rcases h with h | h | h
    · exact .inl h
    · exact .inr (.inl (hframe h))
    · exact .inr (.inr h)

theorem Env.mem_marks_extendRecursive {env : Env} {mark : Nat} {name : String}
    {clauses : List Clause} (h : k ∈ (env.extendRecursive mark name clauses).marks) :
    k = mark ∨ (∃ clause ∈ clauses, k ∈ clause.marks) ∨ k ∈ env.marks := by
  unfold Env.extendRecursive at h
  split at h
  · exact .inr (.inr h)
  · simpa [Env.marks, Binding.marks] using h

end

end ClauseLang
