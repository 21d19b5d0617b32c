import ClauseLang.Proofs.Machine.Operands
import ClauseLang.Proofs.Machine.Stages
import ClauseLang.Proofs.Scope.Lookup

/-!
Values whose closures are all of one kind. What is asked of a clause in its scope is asked of every
clause that can be reached from a value, through scopes and lists.
-/

namespace ClauseLang

mutual

/-- The property holds of every clause in the scope that it was closed over. -/
inductive Throughout (P : Clause → Env → Prop) : Expr → Prop
  | label (name : String) : Throughout P (.label name)
  | text (value : String) : Throughout P (.text value)
  | number (value : Int64) : Throughout P (.number value)
  | unary (op : UnaryOp) : Throughout P (.builtin (.unary op))
  | binary (op : BinaryOp) : Throughout P (.builtin (.binary op))
  | waiting (op : BinaryOp) {left : Expr} :
    Throughout P left → Throughout P (.builtin (.waiting op left))
  | list {items : List Expr} : (∀ item ∈ items, Throughout P item) → Throughout P (.list items)
  | closure {clauses : List Clause} {captured : List Env} :
    (∀ stage ∈ clauses.zip captured, P stage.1 stage.2) →
      (∀ env ∈ captured, ThroughoutScope P env) → Throughout P (.pattern clauses captured)

inductive ThroughoutScope (P : Clause → Env → Prop) : Env → Prop
  | root {mark : Nat} {bindings : List Binding} :
    (∀ binding ∈ bindings, ThroughoutBinding P (.root mark bindings) binding) →
      ThroughoutScope P (.root mark bindings)
  | child {mark : Nat} {bindings : List Binding} {parent : Env} :
    (∀ binding ∈ bindings, ThroughoutBinding P (.child mark bindings parent) binding) →
      ThroughoutScope P parent → ThroughoutScope P (.child mark bindings parent)

/-- A binding in the frame of the given scope. -/
inductive ThroughoutBinding (P : Clause → Env → Prop) : Env → Binding → Prop
  | value {env : Env} (name : String) {held : Expr} :
    Throughout P held → ThroughoutBinding P env (.value name held)
  | recursive {env : Env} (name : String) {clauses : List Clause} :
    (∀ clause ∈ clauses, P clause env) → ThroughoutBinding P env (.recursive name clauses)

end

/-- The stages of a closure are all of one kind, and so are their scopes. -/
def ThroughoutStages (P : Clause → Env → Prop) (stages : List (Clause × Env)) : Prop :=
  ∀ stage ∈ stages, P stage.1 stage.2 ∧ ThroughoutScope P stage.2

/-- What names are given. -/
def ThroughoutValues (P : Clause → Env → Prop) (values : List (String × Expr)) : Prop :=
  ∀ p ∈ values, Throughout P p.2

section

variable {P : Clause → Env → Prop} {clauses : List Clause} {env : Env} {name : String} {v : Expr}

theorem throughout_falsy : Throughout P .falsy :=
  .label _

theorem throughout_ofStages {stages : List (Clause × Env)} (h : ThroughoutStages P stages) :
    Throughout P (.ofStages stages) := by
  refine .closure (fun stage hs => ?_) fun env henv => ?_
  · rw [← List.zip_of_prod rfl rfl] at hs
    exact (h stage hs).1
  · obtain ⟨stage, hs, rfl⟩ := List.mem_map.1 henv
    exact (h stage hs).2

theorem Throughout.stages {captured : List Env} (h : Throughout P (.pattern clauses captured)) :
    ThroughoutStages P (clauses.zip captured) := by
  cases h with
  | closure hclauses hscopes =>
    exact fun stage hs => ⟨hclauses stage hs, hscopes _ (List.of_mem_zip hs).2⟩

theorem throughout_closeOver (hclauses : ∀ clause ∈ clauses, P clause env)
    (henv : ThroughoutScope P env) : Throughout P (.closeOver clauses env) := by
  refine .closure (fun stage hs => ?_) fun e he => ?_
  · obtain ⟨hclause, hscope⟩ := List.of_mem_zip hs
    rw [List.eq_of_mem_replicate hscope]
    exact hclauses _ hclause
  · rw [List.eq_of_mem_replicate he]
    exact henv

theorem ThroughoutBinding.resolve {binding : Binding} (h : ThroughoutBinding P env binding)
    (henv : ThroughoutScope P env) : Throughout P (binding.resolve env) := by
  cases h with
  | value name h => exact h
  | recursive name h => exact throughout_closeOver h henv

namespace ThroughoutScope

theorem of_find? (henv : ThroughoutScope P env) (h : env.find? name = some v) :
    Throughout P v := by
  induction env using Env.find?.induct name with
  | case1 mark bindings =>
    obtain ⟨binding, hb, rfl⟩ := Option.map_eq_some_iff.1 h
    cases id henv with
    | root hbs => exact (hbs _ (List.mem_of_find?_eq_some hb)).resolve henv
  | case2 mark bindings parent binding hb =>
    rw [Env.find?, hb] at h
    cases h
    cases id henv with
    | child hbs _ => exact (hbs _ (List.mem_of_find?_eq_some hb)).resolve henv
  | case3 mark bindings parent hb ih =>
    rw [Env.find?, hb] at h
    cases henv with
    | child _ hp => exact ih hp h

theorem of_get? (henv : ThroughoutScope P env) (h : env.get? name = some v) : Throughout P v := by
  rw [Env.get?] at h
  split at h
  · cases h
  · exact henv.of_find? h

theorem extend {values : List (String × Expr)} (henv : ThroughoutScope P env)
    (h : ThroughoutValues P values) (mark : Nat) : ThroughoutScope P (env.extend mark values) := by
  -- What a frame of values holds is the same in every scope.
  have hframe : ∀ b ∈ frameOf values, ∀ env, ThroughoutBinding P env b :=
    forall_mem_frameOf fun p hp _ => .value p.1 (h p hp)
  rw [Env.extend]
  split
  · exact henv
  · exact .child (fun b hb => hframe b hb _) henv

theorem extendRecursive (henv : ThroughoutScope P env) (mark : Nat) (name : String)
    (h : name ≠ discard → ∀ clause ∈ clauses, P clause (env.extendRecursive mark name clauses)) :
    ThroughoutScope P (env.extendRecursive mark name clauses) := by
  unfold Env.extendRecursive at h ⊢
  split
  · exact henv
  next hname =>
    rw [if_neg hname] at h
    refine .child (fun b hb => ?_) henv
    rw [List.mem_singleton.1 hb]
    exact .recursive name (h hname)

theorem withBuiltins (mark : Nat) : ThroughoutScope P (.withBuiltins mark) := by
  refine .root fun b hb => ?_
  obtain ⟨op, hop, rfl⟩ := List.mem_map.1 hb
  refine .value _ ?_
  rcases Builtin.binary_or_unary hop with ⟨op, rfl⟩ | ⟨op, rfl⟩
  · exact .binary op
  · exact .unary op

end ThroughoutScope

theorem ofData_throughout (P : Clause → Env → Prop) : OfData (Throughout P) where
  number := .number
  text := .text
  ofBool b := by cases b <;> exact .label _
  list_iff := by
    refine ⟨fun h => ?_, .list⟩
    cases h with
    | list h => exact h

end

end ClauseLang
