import ClauseLang.Machine.Run

namespace ClauseLang

/-- Give the first formal of a clause its argument. -/
def advance (ev : Evaluator) (argument : Expr) : Clause × Env → Eval (Option (Clause × Env))
  | (.mk [] _, _) => Eval.fail .nothingToApply
  | (.mk (formal :: row) body, env) => do
    match ← tryMatch ev formal argument env with
    | none => return none
    | some scope => return some (.mk row body, scope)

/-- The clauses that are left after an argument. -/
def surviving (ev : Evaluator) (argument : Expr) :
    List (Clause × Env) → Eval (List (Clause × Env))
  | [] => pure []
  | stage :: stages => do
    match ← advance ev argument stage with
    | none => surviving ev argument stages
    | some stage => return stage :: (← surviving ev argument stages)

theorem survivors_eq (ev : Evaluator) (argument : Expr) (clauses : List Clause) (envs : List Env) :
    survivors ev argument clauses envs = surviving ev argument (clauses.zip envs) := by
  induction clauses generalizing envs with
  | nil => rfl
  | cons clause clauses ih =>
    cases envs with
    | nil => obtain ⟨_ | _, _⟩ := clause <;> rfl
    | cons env envs =>
      obtain ⟨row, body⟩ := clause
      cases row with
      | nil => rfl
      | cons formal row =>
        funext m
        simp only [survivors, List.zip_cons_cons, surviving, advance, bind, EStateM.bind, ih]
        cases tryMatch ev formal argument env m with
        | error e m => rfl
        | ok r m => cases r <;> rfl

/-- A closure with its clauses in their scopes. -/
def Expr.ofStages (stages : List (Clause × Env)) : Expr :=
  .pattern (stages.map Prod.fst) (stages.map Prod.snd)

theorem zip_stages (stages : List (Clause × Env)) :
    (stages.map Prod.fst).zip (stages.map Prod.snd) = stages :=
  (List.zip_of_prod rfl rfl).symm

section

open Eval

variable {cfg : Config} {ev : Evaluator} {a : Expr} {stages left : List (Clause × Env)}
  {m m' : Machine}

theorem Eval.contain_false (x : Eval Expr) : contain false x = x := by
  funext m
  unfold contain
  split <;> simp_all

theorem apply_ofStages (hne : stages ≠ []) (safe : Bool) :
    apply cfg ev (.ofStages stages) a safe = contain safe (do
      match ← surviving ev a stages with
      | [] => Eval.fail (.noMatch a)
      | (first, scope) :: others =>
        match commonArity (((first, scope) :: others).map Prod.fst) with
        | .error rows => Eval.fail (.unevenRows rows)
        | .ok 0 => Eval.during .clauseBody (saturate cfg ev first.body scope)
        | .ok _ => return .ofStages ((first, scope) :: others)) := by
  have hempty : (stages.map Prod.snd).isEmpty = false := by
    cases stages with
    | nil => exact absurd rfl hne
    | cons => rfl
  simp only [apply, Expr.ofStages, applyPattern, hempty, survivors_eq, zip_stages]
  rfl

theorem apply_of_surviving_nil (cfg : Config) (hne : stages ≠ [])
    (h : surviving ev a stages m = .ok [] m') :
    apply cfg ev (.ofStages stages) a false m = .error (.error { fault := .noMatch a }) m' := by
  rw [apply_ofStages hne, contain_false]
  simp only [bind, EStateM.bind, h]
  rfl

theorem apply_of_surviving_last (cfg : Config) (hne : stages ≠ []) {first : Clause} {scope : Env}
    (h : surviving ev a stages m = .ok ((first, scope) :: left) m')
    (hrows : ∀ s ∈ (first, scope) :: left, s.1.row.length = 0) :
    apply cfg ev (.ofStages stages) a false m =
      Eval.during .clauseBody (saturate cfg ev first.body scope) m' := by
  have harity : commonArity (((first, scope) :: left).map Prod.fst) = .ok 0 :=
    commonArity_of_forall (by simp) (List.forall_mem_map.2 hrows)
  rw [apply_ofStages hne, contain_false]
  simp only [bind, EStateM.bind, h, harity]

theorem apply_of_surviving (cfg : Config) (hne : stages ≠ [])
    (h : surviving ev a stages m = .ok left m') (hleft : left ≠ []) {n : Nat}
    (hrows : ∀ s ∈ left, s.1.row.length = n + 1) (safe : Bool) :
    apply cfg ev (.ofStages stages) a safe m = .ok (.ofStages left) m' := by
  cases left with
  | nil => exact absurd rfl hleft
  | cons first others =>
    have harity : commonArity ((first :: others).map Prod.fst) = .ok (n + 1) :=
      commonArity_of_forall (by simp) (List.forall_mem_map.2 hrows)
    rw [apply_ofStages hne]
    simp only [contain, bind, EStateM.bind, h, harity]
    rfl

end

end ClauseLang
