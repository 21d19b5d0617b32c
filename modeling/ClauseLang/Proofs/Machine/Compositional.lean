import ClauseLang.Machine.Run

/-!
Evaluation is put together from a few computations on the machine. What holds of these, alone or of
two runs side by side, and is kept when computations are put together, holds of evaluation.
-/

namespace ClauseLang

open Eval

/-- A relation of computations that goes along with how evaluation is put together, under two
settings that differ in the depth limit alone. -/
structure Compositional (cfg cfg' : Config) (T : ∀ {α : Type}, Eval α → Eval α → Prop) : Prop where
  host_eq : cfg.host = cfg'.host
  pure : ∀ {α : Type} (a : α), T (pure a) (pure a)
  fail : ∀ {α : Type} (fault : Fault), T (fail fault : Eval α) (fail fault)
  freshMark : T freshMark freshMark
  print : ∀ line, T (print line) (print line)
  bind : ∀ {α β : Type} {x y : Eval α} {f g : α → Eval β}, T x y → (∀ a, T (f a) (g a)) →
    T (x >>= f) (y >>= g)
  during : ∀ {α : Type} {x y : Eval α} (step : Step), T x y → T (during step x) (during step y)
  contain : ∀ {x y : Eval Expr} (safe : Bool), T x y → T (contain safe x) (contain safe y)
  saturate : ∀ {ev ev' : Evaluator} {body : Expr} {env : Env},
    T (ev body env false) (ev' body env false) →
      T (saturate cfg ev body env) (saturate cfg' ev' body env)

namespace Compositional

variable {cfg cfg' : Config} {T : ∀ {α : Type}, Eval α → Eval α → Prop} {ev ev' : Evaluator}

theorem extend (hT : Compositional cfg cfg' T) (env : Env) (values : List (String × Expr)) :
    T (Eval.extend env values) (Eval.extend env values) :=
  hT.bind hT.freshMark fun _ => hT.pure _

theorem extendRecursive (hT : Compositional cfg cfg' T) (env : Env) (name : String)
    (clauses : List Clause) :
    T (Eval.extendRecursive env name clauses) (Eval.extendRecursive env name clauses) :=
  hT.bind hT.freshMark fun _ => hT.pure _

theorem ofExcept {α : Type} (hT : Compositional cfg cfg' T) (r : Except Fault α) :
    T (Eval.ofExcept r) (Eval.ofExcept r) := by
  cases r with
  | ok a => exact hT.pure a
  | error fault => exact hT.fail fault

variable (hT : Compositional cfg cfg' T) (hev : ∀ e env safe, T (ev e env safe) (ev' e env safe))

include hT hev

theorem matchInto (env : Env) (formal argument : Expr) (bound : List (String × Expr)) :
    T (matchInto ev env formal argument bound) (matchInto ev' env formal argument bound) := by
  match formal with
  | .guarded inner condition _ =>
    rw [ClauseLang.matchInto, ClauseLang.matchInto]
    refine hT.bind (matchInto env inner argument bound) fun r => ?_
    cases r with
    | none => exact hT.pure none
    | some bound =>
      exact hT.bind (hT.extend env bound) fun scope =>
        hT.bind (hev condition scope true) fun _ => hT.pure _
  | .cons head tail =>
    rw [ClauseLang.matchInto, ClauseLang.matchInto]
    split
    · exact hT.pure none
    next front rest _ =>
      refine hT.bind (matchInto env head front bound) fun r => ?_
      cases r with
      | none => exact hT.pure none
      | some bound => exact matchInto env tail rest bound
  | .identifier _ | .number _ | .text _ | .label _ | .list _ => exact hT.pure _
  | .application _ | .letIn _ _ _ | .pattern _ _ | .builtin _ => exact hT.fail _
termination_by sizeOf formal

theorem tryMatch (formal argument : Expr) (env : Env) :
    T (tryMatch ev formal argument env) (tryMatch ev' formal argument env) := by
  refine hT.bind (hT.matchInto hev env formal argument []) fun r => ?_
  cases r with
  | none => exact hT.pure none
  | some bound => exact hT.bind (hT.extend env bound) fun _ => hT.pure _

theorem survivors (argument : Expr) (clauses : List Clause) (envs : List Env) :
    T (survivors ev argument clauses envs) (survivors ev' argument clauses envs) := by
  induction clauses generalizing envs with
  | nil => exact hT.pure []
  | cons clause clauses ih =>
    obtain ⟨row, body⟩ := clause
    cases envs with
    | nil => cases row <;> exact hT.pure []
    | cons env envs =>
      cases row with
      | nil => exact hT.fail _
      | cons formal row =>
        refine hT.bind (hT.tryMatch hev formal argument env) fun r => ?_
        cases r with
        | none => exact ih envs
        | some scope => exact hT.bind (ih envs) fun _ => hT.pure _

theorem applyPattern (clauses : List Clause) (captured : List Env) (argument : Expr) :
    T (applyPattern cfg ev clauses captured argument)
      (applyPattern cfg' ev' clauses captured argument) := by
  unfold ClauseLang.applyPattern
  split
  · exact hT.fail _
  · refine hT.bind (hT.survivors hev argument clauses captured) fun stages => ?_
    cases stages with
    | nil => exact hT.fail _
    | cons first others =>
      dsimp only
      split
      · exact hT.fail _
      · exact hT.during _ (hT.saturate (hev _ _ false))
      · exact hT.pure _

omit hev in
theorem call (op : Builtin) (argument : Expr) (safe : Bool) :
    T (op.call cfg argument safe) (op.call cfg' argument safe) := by
  cases op with
  | unary op =>
    cases op with
    | abs | len => exact hT.ofExcept _
    | print => exact hT.bind (hT.print _) fun _ => hT.pure _
  | binary op => exact hT.pure _
  | waiting op left => exact hT.ofExcept _
  | host name =>
    rw [Builtin.call, Builtin.call, hT.host_eq]
    exact hT.ofExcept _

theorem apply (callee argument : Expr) (safe : Bool) :
    T (apply cfg ev callee argument safe) (apply cfg' ev' callee argument safe) := by
  refine hT.contain safe ?_
  split
  · exact hT.applyPattern hev _ _ argument
  · exact hT.during _ (hT.call _ argument safe)
  · exact hT.fail _

theorem evalElements (env : Env) (safe : Bool) (index : Nat) (items : List Expr) :
    T (evalElements ev env safe index items) (evalElements ev' env safe index items) := by
  induction items generalizing index with
  | nil => exact hT.pure []
  | cons item items ih =>
    exact hT.bind (hT.during _ (hev item env safe)) fun _ =>
      hT.bind (ih (index + 1)) fun _ => hT.pure _

theorem applyAll (env : Env) (safe : Bool) (position : Nat) (callee : Expr) (items : List Expr) :
    T (applyAll cfg ev env safe position callee items)
      (applyAll cfg' ev' env safe position callee items) := by
  induction items generalizing position callee with
  | nil => exact hT.pure callee
  | cons item items ih =>
    refine hT.bind (hT.during _ (hev item env safe)) fun argument => ?_
    exact hT.bind (hT.during _ (hT.apply hev callee argument safe)) fun value =>
      ih (position + 1) value

theorem evalBindings (safe : Bool) (names : List String) (values : List Expr) (env : Env) :
    T (evalBindings ev safe names values env) (evalBindings ev' safe names values env) := by
  induction names generalizing values env with
  | nil => exact hT.pure env
  | cons name names ih =>
    cases values with
    | nil => exact hT.pure env
    | cons value values =>
      by_cases hpattern : ∃ clauses, value = .pattern clauses []
      · obtain ⟨clauses, rfl⟩ := hpattern
        exact hT.bind (hT.extendRecursive env name clauses) fun scope => ih values scope
      · rw [evalBindings_of_ne ev safe name names values env (not_exists.1 hpattern),
          evalBindings_of_ne ev' safe name names values env (not_exists.1 hpattern)]
        exact hT.bind (hT.during _ (hev value env safe)) fun held =>
          hT.bind (hT.extend env _) fun scope => ih values scope

theorem evalLevel (e : Expr) (env : Env) (safe : Bool) :
    T (evalLevel cfg ev e env safe) (evalLevel cfg' ev' e env safe) := by
  cases e with
  | identifier name =>
    rw [ClauseLang.evalLevel, ClauseLang.evalLevel]
    split
    · exact hT.pure _
    · exact hT.fail _
  | number | text | label | builtin => exact hT.pure _
  | list items => exact hT.bind (hT.evalElements hev env safe 0 items) fun _ => hT.pure _
  | application items =>
    cases items with
    | nil => exact hT.fail _
    | cons item items =>
      exact hT.bind (hT.during _ (hev item env safe)) fun callee =>
        hT.applyAll hev env safe 1 callee items
  | letIn names values body =>
    exact hT.bind (hT.evalBindings hev safe names values env) fun scope =>
      hT.during _ (hev body scope safe)
  | pattern clauses captured => cases captured <;> exact hT.pure _
  | cons | guarded => exact hT.fail _

end Compositional

end ClauseLang
