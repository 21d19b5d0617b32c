import ClauseLang.Proofs.Expr.Code
import ClauseLang.Proofs.Machine.Ensures
import ClauseLang.Proofs.Machine.Operands
import ClauseLang.Proofs.Scope.Lookup

/-!
Values. Evaluating code in a scope of values leads to a value, or to a fault of the program; the
faults that a broken tree would cause never happen. A value evaluates to itself.
-/

namespace ClauseLang

/-- Only a broken tree causes this fault. -/
def Fault.isInternal : Fault → Bool
  | .badFormal _ | .matchOnly _ | .unevenRows _ | .nothingToApply | .unevaluated => true
  | _ => false

def Fault.IsOrdinary (fault : Fault) : Prop :=
  fault.isInternal = false

mutual

/-- What evaluation leads to. A closure has at least one clause, rows that are equally long and not
empty, and a scope for each clause. -/
inductive IsValue : Expr → Prop
  | label (name : String) : IsValue (.label name)
  | text (value : String) : IsValue (.text value)
  | number (value : Int64) : IsValue (.number value)
  | unary (op : UnaryOp) : IsValue (.builtin (.unary op))
  | binary (op : BinaryOp) : IsValue (.builtin (.binary op))
  | waiting (op : BinaryOp) {left : Expr} : IsValue left → IsValue (.builtin (.waiting op left))
  | list {items : List Expr} : (∀ item ∈ items, IsValue item) → IsValue (.list items)
  | closure {arity : Nat} {clauses : List Clause} {captured : List Env} :
    0 < arity → clauses ≠ [] → (∀ clause ∈ clauses, IsClause arity clause) →
      captured.length = clauses.length → (∀ env ∈ captured, IsScope env) →
        IsValue (.pattern clauses captured)

inductive IsScope : Env → Prop
  | root {mark : Nat} {bindings : List Binding} :
    (∀ binding ∈ bindings, IsBinding binding) → IsScope (.root mark bindings)
  | child {mark : Nat} {bindings : List Binding} {parent : Env} :
    (∀ binding ∈ bindings, IsBinding binding) → IsScope parent →
      IsScope (.child mark bindings parent)

inductive IsBinding : Binding → Prop
  | value (name : String) {held : Expr} : IsValue held → IsBinding (.value name held)
  | recursive (name : String) {arity : Nat} {clauses : List Clause} :
    0 < arity → clauses ≠ [] → (∀ clause ∈ clauses, IsClause arity clause) →
      IsBinding (.recursive name clauses)

end

section

variable {arity : Nat} {clauses : List Clause} {env : Env} {name : String} {v : Expr}

theorem isValue_falsy : IsValue .falsy :=
  .label _

theorem isValue_closeOver (hpos : 0 < arity) (hne : clauses ≠ [])
    (hc : ∀ clause ∈ clauses, IsClause arity clause) (henv : IsScope env) :
    IsValue (.closeOver clauses env) := by
  refine .closure hpos hne hc (by simp) fun e he => ?_
  rw [List.eq_of_mem_replicate he]
  exact henv

theorem IsBinding.isValue_resolve {binding : Binding} (h : IsBinding binding) (henv : IsScope env) :
    IsValue (binding.resolve env) := by
  cases h with
  | value name h => exact h
  | recursive name hpos hne hc => exact isValue_closeOver hpos hne hc henv

theorem IsScope.isValue_of_find? (henv : IsScope env) (h : env.find? name = some v) :
    IsValue v := by
  induction env using Env.find?.induct name with
  | case1 mark bindings =>
    obtain ⟨binding, hb, rfl⟩ := Option.map_eq_some_iff.1 h
    cases id henv with
    | root hbs => exact (hbs _ (List.mem_of_find?_eq_some hb)).isValue_resolve henv
  | case2 mark bindings parent binding hb =>
    rw [Env.find?, hb] at h
    cases h
    cases id henv with
    | child hbs _ => exact (hbs _ (List.mem_of_find?_eq_some hb)).isValue_resolve henv
  | case3 mark bindings parent hb ih =>
    rw [Env.find?, hb] at h
    cases henv with
    | child _ hp => exact ih hp h

theorem IsScope.isValue_of_get? (henv : IsScope env) (h : env.get? name = some v) : IsValue v := by
  rw [Env.get?] at h
  split at h
  · cases h
  · exact henv.isValue_of_find? h

def AreValues (values : List (String × Expr)) : Prop :=
  ∀ p ∈ values, IsValue p.2

theorem IsScope.extend {values : List (String × Expr)} (henv : IsScope env) (h : AreValues values)
    (mark : Nat) : IsScope (env.extend mark values) := by
  have hb : ∀ b ∈ frameOf values, IsBinding b :=
    forall_mem_frameOf fun p hp => .value p.1 (h p hp)
  rw [Env.extend]
  split
  · exact henv
  · exact .child hb henv

theorem IsScope.extendRecursive (henv : IsScope env) (hpos : 0 < arity) (hne : clauses ≠ [])
    (hc : ∀ clause ∈ clauses, IsClause arity clause) (mark : Nat) (name : String) :
    IsScope (env.extendRecursive mark name clauses) := by
  rw [Env.extendRecursive]
  split
  · exact henv
  · exact .child (by simpa using IsBinding.recursive name hpos hne hc) henv

theorem isScope_withBuiltins (mark : Nat) : IsScope (.withBuiltins mark) := by
  refine .root fun b hb => ?_
  obtain ⟨op, hop, rfl⟩ := List.mem_map.1 hb
  refine .value _ ?_
  rcases Builtin.binary_or_unary hop with ⟨op, rfl⟩ | ⟨op, rfl⟩
  · exact .binary op
  · exact .unary op

end

theorem Fault.isOrdinary_of_isNative {fault : Fault} (h : fault.isNative) : fault.IsOrdinary := by
  cases fault with
  | typeMismatch | divisionByZero | overflow => rfl
  | _ => cases h

theorem ofData_isValue : OfData IsValue where
  number := .number
  text := .text
  ofBool b := by cases b <;> exact .label _
  list_iff := by
    refine ⟨fun h => ?_, .list⟩
    cases h with
    | list h => exact h

namespace Eval

abbrev Succeeds (x : Eval Expr) : Prop :=
  x.Ensures IsValue Fault.IsOrdinary

theorem succeeds_ofExcept {r : Except Fault Expr} (h : Computed IsValue r) :
    Succeeds (Eval.ofExcept r) := by
  cases h with
  | ok h => exact .pure h
  | error h => exact .fail (Fault.isOrdinary_of_isNative h)

theorem succeeds_call (cfg : Config) {op : Builtin} (hop : IsValue (.builtin op)) {argument : Expr}
    (ha : IsValue argument) (safe : Bool) : Succeeds (op.call cfg argument safe) := by
  cases hop with
  | unary op =>
    cases op with
    | abs => exact succeeds_ofExcept (computed_absolute ofData_isValue argument)
    | len => exact succeeds_ofExcept (computed_size ofData_isValue argument)
    | print => exact (Ensures.print (P := fun _ => True) trivial).bind fun _ _ => .pure ha
  | binary op => exact .pure (.waiting op ha)
  | waiting op hl => exact succeeds_ofExcept (op.computed_compute ofData_isValue hl ha)

end Eval

def Evaluator.IsSound (ev : Evaluator) : Prop :=
  ∀ {e env} safe, IsCode e → IsScope env → Eval.Succeeds (ev e env safe)

section

open Eval

variable {cfg : Config} {ev : Evaluator} {env : Env}

def MatchesValues (r : Option (List (String × Expr))) : Prop :=
  ∀ bound, r = some bound → AreValues bound

theorem matchesValues_ite {bound : List (String × Expr)} (h : AreValues bound) (b : Bool) :
    MatchesValues (if b then some bound else none) := by
  intro bound' hb
  split at hb
  · cases hb; exact h
  · cases hb

theorem matchInto_ensures_of_isSimple {formal argument : Expr} {bound : List (String × Expr)}
    (hf : IsSimple formal) (ha : IsValue argument) (hb : AreValues bound) :
    (matchInto ev env formal argument bound).Ensures MatchesValues Fault.IsOrdinary := by
  cases hf with
  | identifier name =>
    refine Ensures.pure ?_
    rintro _ ⟨rfl⟩
    split
    · exact hb
    · intro p hp
      rcases List.mem_append.1 hp with hp | hp
      · exact hb p hp
      · rw [List.mem_singleton.1 hp]
        exact ha
  | label | text | number | list => exact Ensures.pure (matchesValues_ite hb _)
  | @cons _ head tail hh ht =>
    rw [matchInto]
    cases hs : split? head argument with
    | none => exact Ensures.pure (fun _ h => nomatch h)
    | some parts =>
      obtain ⟨front, rest⟩ := parts
      obtain ⟨hfront, hrest⟩ := ofData_isValue.of_split? ha hs
      refine (matchInto_ensures_of_isSimple hh hfront hb).bind fun r hr => ?_
      cases r with
      | none => exact Ensures.pure (fun _ h => nomatch h)
      | some bound => exact matchInto_ensures_of_isSimple ht hrest (hr bound rfl)
termination_by sizeOf formal

theorem matchInto_ensures (hev : ev.IsSound) {formal argument : Expr}
    {bound : List (String × Expr)} (hf : IsFormal formal) (henv : IsScope env)
    (ha : IsValue argument) (hb : AreValues bound) :
    (matchInto ev env formal argument bound).Ensures MatchesValues Fault.IsOrdinary := by
  cases hf with
  | simple hf => exact matchInto_ensures_of_isSimple hf ha hb
  | guarded name constant hc =>
    rw [matchInto]
    refine (matchInto_ensures_of_isSimple (.identifier name) ha hb).bind fun r hr => ?_
    cases r with
    | none => exact .pure (fun _ h => nomatch h)
    | some bound =>
      have hbound := hr bound rfl
      refine (Ensures.extend (henv.extend hbound)).bind fun scope hscope => ?_
      refine (hev true hc hscope).bind fun verdict _ => .pure ?_
      exact matchesValues_ite hbound verdict.isTruthy

def MatchesScope (r : Option Env) : Prop :=
  ∀ scope, r = some scope → IsScope scope

theorem tryMatch_ensures (hev : ev.IsSound) {formal argument : Expr} (hf : IsFormal formal)
    (henv : IsScope env) (ha : IsValue argument) :
    (tryMatch ev formal argument env).Ensures MatchesScope Fault.IsOrdinary := by
  have hnone : AreValues [] := fun _ h => nomatch h
  refine (matchInto_ensures hev hf henv ha hnone).bind fun r hr => ?_
  cases r with
  | none => exact .pure (fun _ h => nomatch h)
  | some bound =>
    refine (Ensures.extend (henv.extend (hr bound rfl))).bind fun scope hscope => .pure ?_
    rintro _ ⟨rfl⟩
    exact hscope

/-- Clauses of a closure with rows of the given length, each with its scope. -/
def AreStages (arity : Nat) (stages : List (Clause × Env)) : Prop :=
  ∀ stage ∈ stages, IsClause arity stage.1 ∧ IsScope stage.2

theorem survivors_ensures (hev : ev.IsSound) {arity : Nat} {argument : Expr}
    (ha : IsValue argument) {clauses : List Clause} {captured : List Env}
    (hc : ∀ clause ∈ clauses, IsClause (arity + 1) clause)
    (henv : ∀ env ∈ captured, IsScope env) :
    (survivors ev argument clauses captured).Ensures (AreStages arity) Fault.IsOrdinary := by
  induction clauses generalizing captured with
  | nil => exact .pure (fun _ h => nomatch h)
  | cons clause clauses ih =>
    simp only [List.mem_cons, forall_eq_or_imp] at hc
    cases captured with
    | nil =>
      obtain ⟨row, body⟩ := clause
      cases row <;> exact .pure (fun _ h => nomatch h)
    | cons env envs =>
      simp only [List.mem_cons, forall_eq_or_imp] at henv
      obtain ⟨hclause, hcs⟩ := hc
      generalize hn : arity + 1 = n at hclause
      cases hclause with
      | @mk row body hrow hbody =>
        cases row with
        | nil => simp at hn
        | cons formal row =>
          simp only [List.length_cons, Nat.add_right_cancel_iff] at hn
          simp only [List.mem_cons, forall_eq_or_imp] at hrow
          rw [survivors]
          refine (tryMatch_ensures hev hrow.1 henv.1 ha).bind fun r hr => ?_
          cases r with
          | none => exact ih hcs henv.2
          | some scope =>
            refine (ih hcs henv.2).bind fun stages hstages => .pure ?_
            have hstage : IsClause arity (.mk row body) := hn ▸ .mk hrow.2 hbody
            intro stage hmem
            rcases List.mem_cons.1 hmem with rfl | hmem
            · exact ⟨hstage, hr scope rfl⟩
            · exact hstages stage hmem

theorem applyPattern_succeeds (hev : ev.IsSound) {clauses : List Clause} {captured : List Env}
    {argument : Expr} (hv : IsValue (.pattern clauses captured)) (ha : IsValue argument) :
    Succeeds (applyPattern cfg ev clauses captured argument) := by
  cases hv with
  | @closure arity _ _ hpos hne hc hlen henv =>
    obtain ⟨arity, rfl⟩ : ∃ n, arity = n + 1 := ⟨arity - 1, by omega⟩
    have hcaptured : captured.isEmpty = false := by
      cases captured with
      | nil => exact absurd (List.length_eq_zero_iff.1 hlen.symm) hne
      | cons => rfl
    rw [applyPattern, hcaptured]
    refine (survivors_ensures hev ha hc henv).bind fun stages hstages => ?_
    cases stages with
    | nil => exact .fail rfl
    | cons first others =>
      obtain ⟨clause, scope⟩ := first
      have hrows : ∀ c ∈ ((clause, scope) :: others).map Prod.fst, IsClause arity c := by
        intro c hcm
        obtain ⟨stage, hs, rfl⟩ := List.mem_map.1 hcm
        exact (hstages stage hs).1
      have hfirst := hstages (clause, scope) (by simp)
      have harity : commonArity (((clause, scope) :: others).map Prod.fst) = .ok arity :=
        commonArity_of_forall (by simp) fun c hc => (hrows c hc).length_row
      dsimp only
      rw [harity]
      cases arity with
      | zero =>
        exact .during (.saturate (hev false hfirst.1.isCode_body hfirst.2) rfl)
      | succ n =>
        refine .pure (.closure n.succ_pos (by simp) hrows (by simp) fun env hm => ?_)
        obtain ⟨stage, hs, rfl⟩ := List.mem_map.1 hm
        exact (hstages stage hs).2

theorem apply_succeeds (hev : ev.IsSound) {callee argument : Expr} (hv : IsValue callee)
    (ha : IsValue argument) (safe : Bool) : Succeeds (apply cfg ev callee argument safe) := by
  refine Ensures.contain ?_ isValue_falsy
  cases id hv with
  | closure => exact applyPattern_succeeds hev hv ha
  | unary | binary | waiting => exact .during (succeeds_call cfg hv ha safe)
  | label | text | number | list => exact .fail rfl

theorem evalElements_ensures (hev : ev.IsSound) (henv : IsScope env) (safe : Bool) (index : Nat)
    {items : List Expr} (hi : ∀ item ∈ items, IsCode item) :
    (evalElements ev env safe index items).Ensures (fun values => ∀ v ∈ values, IsValue v)
      Fault.IsOrdinary := by
  induction items generalizing index with
  | nil => exact .pure (fun _ h => nomatch h)
  | cons item items ih =>
    simp only [List.mem_cons, forall_eq_or_imp] at hi
    refine (Ensures.during (hev safe hi.1 henv)).bind fun v hv => ?_
    exact (ih (index + 1) hi.2).bind fun vs hvs => .pure (by simpa using ⟨hv, hvs⟩)

theorem applyAll_succeeds (hev : ev.IsSound) (henv : IsScope env) (safe : Bool) (position : Nat)
    {callee : Expr} (hv : IsValue callee) {items : List Expr} (hi : ∀ item ∈ items, IsCode item) :
    Succeeds (applyAll cfg ev env safe position callee items) := by
  induction items generalizing position callee with
  | nil => exact .pure hv
  | cons item items ih =>
    simp only [List.mem_cons, forall_eq_or_imp] at hi
    refine (Ensures.during (hev safe hi.1 henv)).bind fun argument ha => ?_
    exact (Ensures.during (apply_succeeds hev hv ha safe)).bind fun value hvalue =>
      ih (position + 1) hvalue hi.2

theorem evalBindings_ensures (hev : ev.IsSound) (safe : Bool) {names : List String}
    {values : List Expr} (hvs : ∀ value ∈ values, IsCode value) (henv : IsScope env) :
    (evalBindings ev safe names values env).Ensures IsScope Fault.IsOrdinary := by
  induction names generalizing values env with
  | nil => exact .pure henv
  | cons name names ih =>
    cases values with
    | nil => exact .pure henv
    | cons value values =>
      simp only [List.mem_cons, forall_eq_or_imp] at hvs
      obtain ⟨hv, hvs⟩ := hvs
      by_cases hpattern : ∃ clauses, value = .pattern clauses []
      · obtain ⟨clauses, rfl⟩ := hpattern
        cases hv with
        | pattern hpos hne hc =>
          refine (Ensures.extendRecursive fun mark => ?_).bind fun scope hscope => ih hvs hscope
          exact henv.extendRecursive hpos hne hc mark name
      · rw [evalBindings_of_ne ev safe name names values env (not_exists.1 hpattern)]
        refine (Ensures.during (hev safe hv henv)).bind fun held hheld => ?_
        have hone : AreValues [(name, held)] := by simpa [AreValues] using hheld
        exact (Ensures.extend (henv.extend hone)).bind fun scope hscope => ih hvs hscope

theorem evalLevel_succeeds (hev : ev.IsSound) {e : Expr} (he : IsCode e) (henv : IsScope env)
    (safe : Bool) : Succeeds (evalLevel cfg ev e env safe) := by
  cases he with
  | identifier name =>
    rw [evalLevel]
    cases hg : env.get? name with
    | none => exact .fail rfl
    | some v => exact .pure (henv.isValue_of_get? hg)
  | label name => exact .pure (.label name)
  | text value => exact .pure (.text value)
  | number value => exact .pure (.number value)
  | @application _ items hi =>
    cases items with
    | nil => exact .fail rfl
    | cons item items =>
      simp only [List.mem_cons, forall_eq_or_imp] at hi
      exact (Ensures.during (hev safe hi.1 henv)).bind fun callee hc =>
        applyAll_succeeds hev henv safe 1 hc hi.2
  | list hi => exact (evalElements_ensures hev henv safe 0 hi).bind fun vs hvs => .pure (.list hvs)
  | letIn _ hvs hb =>
    exact (evalBindings_ensures hev safe hvs henv).bind fun scope hscope =>
      .during (hev safe hb hscope)
  | pattern hpos hne hc => exact .pure (isValue_closeOver hpos hne hc henv)

theorem eval_isSound (cfg : Config) (fuel : Nat) : (eval cfg fuel).IsSound := by
  induction fuel with
  | zero => exact fun _ _ _ _ => trivial
  | succ fuel ih =>
    intro e env safe he henv
    rw [eval_succ]
    exact .contain (evalLevel_succeeds ih he henv safe) isValue_falsy

theorem run_succeeds (cfg : Config) (fuel : Nat) {e : Expr} (he : IsCode e) :
    Succeeds (run cfg fuel e) :=
  (Ensures.freshRoot isScope_withBuiltins).bind fun _ hroot => eval_isSound cfg fuel false he hroot

end

/-- What holds from some bound on for each element holds from some bound on for all. -/
theorem exists_bound_of_forall_mem {α : Type} {P : α → Nat → Prop} {xs : List α}
    (h : ∀ x ∈ xs, ∃ n, ∀ k, n ≤ k → P x k) : ∃ n, ∀ x ∈ xs, ∀ k, n ≤ k → P x k := by
  induction xs with
  | nil => exact ⟨0, by simp⟩
  | cons x xs ih =>
    simp only [List.mem_cons, forall_eq_or_imp] at h ⊢
    obtain ⟨n, hn⟩ := h.1
    obtain ⟨n', hn'⟩ := ih h.2
    exact ⟨max n n', fun k hk => hn k (by omega), fun y hy k hk => hn' y hy k (by omega)⟩

theorem evalElements_eq_pure {ev : Evaluator} {env : Env} {safe : Bool} {items : List Expr}
    (h : ∀ item ∈ items, ev item env safe = pure item) (index : Nat) :
    evalElements ev env safe index items = pure items := by
  induction items generalizing index with
  | nil => rfl
  | cons item items ih =>
    simp only [List.mem_cons, forall_eq_or_imp] at h
    rw [evalElements, h.1, ih h.2]
    rfl

theorem eval_value {v : Expr} (hv : IsValue v) :
    ∃ n, ∀ fuel, n ≤ fuel → ∀ cfg env safe, eval cfg fuel v env safe = pure v := by
  have hsucc (h : ∀ cfg fuel env safe, evalLevel cfg (eval cfg fuel) v env safe = pure v) :
      ∃ n, ∀ fuel, n ≤ fuel → ∀ cfg env safe, eval cfg fuel v env safe = pure v := by
    refine ⟨1, fun fuel hfuel cfg env safe => ?_⟩
    obtain ⟨fuel, rfl⟩ : ∃ k, fuel = k + 1 := ⟨fuel - 1, by omega⟩
    rw [eval_succ, h]
    rfl
  match v, hv with
  | _, .label _ | _, .text _ | _, .number _ | _, .unary _ | _, .binary _ | _, .waiting _ _ =>
    exact hsucc fun _ _ _ _ => rfl
  | .list items, .list hitems =>
    obtain ⟨n, hn⟩ := exists_bound_of_forall_mem fun item hi => eval_value (hitems item hi)
    refine ⟨n + 1, fun fuel hfuel cfg env safe => ?_⟩
    obtain ⟨fuel, rfl⟩ : ∃ k, fuel = k + 1 := ⟨fuel - 1, by omega⟩
    rw [eval_succ, evalLevel,
      evalElements_eq_pure fun item hi => hn item hi fuel (by omega) cfg env safe]
    rfl
  | .pattern clauses captured, .closure _ hne _ hlength _ =>
    cases captured with
    | nil => exact absurd (List.length_eq_zero_iff.1 hlength.symm) hne
    | cons => exact hsucc fun _ _ _ _ => rfl
termination_by sizeOf v
decreasing_by
  have := List.sizeOf_lt_of_mem hi
  simp_wf
  omega

end ClauseLang
