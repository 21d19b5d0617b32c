import ClauseLang.Expr.Names
import ClauseLang.Proofs.Machine.Ensures
import ClauseLang.Proofs.Machine.Later
import ClauseLang.Proofs.Scope.Names

namespace ClauseLang

open Eval

/-- What the binders of a formal get of an argument, from left to right. -/
def Expr.parts : Expr → Expr → List (String × Expr)
  | .identifier name, argument => [(name, argument)]
  | .guarded inner _ _, argument => inner.parts argument
  | .cons head tail, argument =>
    match split? head argument with
    | some (front, rest) => head.parts front ++ tail.parts rest
    | none => []
  | _, _ => []

/-- What is bound of an argument: nothing by the name `_`. -/
def Expr.boundParts (formal argument : Expr) : List (String × Expr) :=
  (formal.parts argument).filter (·.1 ≠ discard)

theorem Expr.boundParts_cons {head tail argument front rest : Expr}
    (h : split? head argument = some (front, rest)) :
    (Expr.cons head tail).boundParts argument = head.boundParts front ++ tail.boundParts rest := by
  unfold boundParts
  rw [parts, h]
  exact List.filter_append ..

theorem matchInto_parts (ev : Evaluator) (env : Env) (formal argument : Expr)
    (bound : List (String × Expr)) :
    (matchInto ev env formal argument bound).Reports
      (fun r => ∀ bound' ∈ r, bound' = bound ++ formal.boundParts argument ∧
        (formal.boundParts argument).map Prod.fst = formal.boundNames) fun _ => True := by
  match formal with
  | .identifier name =>
    refine Reports.pure ?_
    rintro _ ⟨rfl⟩
    rw [Expr.boundParts, Expr.parts, Expr.boundNames]
    by_cases h : name = discard <;> simp [h]
  | .cons head tail =>
    rw [matchInto]
    split
    · exact Reports.pure (by simp)
    next front rest hsplit =>
      refine (matchInto_parts ev env head front bound).bind fun r hr => ?_
      cases r with
      | none => exact Reports.pure (by simp)
      | some bound₁ =>
        obtain ⟨rfl, hhead⟩ := hr bound₁ rfl
        refine (matchInto_parts ev env tail rest _).mono (fun r hr bound' hbound => ?_) fun _ => id
        obtain ⟨rfl, htail⟩ := hr bound' hbound
        rw [Expr.boundParts_cons hsplit, List.map_append, hhead, htail, List.append_assoc]
        exact ⟨rfl, rfl⟩
  | .guarded inner condition constant =>
    rw [matchInto]
    refine (matchInto_parts ev env inner argument bound).bind fun r hr => ?_
    cases r with
    | none => exact Reports.pure (by simp)
    | some bound₁ =>
      refine (reports_trivial _).bind fun scope _ => ?_
      refine (reports_trivial _).bind fun verdict _ => Reports.pure ?_
      intro bound' h
      split at h
      · exact hr bound' h
      · cases h
  | .number _ | .text _ | .label _ | .list _ =>
    refine Reports.pure fun bound' h => ?_
    split at h
    · cases h
      exact ⟨(List.append_nil _).symm, rfl⟩
    · cases h
  | .application _ | .letIn _ _ _ | .pattern _ _ | .builtin _ => exact Reports.fail trivial
termination_by sizeOf formal

/-- A match extends the scope by what is bound, under the mark that is next when this is known. -/
theorem tryMatch_extends {ev : Evaluator} {formal argument : Expr} {env env' : Env} {m m' : Machine}
    (h : tryMatch ev formal argument env m = .ok (some env') m') :
    ∃ mark, endState (matchInto ev env formal argument []) m = { m' with nextMark := mark } ∧
      m'.nextMark = mark + 1 ∧ env' = env.extend mark (formal.boundParts argument) ∧
      (formal.boundParts argument).map Prod.fst = formal.boundNames := by
  have hparts := matchInto_parts ev env formal argument [] m
  change EStateM.bind (matchInto ev env formal argument []) _ m = _ at h
  unfold EStateM.bind at h
  unfold endState
  cases hmatch : matchInto ev env formal argument [] m with
  | error e m₁ =>
    rw [hmatch] at h
    cases h
  | ok r m₁ =>
    rw [hmatch] at h hparts
    cases r with
    | none => cases h
    | some bound =>
      obtain ⟨rfl, hnames⟩ := hparts bound rfl
      cases h
      exact ⟨m₁.nextMark, rfl, rfl, rfl, hnames⟩

theorem heldFor_filter_ne_discard {x : String} (hx : x ≠ discard) (values : List (String × Expr)) :
    heldFor x (values.filter (·.1 ≠ discard)) = heldFor x values := by
  induction values with
  | nil => rfl
  | cons p values ih =>
    obtain ⟨name, v⟩ := p
    by_cases hname : name = discard
    · have hne : ¬name = x := fun h => hx (h ▸ hname)
      rw [List.filter_cons_of_neg (by simpa using hname), ih, heldFor_cons, if_neg hne, Option.or_none]
    · rw [List.filter_cons_of_pos (by simpa using hname), heldFor_cons, heldFor_cons, ih]

/-- After a match the scope is what it was, if the formal binds nothing, and else it has one new frame.
This has the names that the formal binds, in the order in which they first occur, and each stands for
what its last occurrence gets of the argument. All other names stand for what they stood for. -/
theorem tryMatch_frame {cfg : Config} {fuel : Nat} {formal argument : Expr} {env env' : Env}
    {m m' : Machine} (h : tryMatch (eval cfg fuel) formal argument env m = .ok (some env') m') :
    (Expr.rowNames [formal] = [] ∧ env' = env ∨
      ∃ mark frame, env' = .child mark frame env ∧ m.nextMark ≤ mark ∧ mark < m'.nextMark ∧
        frame ≠ [] ∧ frame.map Binding.name = distinct (Expr.rowNames [formal]) ∧
        ∀ binding ∈ frame, ∃ x v before after, binding = .value x v ∧
          formal.parts argument = before ++ (x, v) :: after ∧ x ∉ after.map Prod.fst) ∧
      Expr.rowNames [formal] = ((formal.parts argument).map Prod.fst).filter (· ≠ discard) ∧
      ∀ x ∉ Expr.rowNames [formal], env'.get? x = env.get? x := by
  obtain ⟨mark, hend, hmark, rfl, hnames⟩ := tryMatch_extends h
  have hrow : Expr.rowNames [formal] = (formal.boundParts argument).map Prod.fst := by
    rw [hnames, Expr.rowNames, List.flatMap_singleton]
  have hlater : m.nextMark ≤ mark := by
    have hadvances := @Compositional.matchInto cfg cfg _ _ (eval cfg fuel)
      (advances_compositional cfg) (eval_advances cfg fuel) env formal argument [] m
    rw [hend] at hadvances
    exact hadvances.nextMark_le
  have hnamed : ∀ x ∈ Expr.rowNames [formal], x ≠ discard := by
    intro x hx
    obtain ⟨p, hp, rfl⟩ := List.mem_map.1 (hrow ▸ hx)
    exact of_decide_eq_true (List.mem_filter.1 hp).2
  have hkeys : (frameOf (formal.boundParts argument)).map Binding.name =
      distinct (Expr.rowNames [formal]) := by
    rw [names_frameOf, ← hrow, List.filter_eq_self.2 fun x hx => decide_eq_true (hnamed x hx)]
  refine ⟨?_, ?_, fun x hx => ?_⟩
  · unfold Env.extend
    split
    next hframe =>
      rw [hframe] at hkeys
      refine .inl ⟨List.eq_nil_iff_forall_not_mem.2 fun x hx => ?_, rfl⟩
      rw [← mem_distinct, ← hkeys] at hx
      exact List.not_mem_nil hx
    next frame hframe =>
      refine .inr ⟨mark, _, rfl, hlater, by omega, hframe, hkeys, fun binding hbinding => ?_⟩
      obtain ⟨x, v, rfl, hheld⟩ := exists_of_mem_frameOf hbinding
      have hmem : x ∈ (frameOf (formal.boundParts argument)).map Binding.name :=
        List.mem_map_of_mem (f := Binding.name) hbinding
      rw [hkeys, mem_distinct] at hmem
      have hx := hnamed x hmem
      rw [Expr.boundParts, heldFor_filter_ne_discard hx] at hheld
      obtain ⟨before, after, hparts, hafter⟩ := heldFor_eq_some_iff.1 hheld
      exact ⟨x, v, before, after, rfl, hparts, hafter⟩
  · rw [hrow, Expr.boundParts, List.filter_map]
    rfl
  · by_cases hdiscard : x = discard
    · rw [hdiscard, Env.get?_discard, Env.get?_discard]
    · rw [Env.get?_extend mark hdiscard, heldFor_eq_none (hrow ▸ hx), Option.none_or]

/-- A list of three or more: the first element is positive and is bound to `x`, the second is
discarded, the third is `y`, and what is left takes the name `x` over. -/
def rebinding : Expr :=
  .cons (.guarded (.identifier "x") (.application [.identifier ">", .identifier "x", .number 0])
    false) (.cons (.identifier "_") (.cons (.identifier "y") (.identifier "x")))

theorem tryMatch_frame_rebinding :
    let argument : Expr := .list [.number 5, .number 7, .label "c", .number 2]
    let env : Env := .withBuiltins 0
    ∃ env' m', tryMatch (eval {} 8) rebinding argument env { nextMark := 1 } = .ok (some env') m' ∧
      (Expr.rowNames [rebinding] = [] ∧ env' = env ∨
        ∃ mark frame, env' = .child mark frame env ∧ 1 ≤ mark ∧ mark < m'.nextMark ∧
          frame ≠ [] ∧ frame.map Binding.name = distinct (Expr.rowNames [rebinding]) ∧
          ∀ binding ∈ frame, ∃ x v before after, binding = .value x v ∧
            rebinding.parts argument = before ++ (x, v) :: after ∧ x ∉ after.map Prod.fst) ∧
        Expr.rowNames [rebinding] =
          ((rebinding.parts argument).map Prod.fst).filter (· ≠ discard) ∧
        ∀ x ∉ Expr.rowNames [rebinding], env'.get? x = env.get? x := by
  intro argument env
  have hmatch : (((tryMatch (eval {} 8) rebinding argument env).value? { nextMark := 1 }).bind
      id).isSome := by decide +kernel
  obtain ⟨env', henv⟩ := Option.isSome_iff_exists.1 hmatch
  obtain ⟨_, hvalue, rfl⟩ := Option.bind_eq_some_iff.1 henv
  obtain ⟨m', h⟩ := exists_ok_of_value? hvalue
  exact ⟨env', m', h, tryMatch_frame h⟩

end ClauseLang
