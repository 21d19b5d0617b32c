import ClauseLang.Proofs.Machine.Follows
import ClauseLang.Proofs.Machine.Limit
import Mathlib.Data.List.Induction

/-!
Arguments one at a time. A callee gets its arguments in the same order from one application and from
applications of applications, so that both come to the same, in both modes. What is told apart is the
way to a fault: the steps around it are counted from the application they belong to.
-/

namespace ClauseLang

namespace Eval

variable {α β γ δ : Type} {R : α → β → Prop} {S : γ → δ → Prop}

/-- How the second computation may end if the first one has ended so: in the same state, with a
related value or the same fault. -/
inductive Resembles (R : α → β → Prop) :
    EStateM.Result Halt Machine α → EStateM.Result Halt Machine β → Prop
  | ok {a : α} {b : β} {m : Machine} : R a b → Resembles R (.ok a m) (.ok b m)
  | error {e e' : RuntimeError} {m : Machine} : e.fault = e'.fault →
    Resembles R (.error (.error e) m) (.error (.error e') m)
  | outOfFuel {m : Machine} {r : EStateM.Result Halt Machine β} :
    Resembles R (.error .outOfFuel m) r

/-- The second computation ends as the first one does, if that comes to an end. The way to a fault
may be another one. -/
def Agrees (R : α → β → Prop) (x : Eval α) (y : Eval β) : Prop :=
  ∀ m, Resembles R (x m) (y m)

namespace Agrees

variable {x : Eval α} {y : Eval β}

theorem pure {a : α} {b : β} (h : R a b) : Agrees R (pure a) (pure b) :=
  fun _ => .ok h

theorem fail (fault : Fault) : Agrees R (fail fault) (fail fault) :=
  fun _ => .error rfl

theorem of_extends {x y : Eval α} (h : Extends x y) : Agrees Eq x y := by
  intro m
  have hm := h m
  unfold ends at hm
  match hx : x m with
  | .ok a m' =>
    rw [hm (by rw [hx]), hx]
    exact .ok rfl
  | .error (.error e) m' =>
    rw [hm (by rw [hx]), hx]
    exact .error rfl
  | .error .outOfFuel m' => exact .outOfFuel

theorem refl (x : Eval α) : Agrees Eq x x :=
  of_extends (.refl x)

theorem trans {x y z : Eval α} (h : Agrees Eq x y) (h' : Agrees Eq y z) : Agrees Eq x z := by
  intro m
  have hxy := h m
  have hyz := h' m
  generalize x m = r at hxy
  generalize y m = r' at hxy hyz
  cases hxy with
  | ok hab => exact hab ▸ hyz
  | error he =>
    generalize z m = r at hyz
    cases hyz with
    | error he' => exact .error (he.trans he')
  | outOfFuel => exact .outOfFuel

theorem bind {f : α → Eval γ} {g : β → Eval δ} (h : Agrees R x y)
    (hf : ∀ a b, R a b → Agrees S (f a) (g b)) : Agrees S (x >>= f) (y >>= g) := by
  intro m
  change Resembles S (EStateM.bind x f m) (EStateM.bind y g m)
  have hx := h m
  unfold EStateM.bind
  generalize x m = r at hx
  generalize y m = r' at hx
  cases hx with
  | ok hab => exact hf _ _ hab _
  | error he => exact .error he
  | outOfFuel => exact .outOfFuel

theorem bind_eq {x y : Eval α} {f g : α → Eval γ} (h : Agrees Eq x y)
    (hf : ∀ a, Agrees Eq (f a) (g a)) : Agrees Eq (x >>= f) (y >>= g) :=
  h.bind fun a _ hab => hab ▸ hf a

theorem during_left (step : Step) (h : Agrees R x y) : Agrees R (during step x) y := by
  intro m
  have hx := h m
  unfold Eval.during
  generalize x m = r at hx
  generalize y m = r' at hx
  cases hx with
  | ok hab => exact .ok hab
  | error he => exact .error he
  | outOfFuel => exact .outOfFuel

theorem during_right (step : Step) (h : Agrees R x y) : Agrees R x (during step y) := by
  intro m
  have hx := h m
  unfold Eval.during
  generalize x m = r at hx
  generalize y m = r' at hx
  cases hx with
  | ok hab => exact .ok hab
  | error he => exact .error he
  | outOfFuel => exact .outOfFuel

theorem during (step step' : Step) (h : Agrees R x y) :
    Agrees R (during step x) (during step' y) :=
  (h.during_left step).during_right step'

theorem contain {x y : Eval Expr} (safe : Bool) (h : Agrees Eq x y) :
    Agrees Eq (contain safe x) (contain safe y) := by
  intro m
  have hx := h m
  unfold Eval.contain
  generalize x m = r at hx
  generalize y m = r' at hx
  cases hx with
  | ok hab => exact .ok hab
  | error he =>
    cases safe with
    | true => exact .ok rfl
    | false => exact .error he
  | outOfFuel => exact .outOfFuel

theorem saturate {cfg : Config} {ev ev' : Evaluator} {body body' : Expr} {env : Env}
    (h : Agrees Eq (ev body env false) (ev' body' env false)) :
    Agrees Eq (saturate cfg ev body env) (saturate cfg ev' body' env) := by
  intro m
  have hx := h { m with depth := m.depth + 1, peak := max m.peak (m.depth + 1) }
  unfold ClauseLang.saturate
  by_cases hd : cfg.maxDepth ≤ m.depth
  · rw [if_pos hd, if_pos hd]
    exact .error rfl
  · rw [if_neg hd, if_neg hd]
    generalize ev body env false _ = r at hx
    generalize ev' body' env false _ = r' at hx
    cases hx with
    | ok hab => exact .ok hab
    | error he => exact .error he
    | outOfFuel => exact .outOfFuel

theorem compositional (cfg : Config) : Compositional cfg cfg (Agrees Eq) where
  host_eq := rfl
  pure _ := .pure rfl
  fail := fail
  freshMark := .refl _
  print _ := .refl _
  bind := bind_eq
  during step := .during step step
  contain := contain
  saturate := saturate

end Agrees

/-- A computation without faults has none to contain. -/
theorem contain_eq_self {x : Eval Expr} (h : x.Ensures (fun _ => True) fun _ => False)
    (safe : Bool) : contain safe x = x := by
  funext m
  have hx := h m
  unfold contain
  match hr : x m with
  | .ok a m' | .error .outOfFuel m' => rfl
  | .error (.error e) m' =>
    rw [hr] at hx
    exact hx.elim

theorem contain_true_ensures (x : Eval Expr) :
    (contain true x).Ensures (fun _ => True) fun _ => False := by
  intro m
  unfold contain
  match hr : x m with
  | .ok a m' | .error .outOfFuel m' | .error (.error e) m' => trivial

end Eval

open Eval

section

variable {cfg : Config} {ev ev' : Evaluator} {env : Env} {safe : Bool}

theorem applyAll_append (position : Nat) (callee : Expr) (xs ys : List Expr) :
    applyAll cfg ev env safe position callee (xs ++ ys) =
      applyAll cfg ev env safe position callee xs >>= fun value =>
        applyAll cfg ev env safe (position + xs.length) value ys := by
  induction xs generalizing position callee with
  | nil => rfl
  | cons x xs ih =>
    have hlength : position + (x :: xs).length = position + 1 + xs.length := by
      rw [List.length_cons]
      omega
    simp only [List.cons_append, applyAll, bind_assoc, ih, hlength]

/-- One expression does under the second evaluator what another one does under the first. -/
def Standing (ev ev' : Evaluator) (e e' : Expr) : Prop :=
  ∀ env safe, Agrees Eq (ev e env safe) (ev' e' env safe)

theorem forall₂_standing (h : ∀ e, Standing ev ev' e e) (before after : List Expr) {e e' : Expr}
    (he : Standing ev ev' e e') :
    List.Forall₂ (Standing ev ev') (before ++ e :: after) (before ++ e' :: after) :=
  List.rel_append (List.forall₂_same.2 fun e _ => h e)
    (.cons he (List.forall₂_same.2 fun e _ => h e))

theorem evalElements_agrees {items items' : List Expr}
    (h : List.Forall₂ (Standing ev ev') items items') (index : Nat) :
    Agrees Eq (evalElements ev env safe index items) (evalElements ev' env safe index items') := by
  induction h generalizing index with
  | nil => exact .refl _
  | cons hitem _ ih =>
    exact ((hitem env safe).during _ _).bind_eq fun _ => (ih (index + 1)).bind_eq fun _ => .refl _

variable (hev : ∀ e, Standing ev ev' e e)

include hev

theorem apply_agrees (callee argument : Expr) (safe : Bool) :
    Agrees Eq (apply cfg ev callee argument safe) (apply cfg ev' callee argument safe) :=
  (Agrees.compositional cfg).apply hev callee argument safe

theorem applyAll_agrees {items items' : List Expr}
    (h : List.Forall₂ (Standing ev ev') items items') (position position' : Nat) (callee : Expr) :
    Agrees Eq (applyAll cfg ev env safe position callee items)
      (applyAll cfg ev' env safe position' callee items') := by
  induction h generalizing position position' callee with
  | nil => exact .refl _
  | cons hitem _ ih =>
    refine ((hitem env safe).during _ _).bind_eq fun argument => ?_
    exact ((apply_agrees hev callee argument safe).during _ _).bind_eq fun value => ih _ _ value

end

section

variable {cfg : Config}

theorem evalLevel_application_append (cfg : Config) (ev : Evaluator) (env : Env) (safe : Bool)
    (item : Expr) (xs ys : List Expr) :
    evalLevel cfg ev (.application (item :: xs ++ ys)) env safe =
      evalLevel cfg ev (.application (item :: xs)) env safe >>= fun value =>
        applyAll cfg ev env safe (1 + xs.length) value ys := by
  simp only [List.cons_append, evalLevel, applyAll_append, bind_assoc]

theorem applyAll_safe_ensures (cfg : Config) (fuel : Nat) (env : Env) (position : Nat)
    (callee : Expr) (items : List Expr) :
    (applyAll cfg (eval cfg fuel) env true position callee items).Ensures (fun _ => True)
      fun _ => False := by
  induction items generalizing position callee with
  | nil => exact .pure trivial
  | cons item items ih =>
    refine (eval_safe_ensures cfg fuel item env).during.bind fun argument _ => ?_
    exact (contain_true_ensures _).during.bind fun value _ => ih (position + 1) value

/-- What an application has to contain is contained by its parts. -/
theorem eval_application (cfg : Config) (fuel : Nat) (item : Expr) (items : List Expr) (env : Env)
    (safe : Bool) :
    eval cfg (fuel + 1) (.application (item :: items)) env safe =
      evalLevel cfg (eval cfg fuel) (.application (item :: items)) env safe := by
  rw [eval_succ]
  cases safe with
  | false => exact contain_false _
  | true =>
    refine contain_eq_self ?_ true
    exact (eval_safe_ensures cfg fuel item env).during.bind fun callee _ =>
      applyAll_safe_ensures cfg fuel env 1 callee items

/-- With that much more fuel the second expression does what the first one does. -/
def Serves (cfg : Config) (extra : Nat) (e e' : Expr) : Prop :=
  ∀ fuel, Standing (eval cfg fuel) (eval cfg (fuel + extra)) e e'

theorem Serves.refl (cfg : Config) (extra : Nat) (e : Expr) : Serves cfg extra e e :=
  fun _ env safe => .of_extends (eval_extends cfg (Nat.le_add_right _ extra) e env safe)

theorem Serves.trans {extra extra' : Nat} {e₁ e₂ e₃ : Expr} (h : Serves cfg extra e₁ e₂)
    (h' : Serves cfg extra' e₂ e₃) : Serves cfg (extra + extra') e₁ e₃ := by
  intro fuel env safe
  rw [← Nat.add_assoc]
  exact (h fuel env safe).trans (h' _ env safe)

/-- Give the first arguments in an application of their own. -/
theorem serves_regroup (cfg : Config) {xs : List Expr} (hxs : xs ≠ []) (ys : List Expr) :
    Serves cfg 1 (.application (xs ++ ys)) (.application (.application xs :: ys)) := by
  obtain ⟨item, xs, rfl⟩ := List.exists_cons_of_ne_nil hxs
  intro fuel env safe
  cases fuel with
  | zero => exact fun m => .outOfFuel
  | succ fuel =>
    rw [List.cons_append, eval_application, eval_application, ← List.cons_append,
      evalLevel_application_append]
    refine Agrees.bind_eq ?_ fun value => ?_
    · rw [eval_application]
      exact (Agrees.refl _).during_right _
    · exact applyAll_agrees (fun e => Serves.refl cfg 1 e fuel)
        (List.forall₂_same.2 fun e _ => Serves.refl cfg 1 e fuel) _ _ value

theorem serves_ungroup (cfg : Config) {xs : List Expr} (hxs : xs ≠ []) (ys : List Expr) :
    Serves cfg 0 (.application (.application xs :: ys)) (.application (xs ++ ys)) := by
  obtain ⟨item, xs, rfl⟩ := List.exists_cons_of_ne_nil hxs
  intro fuel env safe
  cases fuel with
  | zero => exact fun m => .outOfFuel
  | succ fuel =>
    rw [List.cons_append, Nat.add_zero, eval_application, eval_application, ← List.cons_append,
      evalLevel_application_append]
    refine Agrees.bind_eq ?_ fun value => ?_
    · cases fuel with
      | zero => exact fun m => .outOfFuel
      | succ fuel =>
        rw [eval_application]
        refine Agrees.during_left _ ?_
        exact (Agrees.compositional cfg).evalLevel (fun e => Serves.refl cfg 1 e fuel) _ env safe
    · exact applyAll_agrees (fun _ _ _ => .refl _) (List.forall₂_same.2 fun _ _ _ _ => .refl _) _ _
        value

end

/-! ### Contexts -/

/-- A position in an expression where evaluation comes by. -/
inductive Context where
  | here
  | element (before : List Expr) (context : Context) (after : List Expr)
  | item (before : List Expr) (context : Context) (after : List Expr)
  | letValue (names : List String) (before : List Expr) (context : Context) (after : List Expr)
    (body : Expr)
  | letBody (names : List String) (values : List Expr) (context : Context)

def Context.fill : Context → Expr → Expr
  | .here, e => e
  | .element before context after, e => .list (before ++ context.fill e :: after)
  | .item before context after, e => .application (before ++ context.fill e :: after)
  | .letValue names before context after body, e =>
    .letIn names (before ++ context.fill e :: after) body
  | .letBody names values context, e => .letIn names values (context.fill e)

theorem Context.fill_ne (context : Context) {e : Expr} (h : ∀ clauses, e ≠ .pattern clauses [])
    (clauses : List Clause) : context.fill e ≠ .pattern clauses [] := by
  cases context with
  | here => exact h clauses
  | _ => exact Expr.noConfusion

/-- A position in a formal parameter, in the condition of one of its guards. -/
inductive GuardContext where
  | condition (inner : Expr) (context : Context) (constant : Bool)
  | guarded (guard : GuardContext) (condition : Expr) (constant : Bool)
  | head (guard : GuardContext) (tail : Expr)
  | tail (head : Expr) (guard : GuardContext)

def GuardContext.fill : GuardContext → Expr → Expr
  | .condition inner context constant, e => .guarded inner (context.fill e) constant
  | .guarded guard test constant, e => .guarded (guard.fill e) test constant
  | .head guard rest, e => .cons (guard.fill e) rest
  | .tail first guard, e => .cons first (guard.fill e)

theorem GuardContext.split?_fill (guard : GuardContext) (e e' argument : Expr) :
    split? (guard.fill e) argument = split? (guard.fill e') argument := by
  cases guard <;> rfl

section

variable {cfg : Config} {ev ev' : Evaluator}

theorem evalBindings_agrees (hev : ∀ e, Standing ev ev' e e) {e e' : Expr}
    (he : Standing ev ev' e e') (hne : ∀ clauses, e ≠ .pattern clauses [])
    (hne' : ∀ clauses, e' ≠ .pattern clauses []) (safe : Bool) (names : List String)
    (before after : List Expr) (env : Env) :
    Agrees Eq (evalBindings ev safe names (before ++ e :: after) env)
      (evalBindings ev' safe names (before ++ e' :: after) env) := by
  induction before generalizing names env with
  | nil =>
    cases names with
    | nil => exact .refl _
    | cons name names =>
      rw [List.nil_append, List.nil_append, evalBindings_of_ne ev safe name names after env hne,
        evalBindings_of_ne ev' safe name names after env hne']
      exact ((he env safe).during _ _).bind_eq fun held => (Agrees.refl _).bind_eq fun scope =>
        (Agrees.compositional {}).evalBindings hev safe names after scope
  | cons value before ih =>
    cases names with
    | nil => exact .refl _
    | cons name names =>
      rw [List.cons_append, List.cons_append]
      by_cases hpattern : ∃ clauses, value = .pattern clauses []
      · obtain ⟨clauses, rfl⟩ := hpattern
        exact (Agrees.refl _).bind_eq fun scope => ih names scope
      · rw [evalBindings_of_ne ev safe name names _ env (not_exists.1 hpattern),
          evalBindings_of_ne ev' safe name names _ env (not_exists.1 hpattern)]
        exact ((hev value env safe).during _ _).bind_eq fun held =>
          (Agrees.refl _).bind_eq fun scope => ih names scope

theorem matchInto_agrees (hev : ∀ e, Standing ev ev' e e) {e e' : Expr}
    (he : ∀ context : Context, Standing ev ev' (context.fill e) (context.fill e')) (env : Env)
    (guard : GuardContext) (argument : Expr) (bound : List (String × Expr)) :
    Agrees Eq (matchInto ev env (guard.fill e) argument bound)
      (matchInto ev' env (guard.fill e') argument bound) := by
  have hsame := (Agrees.compositional {}).matchInto hev env
  induction guard generalizing argument bound with
  | condition inner context constant =>
    rw [GuardContext.fill, GuardContext.fill, matchInto, matchInto]
    refine (hsame inner argument bound).bind_eq fun r => ?_
    cases r with
    | none => exact .refl _
    | some bound => exact (Agrees.refl _).bind_eq fun scope =>
        (he context scope true).bind_eq fun _ => .refl _
  | guarded guard condition constant ih =>
    rw [GuardContext.fill, GuardContext.fill, matchInto, matchInto]
    refine (ih argument bound).bind_eq fun r => ?_
    cases r with
    | none => exact .refl _
    | some bound => exact (Agrees.refl _).bind_eq fun scope =>
        (hev condition scope true).bind_eq fun _ => .refl _
  | head guard tail ih =>
    rw [GuardContext.fill, GuardContext.fill, matchInto, matchInto, guard.split?_fill e e']
    split
    · exact .refl _
    next front rest _ =>
      refine (ih front bound).bind_eq fun r => ?_
      cases r with
      | none => exact .refl _
      | some bound => exact hsame tail rest bound
  | tail head guard ih =>
    rw [GuardContext.fill, GuardContext.fill, matchInto, matchInto]
    split
    · exact .refl _
    next front rest _ =>
      refine (hsame head front bound).bind_eq fun r => ?_
      cases r with
      | none => exact .refl _
      | some bound => exact ih rest bound

theorem tryMatch_agrees (hev : ∀ e, Standing ev ev' e e) {e e' : Expr}
    (he : ∀ context : Context, Standing ev ev' (context.fill e) (context.fill e'))
    (guard : GuardContext)
    (argument : Expr) (env : Env) :
    Agrees Eq (tryMatch ev (guard.fill e) argument env)
      (tryMatch ev' (guard.fill e') argument env) :=
  (matchInto_agrees hev he env guard argument []).bind_eq fun _ => .refl _

/-- Two clauses in a scope that wait for the same arguments. If they wait for none, their bodies may
be different ones that come to the same. -/
structure Twin (ev ev' : Evaluator) (s s' : Clause × Env) : Prop where
  row_eq : s.1.row = s'.1.row
  scope_eq : s.2 = s'.2
  body : s.1.body = s'.1.body ∨ s.1.row = [] ∧ Standing ev ev' s.1.body s'.1.body

theorem Twin.standing {s s' : Clause × Env} (h : Twin ev ev' s s')
    (hev : ∀ e, Standing ev ev' e e) : Standing ev ev' s.1.body s'.1.body := by
  rcases h.body with hbody | ⟨-, hbody⟩
  · rw [hbody]
    exact hev _
  · exact hbody

theorem Twin.eq {s s' : Clause × Env} (h : Twin ev ev' s s') (hrow : s.1.row ≠ []) : s = s' := by
  obtain ⟨⟨row, body⟩, env⟩ := s
  obtain ⟨⟨row', body'⟩, env'⟩ := s'
  obtain ⟨rfl : row = row', rfl : env = env', hbody⟩ := h
  rcases hbody with rfl | ⟨hnil, -⟩
  · rfl
  · exact absurd hnil hrow

theorem Twin.forall₂_eq {stages stages' : List (Clause × Env)}
    (h : List.Forall₂ (Twin ev ev') stages stages') (hrows : ∀ s ∈ stages, s.1.row ≠ []) :
    stages = stages' := by
  induction h with
  | nil => rfl
  | cons hs _ ih =>
    rw [List.forall_mem_cons] at hrows
    rw [hs.eq hrows.1, ih hrows.2]

theorem Twin.commonArity_eq {stages stages' : List (Clause × Env)}
    (h : List.Forall₂ (Twin ev ev') stages stages') :
    commonArity (stages.map Prod.fst) = commonArity (stages'.map Prod.fst) := by
  apply commonArity_congr
  rw [List.map_map, List.map_map]
  induction h with
  | nil => rfl
  | cons hs _ ih => simp [hs.row_eq, ih]

theorem advance_agrees {argument formal formal' : Expr} {env : Env} {row : List Expr}
    {body body' : Expr} (h : Agrees Eq (tryMatch ev formal argument env)
      (tryMatch ev' formal' argument env))
    (hbody : body = body' ∨ row = [] ∧ Standing ev ev' body body') :
    Agrees (OptionRel (Twin ev ev')) (advance ev argument (.mk (formal :: row) body, env))
      (advance ev' argument (.mk (formal' :: row) body', env)) := by
  refine h.bind ?_
  rintro r _ rfl
  cases r with
  | none => exact .pure .none
  | some scope => exact .pure (.some ⟨rfl, rfl, hbody⟩)

theorem advance_agrees_self (hev : ∀ e, Standing ev ev' e e) (argument : Expr)
    (s : Clause × Env) :
    Agrees (OptionRel (Twin ev ev')) (advance ev argument s) (advance ev' argument s) := by
  obtain ⟨⟨row, body⟩, env⟩ := s
  cases row with
  | nil => exact .fail _
  | cons formal row =>
    exact advance_agrees ((Agrees.compositional {}).tryMatch hev formal argument env) (.inl rfl)

theorem surviving_agrees {argument : Expr} {stages stages' : List (Clause × Env)}
    (h : List.Forall₂ (fun s s' => Agrees (OptionRel (Twin ev ev')) (advance ev argument s)
      (advance ev' argument s')) stages stages') :
    Agrees (List.Forall₂ (Twin ev ev')) (surviving ev argument stages)
      (surviving ev' argument stages') := by
  induction h with
  | nil => exact .pure .nil
  | cons hs _ ih =>
    refine hs.bind fun r r' hr => ?_
    cases hr with
    | none => exact ih
    | some ht => exact ih.bind fun _ _ hts => .pure (.cons ht hts)

theorem zip_captured {P : Clause × Env → Clause × Env → Prop} (hP : ∀ s, P s s)
    {clause clause' : Clause} (h : ∀ env, P (clause, env) (clause', env)) (before after : List Clause)
    (captured : List Env) :
    List.Forall₂ P ((before ++ clause :: after).zip captured)
      ((before ++ clause' :: after).zip captured) := by
  induction before generalizing captured with
  | nil =>
    cases captured with
    | nil => exact .nil
    | cons env captured => exact .cons (h env) (List.forall₂_same.2 fun s _ => hP s)
  | cons first before ih =>
    cases captured with
    | nil => exact .nil
    | cons env captured => exact .cons (hP _) (ih captured)

/-- A closure does not change with a clause that takes its next argument alike. -/
theorem apply_agrees_of_advance (hev : ∀ e, Standing ev ev' e e) {clause clause' : Clause}
    {argument : Expr} (h : ∀ env, Agrees (OptionRel (Twin ev ev')) (advance ev argument (clause, env))
      (advance ev' argument (clause', env))) (before after : List Clause) (captured : List Env)
    (safe : Bool) :
    Agrees Eq (apply cfg ev (.pattern (before ++ clause :: after) captured) argument safe)
      (apply cfg ev' (.pattern (before ++ clause' :: after) captured) argument safe) := by
  refine Agrees.contain safe ?_
  dsimp only
  unfold applyPattern
  split
  · exact .refl _
  · simp only [survivors_eq]
    refine (surviving_agrees (zip_captured (P := fun s s' => Agrees (OptionRel (Twin ev ev'))
      (advance ev argument s) (advance ev' argument s')) (advance_agrees_self hev argument) h before after
      captured)).bind fun stages stages' hstages => ?_
    have harity := Twin.commonArity_eq hstages
    cases id hstages with
    | nil => exact .fail _
    | @cons s s' _ _ hs hss =>
      dsimp only
      rw [← harity]
      cases hcommon : commonArity ((s :: _).map Prod.fst) with
      | error rows => exact .fail _
      | ok n =>
        cases n with
        | zero =>
          rw [← hs.scope_eq]
          exact (Agrees.saturate (hs.standing hev s.2 false)).during _ _
        | succ n =>
          have hrows := commonArity_eq_ok_iff.1 hcommon
          rw [← Twin.forall₂_eq hstages fun t ht => List.ne_nil_of_length_pos ?_]
          · exact .refl _
          · rw [hrows.2 t.1 (List.mem_map_of_mem ht), ← hrows.1]
            exact Nat.succ_pos n

end

namespace Serves

variable {cfg : Config} {extra : Nat}

theorem of_level {e e' : Expr} (h : ∀ fuel env safe,
    Agrees Eq (evalLevel cfg (eval cfg fuel) e env safe)
      (evalLevel cfg (eval cfg (fuel + extra)) e' env safe)) : Serves cfg extra e e' := by
  intro fuel env safe
  cases fuel with
  | zero => exact fun m => .outOfFuel
  | succ fuel =>
    rw [Nat.add_right_comm, eval_succ, eval_succ]
    exact (h fuel env safe).contain safe

/-- What serves for an expression serves for it in every context, unless one of the two could be bound
as a pattern that names itself. -/
theorem fill {e e' : Expr} (h : Serves cfg extra e e') (hne : ∀ clauses, e ≠ .pattern clauses [])
    (hne' : ∀ clauses, e' ≠ .pattern clauses []) (context : Context) :
    Serves cfg extra (context.fill e) (context.fill e') := by
  have hself (fuel : Nat) : ∀ e, Standing (eval cfg fuel) (eval cfg (fuel + extra)) e e :=
    fun e => refl cfg extra e fuel
  induction context with
  | here => exact h
  | element before context after ih =>
    refine of_level fun fuel env safe => Agrees.bind_eq ?_ fun _ => .refl _
    exact evalElements_agrees (forall₂_standing (hself fuel) before after (ih fuel)) 0
  | item before context after ih =>
    refine of_level fun fuel env safe => ?_
    cases before with
    | nil =>
      refine ((ih fuel env safe).during _ _).bind_eq fun callee => ?_
      exact applyAll_agrees (hself fuel) (List.forall₂_same.2 fun e _ => hself fuel e) _ _ callee
    | cons first before =>
      refine ((hself fuel first env safe).during _ _).bind_eq fun callee => ?_
      exact applyAll_agrees (hself fuel) (forall₂_standing (hself fuel) before after (ih fuel)) _ _
        callee
  | letValue names before context after body ih =>
    refine of_level fun fuel env safe => Agrees.bind_eq ?_ fun scope => ?_
    · exact evalBindings_agrees (hself fuel) (ih fuel) (context.fill_ne hne) (context.fill_ne hne')
        safe names before after env
    · exact (hself fuel body scope safe).during _ _
  | letBody names values context ih =>
    refine of_level fun fuel env safe => Agrees.bind_eq ?_ fun scope => ?_
    · exact (Agrees.compositional cfg).evalBindings (hself fuel) safe names values env
    · exact (ih fuel scope safe).during _ _

end Serves

/-- With that much more fuel the second expression does what the first one does: evaluated in any
context, in a guard of any clause of a closure that is applied, and as the body of a clause that gets
its last argument. -/
structure Replaces (cfg : Config) (extra : Nat) (e e' : Expr) : Prop where
  evaluated : ∀ (context : Context) (fuel : Nat) (env : Env) (safe : Bool),
    Agrees Eq (eval cfg fuel (context.fill e) env safe)
      (eval cfg (fuel + extra) (context.fill e') env safe)
  guard : ∀ (guard : GuardContext) (row : List Expr) (body : Expr) (before after : List Clause)
    (captured : List Env) (argument : Expr) (fuel : Nat) (safe : Bool),
    Agrees Eq
      (apply cfg (eval cfg fuel)
        (.pattern (before ++ .mk (guard.fill e :: row) body :: after) captured) argument safe)
      (apply cfg (eval cfg (fuel + extra))
        (.pattern (before ++ .mk (guard.fill e' :: row) body :: after) captured) argument safe)
  body : ∀ (formal : Expr) (context : Context) (before after : List Clause) (captured : List Env)
    (argument : Expr) (fuel : Nat) (safe : Bool),
    Agrees Eq
      (apply cfg (eval cfg fuel)
        (.pattern (before ++ .mk [formal] (context.fill e) :: after) captured) argument safe)
      (apply cfg (eval cfg (fuel + extra))
        (.pattern (before ++ .mk [formal] (context.fill e') :: after) captured) argument safe)

theorem Serves.replaces {cfg : Config} {extra : Nat} {e e' : Expr} (h : Serves cfg extra e e')
    (hne : ∀ clauses, e ≠ .pattern clauses []) (hne' : ∀ clauses, e' ≠ .pattern clauses []) :
    Replaces cfg extra e e' where
  evaluated context fuel := h.fill hne hne' context fuel
  guard := by
    intro guard row body before after captured argument fuel safe
    refine apply_agrees_of_advance (fun e => Serves.refl cfg extra e fuel) (fun env => ?_) before
      after captured safe
    exact advance_agrees (tryMatch_agrees (fun e => Serves.refl cfg extra e fuel)
      (fun context => h.fill hne hne' context fuel) guard argument env) (.inl rfl)
  body := by
    intro formal context before after captured argument fuel safe
    refine apply_agrees_of_advance (fun e => Serves.refl cfg extra e fuel) (fun env => ?_) before
      after captured safe
    exact advance_agrees ((Agrees.compositional cfg).tryMatch
      (fun e => Serves.refl cfg extra e fuel) formal argument env)
      (.inr ⟨rfl, h.fill hne hne' context fuel⟩)

/-- One argument at a time: `(((f a) b) c)` for `(f a b c)`. -/
def curried (callee first : Expr) (others : List Expr) : Expr :=
  others.foldl (fun e argument => .application [e, argument]) (.application [callee, first])

theorem exists_curried (callee first : Expr) (others : List Expr) :
    ∃ items, curried callee first others = .application items := by
  induction others using List.reverseRecOn with
  | nil => exact ⟨_, rfl⟩
  | append_singleton others argument _ =>
    exact ⟨_, by rw [curried, List.foldl_append]; rfl⟩

theorem serves_curried (cfg : Config) (callee first : Expr) (others : List Expr) :
    Serves cfg others.length (.application (callee :: first :: others))
        (curried callee first others) ∧
      Serves cfg 0 (curried callee first others) (.application (callee :: first :: others)) := by
  induction others using List.reverseRecOn with
  | nil => exact ⟨.refl _ _ _, .refl _ _ _⟩
  | append_singleton others argument ih =>
    obtain ⟨items, hitems⟩ := exists_curried callee first others
    have hlast : curried callee first (others ++ [argument]) =
        .application [curried callee first others, argument] := by
      rw [curried, List.foldl_append]
      rfl
    have hne : callee :: first :: others ≠ [] := List.cons_ne_nil _ _
    rw [hitems] at ih hlast
    rw [hlast, List.length_append, List.length_singleton, Nat.add_comm]
    exact ⟨(serves_regroup cfg hne [argument]).trans
        (ih.1.fill nofun nofun (.item [] .here [argument])),
      (ih.2.fill nofun nofun (.item [] .here [argument])).trans (serves_ungroup cfg hne [argument])⟩

/-- Applications can be regrouped: the first arguments may have an application of their own, and so
may each argument. -/
theorem application_regroup (cfg : Config) {xs : List Expr} (hxs : xs ≠ []) (ys : List Expr) :
    Replaces cfg 1 (.application (xs ++ ys)) (.application (.application xs :: ys)) ∧
      Replaces cfg 0 (.application (.application xs :: ys)) (.application (xs ++ ys)) ∧
      ∀ callee first others,
        Replaces cfg others.length (.application (callee :: first :: others))
            (curried callee first others) ∧
          Replaces cfg 0 (curried callee first others)
            (.application (callee :: first :: others)) := by
  refine ⟨(serves_regroup cfg hxs ys).replaces nofun nofun,
    (serves_ungroup cfg hxs ys).replaces nofun nofun, ?_⟩
  intro callee first others
  obtain ⟨items, hitems⟩ := exists_curried callee first others
  have h := serves_curried cfg callee first others
  rw [hitems] at h ⊢
  exact ⟨h.1.replaces nofun nofun, h.2.replaces nofun nofun⟩

/-- In safe mode `(/ 1 0)` and `((/ 1) 0)` are both `.false`. -/
theorem application_regroup_quotient :
    [Expr.identifier "/", .number 1] ≠ [] ∧
      ∃ m, eval {} 3 (.application [.identifier "/", .number 1, .number 0]) (.withBuiltins 0) true
          {} = .ok .falsy m ∧
        eval {} 4 (.application [.application [.identifier "/", .number 1], .number 0])
          (.withBuiltins 0) true {} = .ok .falsy m := by
  have hne : [Expr.identifier "/", .number 1] ≠ [] := List.cons_ne_nil _ _
  have h := (application_regroup {} hne [.number 0]).1.evaluated .here 3 (.withBuiltins 0) true {}
  have hflat : eval {} 3 (.application [.identifier "/", .number 1, .number 0]) (.withBuiltins 0)
      true {} = .ok .falsy {} := rfl
  refine ⟨hne, {}, hflat, ?_⟩
  simp only [Context.fill, List.cons_append, List.nil_append, hflat, Nat.reduceAdd] at h
  generalize eval {} 4 _ _ _ _ = r at h
  cases h with
  | ok hab => rw [← hab]

end ClauseLang
