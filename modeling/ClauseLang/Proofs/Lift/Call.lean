import ClauseLang.Lift.Basic
import ClauseLang.Proofs.Machine.Quiet
import ClauseLang.Proofs.Scope.Lookup

/-!
What lifted code does on its own: it gives a lifted pattern the names that the pattern took from around
it, and binds old names again. None of this fails or goes deeper.
-/

namespace ClauseLang

open Lifting

open Eval

variable {cfg : Config} {scope : Env} {safe : Bool}

theorem call_ne_pattern (name : String) (arguments : List String) (clauses : List Clause) :
    call name arguments ≠ .pattern clauses [] := by
  unfold call
  split <;> simp

theorem closeOver_eq_ofStages (clauses : List Clause) (env : Env) :
    Expr.closeOver clauses env = .ofStages (clauses.map fun clause => (clause, env)) := by
  simp [Expr.closeOver, Expr.ofStages, Function.comp_def, List.map_const']

/-- A clause whose row begins with so many names and goes on for so long. -/
def TakesNames (n arity : Nat) (s : Clause × Env) : Prop :=
  ∃ (params : List String) (row : List Expr), s.1.row = params.map .identifier ++ row ∧
    params.length = n ∧ row.length = arity ∧ discard ∉ params

def IsNext (v : Expr) (s s' : Clause × Env) : Prop :=
  ∃ (param : String) (row : List Expr) (mark : Nat),
    s.1.row = .identifier param :: row ∧ s' = (.mk row s.1.body, s.2.extend mark [(param, v)])

/-- The clause after its first names have got values. -/
def IsFed (values : List Expr) (s s' : Clause × Env) : Prop :=
  ∀ (params : List String) (row : List Expr), s.1.row = params.map .identifier ++ row →
    params.length = values.length → s'.1 = .mk row s.1.body ∧
      ∀ x ≠ discard, s'.2.get? x = (heldFor x (params.zip values)).or (s.2.get? x)

section

variable {v : Expr} {values : List Expr} {s s₁ s' : Clause × Env}
  {stages stages₁ stages' : List (Clause × Env)} {n arity : Nat}

theorem isFed_nil (s : Clause × Env) : IsFed [] s s := by
  intro params row hrow hlength
  obtain rfl := List.length_eq_zero_iff.1 hlength
  obtain ⟨⟨_, body⟩, env⟩ := s
  obtain rfl := hrow
  exact ⟨rfl, fun x _ => rfl⟩

theorem IsNext.isFed (h : IsNext v s s₁) (h' : IsFed values s₁ s') : IsFed (v :: values) s s' := by
  obtain ⟨param, rest, mark, hrow, rfl⟩ := h
  intro params row hparams hlength
  cases params with
  | nil => cases hlength
  | cons p params =>
    rw [hrow, List.map_cons, List.cons_append, List.cons.injEq, Expr.identifier.injEq] at hparams
    obtain ⟨rfl, hrest⟩ := hparams
    obtain ⟨hclause, hget⟩ := h' params row hrest (Nat.succ.inj hlength)
    refine ⟨hclause, fun x hx => ?_⟩
    rw [hget x hx, Env.get?_extend_singleton _ _ hx, List.zip_cons_cons, heldFor_cons]
    cases heldFor x (params.zip values) with
    | some w => rfl
    | none =>
      rw [Option.none_or, Option.none_or]
      split <;> rfl

theorem IsNext.takesNames (h : IsNext v s s') (hs : TakesNames (n + 1) arity s) :
    TakesNames n arity s' := by
  obtain ⟨param, rest, mark, hrow, rfl⟩ := h
  obtain ⟨params, row, hparams, hlength, harity, hdiscard⟩ := hs
  cases params with
  | nil => cases hlength
  | cons p params =>
    rw [hrow, List.map_cons, List.cons_append, List.cons.injEq] at hparams
    exact ⟨params, row, hparams.2, Nat.succ.inj hlength, harity,
      fun h => hdiscard (List.mem_cons_of_mem _ h)⟩

theorem TakesNames.length_row (h : TakesNames n arity s) : s.1.row.length = n + arity := by
  obtain ⟨params, row, hrow, rfl, rfl, -⟩ := h
  rw [hrow, List.length_append, List.length_map]

theorem forall₂_isFed_nil (stages : List (Clause × Env)) :
    List.Forall₂ (IsFed []) stages stages :=
  List.forall₂_same.2 fun s _ => isFed_nil s

theorem forall₂_isFed (h : List.Forall₂ (IsNext v) stages stages₁)
    (h' : List.Forall₂ (IsFed values) stages₁ stages') :
    List.Forall₂ (IsFed (v :: values)) stages stages' := by
  induction h generalizing stages' with
  | nil =>
    cases h'
    exact .nil
  | cons hnext _ ih =>
    cases h' with
    | cons hfed hrest => exact .cons (hnext.isFed hfed) (ih hrest)

theorem forall_takesNames (h : List.Forall₂ (IsNext v) stages stages')
    (hstages : ∀ s ∈ stages, TakesNames (n + 1) arity s) :
    ∀ s ∈ stages', TakesNames n arity s := by
  induction h with
  | nil => exact fun _ h => absurd h List.not_mem_nil
  | cons hnext _ ih =>
    simp only [List.mem_cons, forall_eq_or_imp] at hstages ⊢
    exact ⟨hnext.takesNames hstages.1, ih hstages.2⟩

theorem quiet_surviving (ev : Nat → Evaluator) (v : Expr)
    (h : ∀ s ∈ stages, TakesNames (n + 1) arity s) :
    Quiet (fun k => surviving (ev k) v stages) (List.Forall₂ (IsNext v) stages) := by
  induction stages with
  | nil => exact .pure .nil
  | cons s stages ih =>
    simp only [List.mem_cons, forall_eq_or_imp] at h
    obtain ⟨⟨params, rest, hrow, hlength, -, hdiscard⟩, hs⟩ := h
    obtain ⟨⟨row, body⟩, env⟩ := s
    cases params with
    | nil => cases hlength
    | cons param params =>
      have hrow : row = .identifier param :: (params.map .identifier ++ rest) := hrow
      subst hrow
      simp only [List.mem_cons, not_or] at hdiscard
      have hmatch (k : Nat) : tryMatch (ev k) (.identifier param) v env =
          (do return some (← Eval.extend env [(param, v)])) := by
        simp only [tryMatch, matchInto, if_neg (Ne.symm hdiscard.1)]
        rfl
      have hadvance : Quiet (fun k => advance (ev k) v
          (.mk (.identifier param :: (params.map .identifier ++ rest)) body, env))
          fun r => ∃ s', r = some s' ∧
            IsNext v (.mk (.identifier param :: (params.map .identifier ++ rest)) body, env) s' := by
        simp only [advance, hmatch, bind_assoc, pure_bind]
        refine (Quiet.extend env [(param, v)]).bind ?_
        rintro _ ⟨mark, rfl⟩
        exact .pure ⟨_, rfl, param, _, mark, rfl, rfl⟩
      simp only [surviving]
      refine hadvance.bind ?_
      rintro _ ⟨s', rfl, hnext⟩
      exact (ih hs).bind fun rest hrest => .pure (.cons hnext hrest)

theorem quiet_apply (ev : Nat → Evaluator) (v : Expr) (hne : stages ≠ [])
    (h : ∀ s ∈ stages, TakesNames (n + 1) (arity + 1) s) :
    Quiet (fun k => apply cfg (ev k) (.ofStages stages) v safe) fun u =>
      ∃ stages', u = .ofStages stages' ∧ List.Forall₂ (IsNext v) stages stages' := by
  intro m
  obtain ⟨stages', m', hdepth, hnext, hsettles⟩ := quiet_surviving ev v h m
  have hne' : stages' ≠ [] := ne_nil_of_forall₂ hnext hne
  refine ⟨.ofStages stages', m', hdepth, ⟨stages', rfl, hnext⟩, hsettles.congr fun k hk => ?_⟩
  exact apply_of_surviving cfg hne hk hne'
    (fun s hs => (forall_takesNames hnext h s hs).length_row) safe

def Holds (scope : Env) (arguments : List String) (values : List Expr) : Prop :=
  List.Forall₂ (fun x v => scope.get? x = some v) arguments values

theorem quiet_applyAll (position : Nat) {arguments : List String} (hne : stages ≠ [])
    (hvalues : Holds scope arguments values)
    (h : ∀ s ∈ stages, TakesNames arguments.length (arity + 1) s) :
    Quiet (fun k => applyAll cfg (eval cfg k) scope safe position (.ofStages stages)
      (arguments.map .identifier)) fun u =>
        ∃ stages', u = .ofStages stages' ∧ List.Forall₂ (IsFed values) stages stages' := by
  unfold Holds at hvalues
  induction hvalues generalizing position stages with
  | nil => exact .pure ⟨stages, rfl, forall₂_isFed_nil stages⟩
  | @cons x v arguments values hx _ ih =>
    simp only [List.map_cons, applyAll]
    refine (quiet_eval_identifier hx).during.bind ?_
    rintro v rfl
    refine (quiet_apply _ v hne h).during.bind ?_
    rintro _ ⟨stages₁, rfl, hnext⟩
    have hne₁ : stages₁ ≠ [] := ne_nil_of_forall₂ hnext hne
    refine (ih (position + 1) hne₁ (forall_takesNames hnext h)).mono ?_
    rintro _ ⟨stages', rfl, hfed⟩
    exact ⟨stages', rfl, forall₂_isFed hnext hfed⟩

theorem quiet_call {name : String} {arguments : List String} (hne : stages ≠ [])
    (hname : scope.get? name = some (.ofStages stages)) (hvalues : Holds scope arguments values)
    (h : ∀ s ∈ stages, TakesNames arguments.length (arity + 1) s) :
    Quiet (fun k => eval cfg k (call name arguments) scope safe) fun u =>
      ∃ stages', u = .ofStages stages' ∧ List.Forall₂ (IsFed values) stages stages' := by
  unfold call
  cases harguments : arguments with
  | nil =>
    rw [harguments] at hvalues
    cases hvalues
    refine (quiet_eval_identifier hname).mono ?_
    rintro _ rfl
    exact ⟨stages, rfl, forall₂_isFed_nil stages⟩
  | cons first rest =>
    rw [← harguments, if_neg (by simp [harguments])]
    refine .of_succ ?_
    simp only [eval_succ, List.map_cons, evalLevel]
    refine Quiet.contain ((quiet_eval_identifier hname).during.bind ?_)
    rintro _ rfl
    exact quiet_applyAll 1 hne hvalues h

end

section

variable {P : String → Expr → Prop} {fixed : List String} {bindings : List (String × Expr)}

/-- Names are bound again without changing those that their values need. -/
theorem quiet_evalBindings {scope₀ : Env}
    (hvalues : ∀ b ∈ bindings, (∀ clauses, b.2 ≠ .pattern clauses []) ∧
      ∀ scope, (∀ x ∈ fixed, scope.get? x = scope₀.get? x) →
        Quiet (fun k => eval cfg k b.2 scope safe) (P b.1))
    (hfixed : ∀ b ∈ bindings, b.1 ∉ fixed) (hscope : ∀ x ∈ fixed, scope.get? x = scope₀.get? x) :
    Quiet (fun k => evalBindings (eval cfg k) safe (bindings.map Prod.fst) (bindings.map Prod.snd)
      scope) fun scope' =>
        (∀ x ∉ bindings.map Prod.fst, scope'.get? x = scope.get? x) ∧
          ∀ x ∈ bindings.map Prod.fst, x ≠ discard → ∃ v, scope'.get? x = some v ∧ P x v := by
  induction bindings generalizing scope with
  | nil => exact .pure ⟨fun _ _ => rfl, fun _ h => absurd h List.not_mem_nil⟩
  | cons b bindings ih =>
    obtain ⟨name, value⟩ := b
    simp only [List.mem_cons, forall_eq_or_imp] at hvalues hfixed
    obtain ⟨⟨hpattern, hvalue⟩, hrest⟩ := hvalues
    simp only [List.map_cons, evalBindings_of_ne _ _ _ _ _ _ hpattern]
    refine (hvalue scope hscope).during.bind fun v hv => ?_
    refine (Quiet.extend scope [(name, v)]).bind ?_
    rintro _ ⟨mark, rfl⟩
    refine (ih hrest hfixed.2 fun x hx => ?_).mono fun scope' ⟨hsame, hbound⟩ => ⟨?_, ?_⟩
    · have hname : x ≠ name := fun h => hfixed.1 (h ▸ hx)
      rw [Env.get?_extend_of_ne _ _ _ hname, hscope x hx]
    · intro x hx
      rw [List.mem_cons, not_or] at hx
      rw [hsame x hx.2, Env.get?_extend_of_ne _ _ _ hx.1]
    · intro x hx hdiscard
      by_cases hlater : x ∈ bindings.map Prod.fst
      · exact hbound x hlater hdiscard
      · obtain rfl : x = name := (List.mem_cons.1 hx).resolve_right hlater
        refine ⟨v, ?_, hv⟩
        rw [hsame x hlater, Env.get?_extend_singleton _ _ hdiscard, if_pos rfl]

/-- What is evaluated behind names that are bound quietly. -/
theorem follows_wrap {α : Type} {R : Unit → α → Expr → Prop} {Q : Env → Prop} {x : Eval α} {e : Expr}
    (hbindings : Quiet (fun k => evalBindings (eval cfg k) safe (bindings.map Prod.fst)
      (bindings.map Prod.snd) scope) Q)
    (h : ∀ inner, Q inner → Follows sameDepth () R x fun k => eval cfg k e inner safe) :
    Follows sameDepth () R x fun k => eval cfg k (wrap bindings e) scope safe := by
  cases bindings with
  | nil => exact h scope (Quiet.of_pure hbindings)
  | cons b bindings =>
    refine .of_succ ?_
    simp only [wrap, List.isEmpty_cons, Bool.false_eq_true, if_false, eval_succ, evalLevel]
    refine Follows.contain_after_quiet hbindings fun inner hinner => ?_
    refine (h inner hinner).during_right.contain_right fun hsafe k => ?_
    subst hsafe
    exact (eval_safe_ensures cfg k e inner).during

end

end ClauseLang
