import ClauseLang.Proofs.Expr.Separate
import ClauseLang.Proofs.Machine.Data
import ClauseLang.Proofs.Machine.Operands
import ClauseLang.Proofs.Scope.Lookup
import Mathlib.Data.Set.BooleanAlgebra
import Mathlib.Order.CompletePartialOrder

/-!
The scopes that a machine has made. Each has a mark of its own, and what names stand for in it are
values over scopes that the machine has made. Evaluation in such a scope only makes more of them and
leads to such a value.
-/

namespace ClauseLang

open Eval

def Env.parent? : Env → Option Env
  | .root _ _ => none
  | .child _ _ parent => some parent

def GenuineBinding (scopes : Set Env) : Binding → Prop
  | .value _ held => Genuine scopes held
  | .recursive _ clauses => ∀ clause ∈ clauses, clause.IsBare

/-- The scopes are made by one machine, which gives out the mark `nextMark` next. -/
structure Made (scopes : Set Env) (nextMark : Nat) : Prop where
  below : ∀ env ∈ scopes, env.mark < nextMark
  unique : ∀ env ∈ scopes, ∀ env' ∈ scopes, env.mark = env'.mark → env = env'
  bindings : ∀ env ∈ scopes, ∀ binding ∈ env.bindings, GenuineBinding scopes binding
  parent : ∀ env ∈ scopes, ∀ outer ∈ env.parent?, outer ∈ scopes

section

variable {scopes scopes' : Set Env} {n n' : Nat} {env : Env} {name : String} {v : Expr}

theorem GenuineBinding.mono (hle : scopes ≤ scopes') {binding : Binding}
    (h : GenuineBinding scopes binding) : GenuineBinding scopes' binding := by
  cases binding with
  | value name held => exact Genuine.mono hle h
  | recursive name clauses => exact h

theorem genuine_closeOver {clauses : List Clause} (hclauses : ∀ clause ∈ clauses, clause.IsBare)
    (henv : env ∈ scopes) : Genuine scopes (.closeOver clauses env) := by
  refine .closure hclauses fun e he => ?_
  rw [List.eq_of_mem_replicate he]
  exact henv

theorem genuine_ofBool (b : Bool) : Genuine scopes (.ofBool b) := by
  have htrue : (Expr.label "true").IsBare := ⟨⟨by decide, by decide⟩, rfl⟩
  have hfalse : (Expr.label "false").IsBare := ⟨⟨by decide, by decide⟩, rfl⟩
  cases b with
  | true => exact .label htrue
  | false => exact .label hfalse

theorem ofData_genuine (scopes : Set Env) : OfData (Genuine scopes) where
  number := .number
  text := .text
  ofBool := genuine_ofBool
  list_iff := by
    refine ⟨fun h => ?_, .list⟩
    cases h with
    | list h => exact h

namespace Made

theorem empty (n : Nat) : Made ∅ n :=
  ⟨nofun, nofun, nofun, nofun⟩

theorem mono (h : Made scopes n) (hle : n ≤ n') : Made scopes n' :=
  { h with below := fun env henv => (h.below env henv).trans_le hle }

theorem insert (h : Made scopes n) (hmark : env.mark = n)
    (hbindings : ∀ binding ∈ env.bindings, GenuineBinding scopes binding)
    (hparent : ∀ outer ∈ env.parent?, outer ∈ scopes) : Made (Insert.insert env scopes) (n + 1) where
  below := by
    rintro env' (rfl | henv')
    · omega
    · exact Nat.lt_succ_of_lt (h.below env' henv')
  unique := by
    rintro a (rfl | ha) b (rfl | hb) hmarks
    · rfl
    · have := h.below b hb
      omega
    · have := h.below a ha
      omega
    · exact h.unique a ha b hb hmarks
  bindings := by
    rintro env' (rfl | henv') binding hbinding
    · exact (hbindings binding hbinding).mono (Set.subset_insert _ _)
    · exact (h.bindings env' henv' binding hbinding).mono (Set.subset_insert _ _)
  parent := by
    rintro env' (rfl | henv') outer houter
    · exact .inr (hparent outer houter)
    · exact .inr (h.parent env' henv' outer houter)

theorem genuine_resolve (h : Made scopes n) (henv : env ∈ scopes) {binding : Binding}
    (hbinding : binding ∈ env.bindings) : Genuine scopes (binding.resolve env) := by
  have hgenuine := h.bindings env henv binding hbinding
  cases binding with
  | value name held => exact hgenuine
  | recursive name clauses => exact genuine_closeOver hgenuine henv

theorem genuine_of_find? (h : Made scopes n) (henv : env ∈ scopes) (hv : env.find? name = some v) :
    Genuine scopes v := by
  induction env using Env.find?.induct name with
  | case1 mark bindings =>
    obtain ⟨binding, hb, rfl⟩ := Option.map_eq_some_iff.1 hv
    exact h.genuine_resolve henv (List.mem_of_find?_eq_some hb)
  | case2 mark bindings parent binding hb =>
    rw [Env.find?, hb] at hv
    cases hv
    exact h.genuine_resolve henv (List.mem_of_find?_eq_some hb)
  | case3 mark bindings parent hb ih =>
    rw [Env.find?, hb] at hv
    exact ih (h.parent _ henv parent rfl) hv

theorem genuine_of_get? (h : Made scopes n) (henv : env ∈ scopes) (hv : env.get? name = some v) :
    Genuine scopes v := by
  rw [Env.get?] at hv
  split at hv
  · cases hv
  · exact h.genuine_of_find? henv hv

/-! ### Computations -/

def link : Link (Set Env) where
  Holds scopes m m' :=
    Made scopes m.nextMark ∧ m'.nextMark = m.nextMark ∧ m.depth = m'.depth
  depth_eq h := h.2.2
  setDepth _ _ _ h := ⟨h.1, h.2.1, rfl⟩
  setPrinted _ _ h := h

/-- The same on both sides. -/
def Shared {α : Type} (P : Set Env → α → Prop) (scopes : Set Env) (a a' : α) : Prop :=
  P scopes a ∧ a' = a

/-- From these scopes on, the computation only makes scopes of its machine. -/
abbrev Keeps {α : Type} (P : Set Env → α → Prop) (scopes : Set Env) (x : Eval α) : Prop :=
  Follows link scopes (Shared P) x fun _ => x

end Made

/-- Code that is evaluated in a scope of the machine leads to a value over scopes of the machine. -/
def Evaluator.Keeps (ev : Evaluator) : Prop :=
  ∀ {scopes e env}, e.IsBare → env ∈ scopes →
    Tracks Made.link (Made.Shared Genuine) ev (fun _ => ev) scopes e env e env

namespace Made

theorem shared_grows : Grows (Shared Genuine) :=
  fun _ _ _ _ hle h => ⟨h.1.mono hle, h.2⟩

theorem forall₂_shared_iff {α : Type} {P : Set Env → α → Prop} {as as' : List α} :
    List.Forall₂ (Shared P scopes) as as' ↔ (∀ a ∈ as, P scopes a) ∧ as' = as := by
  induction as generalizing as' with
  | nil => simp
  | cons a as ih =>
    rw [List.forall₂_cons_left_iff, List.forall_mem_cons]
    constructor
    · rintro ⟨a', as', ⟨ha, rfl⟩, has, rfl⟩
      obtain ⟨has, rfl⟩ := ih.1 has
      exact ⟨⟨ha, has⟩, rfl⟩
    · rintro ⟨⟨ha, has⟩, rfl⟩
      exact ⟨_, _, ⟨ha, rfl⟩, ih.2 ⟨has, rfl⟩, rfl⟩

theorem keeps_fresh {f : Nat → Env}
    (h : ∀ k, f k ∈ scopes ∨ ((f k).mark = k ∧
      (∀ binding ∈ (f k).bindings, GenuineBinding scopes binding) ∧
        ∀ outer ∈ (f k).parent?, outer ∈ scopes)) :
    Keeps (fun scopes env => env ∈ scopes) scopes (f <$> freshMark) := by
  rintro m m' ⟨hmade, hmark, hdepth⟩
  have hholds {scopes : Set Env} (h : Made scopes (m.nextMark + 1)) :
      link.Holds scopes { m with nextMark := m.nextMark + 1 }
        { m' with nextMark := m'.nextMark + 1 } := ⟨h, congrArg (· + 1) hmark, hdepth⟩
  have hsame : f m'.nextMark = f m.nextMark := by rw [hmark]
  rcases h m.nextMark with henv | ⟨hnext, hbindings, hparent⟩
  · exact .ok le_rfl (hholds (hmade.mono (Nat.le_succ _))) ⟨henv, hsame⟩ (.const _)
  · exact .ok (Set.subset_insert _ _) (hholds (hmade.insert hnext hbindings hparent))
      ⟨Set.mem_insert _ _, hsame⟩ (.const _)

def Values (scopes : Set Env) (named : List (String × Expr)) : Prop :=
  ∀ p ∈ named, Genuine scopes p.2

theorem keeps_extend {named : List (String × Expr)} (henv : env ∈ scopes)
    (hnamed : Values scopes named) :
    Keeps (fun scopes env => env ∈ scopes) scopes (Eval.extend env named) := by
  refine keeps_fresh (f := fun mark => env.extend mark named) fun k => ?_
  have hframe : ∀ binding ∈ frameOf named, GenuineBinding scopes binding :=
    forall_mem_frameOf hnamed
  dsimp only [Env.extend]
  split
  · exact .inl henv
  · refine .inr ⟨rfl, hframe, ?_⟩
    rintro _ ⟨⟩
    exact henv

theorem keeps_extendRecursive (henv : env ∈ scopes) (name : String) {clauses : List Clause}
    (hclauses : ∀ clause ∈ clauses, clause.IsBare) :
    Keeps (fun scopes env => env ∈ scopes) scopes (Eval.extendRecursive env name clauses) := by
  refine keeps_fresh (f := fun mark => env.extendRecursive mark name clauses) fun k => ?_
  dsimp only [Env.extendRecursive]
  split
  · exact .inl henv
  · refine .inr ⟨rfl, fun binding hbinding => ?_, ?_⟩
    · rw [List.mem_singleton.1 hbinding]
      exact hclauses
    · rintro _ ⟨⟩
      exact henv

theorem keeps_freshRoot : Keeps (fun scopes env => env ∈ scopes) scopes Eval.freshRoot := by
  refine keeps_fresh (f := Env.withBuiltins) fun k => .inr ⟨rfl, fun binding hbinding => ?_, nofun⟩
  obtain ⟨op, hop, rfl⟩ := List.mem_map.1 hbinding
  rcases Builtin.binary_or_unary hop with ⟨op, rfl⟩ | ⟨op, rfl⟩
  · exact .binary op
  · exact .unary op

/-! ### Evaluation -/

variable {cfg : Config} {ev : Evaluator}

theorem keeps_matchInto (hev : ev.Keeps) {scopes : Set Env} {formal argument : Expr}
    {bound : List (String × Expr)} (hformal : formal.IsBare) (hargument : Genuine scopes argument)
    (henv : env ∈ scopes) (hbound : Values scopes bound) :
    Follows link scopes (fun scopes => OptionRel (Shared Values scopes))
      (matchInto ev env formal argument bound) fun _ => matchInto ev env formal argument bound := by
  have hkept (b : Bool) : Follows link scopes (fun scopes => OptionRel (Shared Values scopes))
      (Pure.pure (if b then some bound else none)) fun _ =>
        Pure.pure (if b then some bound else none) := by
    cases b with
    | true => exact .pure (.some ⟨hbound, rfl⟩)
    | false => exact .pure .none
  match formal with
  | .identifier name =>
    refine .pure (.some ⟨?_, rfl⟩)
    split
    · exact hbound
    · intro p hp
      rcases List.mem_append.1 hp with hp | hp
      · exact hbound p hp
      · rw [List.mem_singleton.1 hp]
        exact hargument
  | .guarded inner condition constant =>
    obtain ⟨hinner, hcondition⟩ := isBare_guarded.1 hformal
    rw [matchInto]
    refine (keeps_matchInto hev hinner hargument henv hbound).bind fun scopes₁ r r' hle₁ hr => ?_
    cases hr with
    | none => exact .pure .none
    | some hbound =>
      obtain ⟨hbound, rfl⟩ := hbound
      refine (keeps_extend (hle₁ henv) hbound).bind fun scopes₂ scope scope' hle₂ hscope => ?_
      obtain ⟨hscope, rfl⟩ := hscope
      refine (hev hcondition hscope scopes₂ true le_rfl).bind fun scopes₃ v v' hle₃ hv => .pure ?_
      rw [hv.2]
      split
      · exact .some ⟨fun p hp => (hbound p hp).mono (hle₂.trans hle₃), rfl⟩
      · exact .none
  | .cons head tail =>
    obtain ⟨hhead, htail⟩ := isBare_cons.1 hformal
    rw [matchInto]
    cases hs : split? head argument with
    | none => exact .pure .none
    | some parts =>
      obtain ⟨front, rest⟩ := parts
      obtain ⟨hfront, hrest⟩ := (ofData_genuine scopes).of_split? hargument hs
      refine (keeps_matchInto hev hhead hfront henv hbound).bind fun scopes₁ r r' hle₁ hr => ?_
      cases hr with
      | none => exact .pure .none
      | some hbound =>
        obtain ⟨hbound, rfl⟩ := hbound
        exact keeps_matchInto hev htail (hrest.mono hle₁) (hle₁ henv) hbound
  | .number _ | .text _ | .label _ | .list _ =>
    rw [matchInto]
    exact hkept _
  | .application _ | .letIn _ _ _ | .pattern _ _ | .builtin _ => exact .fail (.refl _)
termination_by sizeOf formal

theorem keeps_tryMatch (hev : ev.Keeps) {formal argument : Expr} (hformal : formal.IsBare)
    (hargument : Genuine scopes argument) (henv : env ∈ scopes) :
    Follows link scopes (fun scopes => OptionRel (Shared (fun scopes env => env ∈ scopes) scopes))
      (tryMatch ev formal argument env) fun _ => tryMatch ev formal argument env := by
  have hnone : Values scopes [] := fun _ hp => absurd hp List.not_mem_nil
  refine (keeps_matchInto hev hformal hargument henv hnone).bind fun scopes₁ r r' hle₁ hr => ?_
  cases hr with
  | none => exact .pure .none
  | some hbound =>
    obtain ⟨hbound, rfl⟩ := hbound
    exact (keeps_extend (hle₁ henv) hbound).bind fun _ _ _ _ hscope => .pure (.some hscope)

def IsStage (scopes : Set Env) (stage : Clause × Env) : Prop :=
  stage.1.IsBare ∧ stage.2 ∈ scopes

theorem stageRel (hev : ev.Keeps) :
    StageRel link (Shared Genuine) ev (fun _ => ev) (Shared IsStage) where
  grows _ _ _ _ hle h := ⟨⟨h.1.1, hle h.1.2⟩, h.2⟩
  length_row := by
    rintro scopes s _ ⟨-, rfl⟩
    rfl
  advance := by
    rintro scopes ⟨⟨row, body⟩, env⟩ _ a a' ⟨⟨hclause, henv⟩, rfl⟩ ⟨ha, rfl⟩
    cases row with
    | nil => exact .fail (.refl _)
    | cons formal row =>
      obtain ⟨hrow, hbody⟩ := hclause
      obtain ⟨hformal, hrow⟩ := List.forall_mem_cons.1 hrow
      refine (keeps_tryMatch hev hformal ha henv).bind fun scopes₁ r r' hle₁ hr => ?_
      cases hr with
      | none => exact .pure .none
      | some hscope =>
        obtain ⟨hscope, rfl⟩ := hscope
        exact .pure (.some ⟨⟨⟨hrow, hbody⟩, hscope⟩, rfl⟩)
  body := by
    rintro scopes s _ ⟨⟨hclause, henv⟩, rfl⟩ -
    exact hev hclause.2 henv scopes false le_rfl

theorem keeps_ofExcept {r : Except Fault Expr} (h : Computed (Genuine scopes) r) :
    Keeps Genuine scopes (Eval.ofExcept r) := by
  cases h with
  | ok h => exact .pure ⟨h, rfl⟩
  | error _ => exact .fail (.refl _)

theorem keeps_call {op : Builtin} {argument : Expr} (hop : Genuine scopes (.builtin op))
    (hargument : Genuine scopes argument) (safe : Bool) :
    Keeps Genuine scopes (op.call cfg argument safe) := by
  have hdata := ofData_genuine scopes
  cases hop with
  | unary op =>
    cases op with
    | abs => exact keeps_ofExcept (computed_absolute hdata argument)
    | len => exact keeps_ofExcept (computed_size hdata argument)
    | print =>
      exact (Follows.print (R := fun _ _ _ => True) trivial).bind fun _ _ _ hle _ =>
        .pure ⟨hargument.mono hle, rfl⟩
  | binary op => exact .pure ⟨.waiting op hargument, rfl⟩
  | waiting op hleft => exact keeps_ofExcept (op.computed_compute hdata hleft hargument)

theorem keeps_apply (hev : ev.Keeps) : AppliesAlike link (Shared Genuine) cfg ev fun _ => ev := by
  rintro scopes f f' a a' safe ⟨hf, rfl⟩ ⟨ha, rfl⟩
  refine .contain ?_ fun scopes => ⟨genuine_ofBool false, rfl⟩
  match f', hf with
  | .pattern clauses captured, hf =>
    cases hf with
    | closure hclauses hcaptured =>
      refine applyPattern_follows shared_grows (stageRel hev) ?_ rfl ?_ ⟨ha, rfl⟩
      · intro scopes stages stages' hstages _
        obtain ⟨hstages, rfl⟩ := forall₂_shared_iff.1 hstages
        refine ⟨.closure (fun clause hclause => ?_) fun env henv => ?_, rfl⟩
        · obtain ⟨s, hs, rfl⟩ := List.mem_map.1 hclause
          exact (hstages s hs).1
        · obtain ⟨s, hs, rfl⟩ := List.mem_map.1 henv
          exact (hstages s hs).2
      · refine forall₂_shared_iff.2 ⟨fun s hs => ?_, rfl⟩
        obtain ⟨hclause, henv⟩ := List.of_mem_zip hs
        exact ⟨hclauses _ hclause, hcaptured _ henv⟩
  | .builtin op, hf => exact (keeps_call hf ha safe).during
  | .label _, _ | .text _, _ | .number _, _ | .list _, _ => exact .fail (.refl _)

theorem keeps_evalBindings (hev : ev.Keeps) (safe : Bool) (names : List String) {values : List Expr}
    (hvalues : ∀ v ∈ values, v.IsBare) (henv : env ∈ scopes) :
    Keeps (fun scopes env => env ∈ scopes) scopes (evalBindings ev safe names values env) := by
  induction names generalizing scopes values env with
  | nil => exact .pure ⟨henv, rfl⟩
  | cons name names ih =>
    cases values with
    | nil => exact .pure ⟨henv, rfl⟩
    | cons value values =>
      rw [List.forall_mem_cons] at hvalues
      obtain ⟨hvalue, hvalues⟩ := hvalues
      by_cases hpattern : ∃ clauses, value = .pattern clauses []
      · obtain ⟨clauses, rfl⟩ := hpattern
        rw [evalBindings_pattern]
        refine (keeps_extendRecursive henv name (isBare_pattern.1 hvalue).1).bind
          fun scopes₁ scope scope' _ hscope => ?_
        obtain ⟨hscope, rfl⟩ := hscope
        exact ih hvalues hscope
      · rw [evalBindings_of_ne _ _ _ _ _ _ (not_exists.1 hpattern)]
        refine (hev hvalue henv scopes safe le_rfl).during.bind fun scopes₁ v v' hle₁ hv => ?_
        obtain ⟨hv, rfl⟩ := hv
        have hone : Values scopes₁ [(name, v')] := by simpa [Values] using hv
        refine (keeps_extend (hle₁ henv) hone).bind fun scopes₂ scope scope' _ hscope => ?_
        obtain ⟨hscope, rfl⟩ := hscope
        exact ih hvalues hscope

theorem keeps_evalLevel (hev : ev.Keeps) {e : Expr} (he : e.IsBare) (henv : env ∈ scopes)
    (safe : Bool) : Keeps Genuine scopes (evalLevel cfg ev e env safe) := by
  have hitems {items : List Expr} (h : ∀ item ∈ items, item.IsBare) :
      List.Forall₂ (fun e e' => Tracks link (Shared Genuine) ev (fun _ => ev) scopes e env e' env)
        items items :=
    List.forall₂_same.2 fun item hitem => hev (h item hitem) henv
  cases e with
  | identifier name =>
    intro m m' hm
    rw [evalLevel]
    cases hv : env.get? name with
    | none => exact Follows.fail (.refl _) m m' hm
    | some v => exact Follows.pure ⟨hm.1.genuine_of_get? henv hv, rfl⟩ m m' hm
  | number value => exact .pure ⟨.number value, rfl⟩
  | text value => exact .pure ⟨.text value, rfl⟩
  | label name => exact .pure ⟨.label he, rfl⟩
  | builtin => exact absurd he not_isBare_builtin
  | list items =>
    refine (evalElements_follows shared_grows safe 0 (hitems (isBare_list.1 he))).bind
      fun scopes₁ vs vs' _ hvs => ?_
    obtain ⟨hvs, rfl⟩ := forall₂_shared_iff.1 hvs
    exact .pure ⟨.list hvs, rfl⟩
  | application items =>
    have hbare := isBare_application.1 he
    cases items with
    | nil => exact .fail (.refl _)
    | cons item items =>
      rw [List.forall_mem_cons] at hbare
      exact (hev hbare.1 henv scopes safe le_rfl).during.bind fun scopes₁ f f' hle₁ hf =>
        applyAll_follows shared_grows (keeps_apply hev) safe 1 (hitems hbare.2) hle₁ hf
  | letIn names values body =>
    obtain ⟨-, hvalues, hbody⟩ := isBare_letIn.1 he
    refine (keeps_evalBindings hev safe names hvalues henv).bind
      fun scopes₁ scope scope' _ hscope => ?_
    obtain ⟨hscope, rfl⟩ := hscope
    exact (hev hbody hscope scopes₁ safe le_rfl).during
  | pattern clauses captured =>
    obtain ⟨hclauses, rfl⟩ := isBare_pattern.1 he
    exact .pure ⟨genuine_closeOver hclauses henv, rfl⟩
  | cons | guarded => exact .fail (.refl _)

theorem keeps_eval (cfg : Config) (fuel : Nat) : (eval cfg fuel).Keeps := by
  induction fuel with
  | zero => exact fun _ _ _ _ _ _ _ _ => .outOfFuel
  | succ fuel ih =>
    intro scopes e env he henv scopes' safe hle
    simp only [eval_succ]
    exact .contain (keeps_evalLevel ih he (hle henv) safe) fun _ => ⟨genuine_ofBool false, rfl⟩

end Made

end

end ClauseLang
