import ClauseLang.Proofs.Machine.Mirror
import ClauseLang.Proofs.Machine.Nesting
import ClauseLang.Proofs.Reader.Bindings

namespace ClauseLang

open Eval

/-- Evaluated in related scopes, both expressions come to the same. -/
def Likewise (n : Nat) (ev : Nat → Evaluator) (e e' : Expr) : Prop :=
  ∀ ⦃env env' : Env⦄ (safe : Bool), MergesEnv env env' →
    Matches n Merges (fun k => ev k e env safe) fun k => ev k e' env' safe

/-- A clause in its scope. -/
def MergesStage (s s' : Clause × Env) : Prop :=
  MergesClause s.1 s'.1 ∧ MergesEnv s.2 s'.2

section

variable {n : Nat} {ev : Nat → Evaluator} {env env' : Env}

theorem extend_matches (henv : MergesEnv env env') {values values' : List (String × Expr)}
    (h : List.Forall₂ MergesNamed values values') :
    Matches n MergesEnv (fun _ => Eval.extend env values) fun _ => Eval.extend env' values' :=
  (Matches.self freshMark).bind fun mark _ hmark => hmark ▸ .pure (henv.extend mark h)

theorem extendRecursive_matches (henv : MergesEnv env env') (name : String)
    {clauses clauses' : List Clause} (h : List.Forall₂ MergesClause clauses clauses') :
    Matches n MergesEnv (fun _ => Eval.extendRecursive env name clauses)
      fun _ => Eval.extendRecursive env' name clauses' :=
  (Matches.self freshMark).bind fun mark _ hmark => hmark ▸ .pure (henv.extendRecursive mark name h)

variable (hev : ∀ {e e' : Expr}, Merges e e' → Likewise n ev e e')
include hev

theorem matchInto_matches {formal formal' argument argument' : Expr}
    {bound bound' : List (String × Expr)} (hformal : Merges formal formal')
    (hargument : Merges argument argument') (henv : MergesEnv env env')
    (hbound : List.Forall₂ MergesNamed bound bound') :
    Matches n (OptionRel (List.Forall₂ MergesNamed))
      (fun k => matchInto (ev k) env formal argument bound)
      fun k => matchInto (ev k) env' formal' argument' bound' := by
  have hkept {e e' : Expr} (he : Merges e e') :
      Matches n (OptionRel (List.Forall₂ MergesNamed))
        (fun _ => Pure.pure (if e.equal argument then some bound else none))
        fun _ => Pure.pure (if e'.equal argument' then some bound' else none) := by
    rw [he.equal_eq hargument]
    split
    · exact .pure (.some hbound)
    · exact .pure .none
  cases hformal with
  | identifier name =>
    refine .pure (.some ?_)
    split
    · exact hbound
    · exact List.rel_append hbound (.cons ⟨rfl, hargument⟩ .nil)
  | guarded constant hinner hcondition =>
    simp only [matchInto]
    refine (matchInto_matches hinner hargument henv hbound).bind fun r r' hr => ?_
    cases hr with
    | none => exact .pure .none
    | some hr =>
      refine (extend_matches henv hr).bind fun scope scope' hscope => ?_
      refine (hev hcondition true hscope).bind fun v v' hv => .pure ?_
      rw [hv.sameData.isTruthy_eq]
      split
      · exact .some hr
      · exact .none
  | @cons head head' _ _ hhead htail =>
    simp only [matchInto]
    have hsplit := hhead.split? hargument
    generalize split? head argument = parts at hsplit
    generalize split? head' argument' = parts' at hsplit
    cases hsplit with
    | none => exact .pure .none
    | some hparts =>
      refine (matchInto_matches hhead hparts.1 henv hbound).bind fun r r' hr => ?_
      cases hr with
      | none => exact .pure .none
      | some hr => exact matchInto_matches htail hparts.2 henv hr
  | number value => exact hkept (.number value)
  | text value => exact hkept (.text value)
  | label name => exact hkept (.label name)
  | list hitems => exact hkept (.list hitems)
  | @letIn _ value' _ body' name =>
    rcases Reader.bindFirst_eq name value' body' with ⟨_, _, _, _, h⟩ | ⟨_, h⟩ <;>
      (rw [h]; exact .fail rfl)
  | application | pattern | unary | binary | waiting => exact .fail rfl
termination_by sizeOf formal

theorem tryMatch_matches {formal formal' argument argument' : Expr}
    (hformal : Merges formal formal') (hargument : Merges argument argument')
    (henv : MergesEnv env env') :
    Matches n (OptionRel MergesEnv) (fun k => tryMatch (ev k) formal argument env)
      fun k => tryMatch (ev k) formal' argument' env' := by
  refine (matchInto_matches hev hformal hargument henv .nil).bind fun r r' hr => ?_
  cases hr with
  | none => exact .pure .none
  | some hr => exact (extend_matches henv hr).bind fun _ _ hscope => .pure (.some hscope)

theorem advance_matches {argument argument' : Expr} (hargument : Merges argument argument')
    {s s' : Clause × Env} (hs : MergesStage s s') :
    Matches n (OptionRel MergesStage) (fun k => advance (ev k) argument s)
      fun k => advance (ev k) argument' s' := by
  obtain ⟨clause, env⟩ := s
  obtain ⟨clause', env'⟩ := s'
  obtain ⟨⟨hrow, hbody⟩, henv⟩ := hs
  cases hrow with
  | nil => exact .fail rfl
  | cons hformal hrow =>
    refine (tryMatch_matches hev hformal hargument henv).bind fun r r' hr => ?_
    cases hr with
    | none => exact .pure .none
    | some hscope => exact .pure (.some ⟨.mk hrow hbody, hscope⟩)

theorem surviving_matches {argument argument' : Expr} (hargument : Merges argument argument')
    {stages stages' : List (Clause × Env)} (h : List.Forall₂ MergesStage stages stages') :
    Matches n (List.Forall₂ MergesStage) (fun k => surviving (ev k) argument stages)
      fun k => surviving (ev k) argument' stages' := by
  induction h with
  | nil => exact .pure .nil
  | cons hs _ ih =>
    refine (advance_matches hev hargument hs).bind fun r r' hr => ?_
    cases hr with
    | none => exact ih
    | some hnext => exact ih.bind fun _ _ hrest => .pure (.cons hnext hrest)

omit hev in
theorem commonArity_eq_of_merges {stages stages' : List (Clause × Env)}
    (h : List.Forall₂ MergesStage stages stages') :
    commonArity (stages.map Prod.fst) = commonArity (stages'.map Prod.fst) := by
  apply commonArity_congr
  rw [List.map_map, List.map_map]
  induction h with
  | nil => rfl
  | cons hs _ ih => simp [hs.1.row.length_eq, ih]

omit hev in
theorem merges_ofStages {stages stages' : List (Clause × Env)}
    (h : List.Forall₂ MergesStage stages stages') :
    Merges (.pattern (stages.map Prod.fst) (stages.map Prod.snd))
      (.pattern (stages'.map Prod.fst) (stages'.map Prod.snd)) := by
  refine .pattern ?_ ?_ <;> rw [List.forall₂_map_left_iff, List.forall₂_map_right_iff]
  · exact h.imp fun _ _ hs => hs.1
  · exact h.imp fun _ _ hs => hs.2

omit hev in
theorem mergesStage_zip {clauses clauses' : List Clause} {captured captured' : List Env}
    (h : List.Forall₂ MergesClause clauses clauses')
    (hcaptured : List.Forall₂ MergesEnv captured captured') :
    List.Forall₂ MergesStage (clauses.zip captured) (clauses'.zip captured') := by
  induction h generalizing captured captured' with
  | nil => exact .nil
  | cons hclause _ ih =>
    cases hcaptured with
    | nil => exact .nil
    | cons henv hrest => exact .cons ⟨hclause, henv⟩ (ih hrest)

variable {cfg : Config}

theorem applyPattern_matches {clauses clauses' : List Clause} {captured captured' : List Env}
    (h : List.Forall₂ MergesClause clauses clauses')
    (hcaptured : List.Forall₂ MergesEnv captured captured')
    {argument argument' : Expr} (hargument : Merges argument argument') :
    Matches n Merges (fun k => applyPattern cfg (ev k) clauses captured argument)
      fun k => applyPattern cfg (ev k) clauses' captured' argument' := by
  have hempty : captured.isEmpty = captured'.isEmpty := by cases hcaptured <;> rfl
  unfold applyPattern
  rw [hempty]
  split
  · exact .fail rfl
  · simp only [survivors_eq]
    refine (surviving_matches hev hargument (mergesStage_zip h hcaptured)).bind
      fun stages stages' hstages => ?_
    have harity := commonArity_eq_of_merges hstages
    cases id hstages with
    | nil => exact .fail rfl
    | @cons s s' _ _ hs hss =>
      dsimp only
      rw [← harity]
      cases hcommon : commonArity ((s :: _).map Prod.fst) with
      | error rows => exact .fail rfl
      | ok k =>
        cases k with
        | zero =>
          exact (Matches.saturate (hev hs.1.body false hs.2)).during _ _
        | succ k => exact .pure (merges_ofStages hstages)

omit hev in
theorem compute_matches (op : BinaryOp) {left left' right right' : Expr} (hleft : Merges left left')
    (hright : Merges right right') :
    ExceptRel Merges (op.compute left right) (op.compute left' right') := by
  by_cases he : op = .equal
  · subst he
    simp only [BinaryOp.compute, hleft.equal_eq hright]
    exact .ok (merges_dataRel.ofBool _)
  · by_cases hne : op = .notEqual
    · subst hne
      simp only [BinaryOp.compute, hleft.equal_eq hright]
      exact .ok (merges_dataRel.ofBool _)
    · exact BinaryOp.compute_alike merges_dataRel he hne hleft.sameData hright.sameData

omit hev in
theorem call_matches (cfg : Config) {op : Builtin} {f : Expr} (hop : Merges (.builtin op) f)
    {argument argument' : Expr} (hargument : Merges argument argument') (safe : Bool) :
    ∃ op', f = .builtin op' ∧ Matches n Merges (fun _ => op.call cfg argument safe)
      fun _ => op'.call cfg argument' safe := by
  cases hop with
  | unary op =>
    refine ⟨_, rfl, ?_⟩
    cases op with
    | abs => exact .ofExcept (absolute_alike merges_dataRel hargument.sameData)
    | len => exact .ofExcept (size_alike merges_dataRel hargument.sameData)
    | print =>
      simp only [Builtin.call, UnaryOp.call, hargument.render_eq]
      exact (Matches.self (Eval.print _)).bind fun _ _ _ => .pure hargument
  | binary op => exact ⟨_, rfl, .pure (.waiting op hargument)⟩
  | waiting op hleft => exact ⟨_, rfl, .ofExcept (compute_matches op hleft hargument)⟩

theorem apply_matches {callee callee' argument argument' : Expr} (hcallee : Merges callee callee')
    (hargument : Merges argument argument') (safe : Bool) :
    Matches n Merges (fun k => apply cfg (ev k) callee argument safe)
      fun k => apply cfg (ev k) callee' argument' safe := by
  refine .contain safe ?_ .falsy
  cases callee with
  | pattern clauses captured =>
    cases hcallee with
    | pattern hclauses hcaptured => exact applyPattern_matches hev hclauses hcaptured hargument
  | builtin op =>
    obtain ⟨op', rfl, hcall⟩ := call_matches cfg hcallee hargument safe
    exact hcall.during _ _
  | letIn =>
    cases hcallee with
    | @letIn _ value' _ body' name =>
      rcases Reader.bindFirst_eq name value' body' with ⟨_, _, _, _, h⟩ | ⟨_, h⟩ <;>
        (rw [h]; exact .fail rfl)
  | _ =>
    cases hcallee
    exact .fail rfl

theorem evalElements_matches (henv : MergesEnv env env') (safe : Bool) (index : Nat)
    {items items' : List Expr} (h : List.Forall₂ Merges items items') :
    Matches n (List.Forall₂ Merges) (fun k => evalElements (ev k) env safe index items)
      fun k => evalElements (ev k) env' safe index items' := by
  induction h generalizing index with
  | nil => exact .pure .nil
  | cons hitem _ ih =>
    refine ((hev hitem safe henv).during _ _).bind fun v v' hv => ?_
    exact (ih (index + 1)).bind fun vs vs' hvs => .pure (.cons hv hvs)

theorem applyAll_matches (henv : MergesEnv env env') (safe : Bool) (position : Nat)
    {items items' : List Expr} (h : List.Forall₂ Merges items items') {callee callee' : Expr}
    (hcallee : Merges callee callee') :
    Matches n Merges (fun k => applyAll cfg (ev k) env safe position callee items)
      fun k => applyAll cfg (ev k) env' safe position callee' items' := by
  induction h generalizing position callee callee' with
  | nil => exact .pure hcallee
  | cons hitem _ ih =>
    refine ((hev hitem safe henv).during _ _).bind fun a a' ha => ?_
    exact ((apply_matches hev hcallee ha safe).during _ _).bind fun v v' hv => ih (position + 1) hv

/-- One level of evaluation, apart from bindings. -/
theorem evalLevel_matches {e e' : Expr} (h : Merges e e')
    (hne : ∀ names values body, e ≠ .letIn names values body) (henv : MergesEnv env env')
    (safe : Bool) :
    Matches n Merges (fun k => evalLevel cfg (ev k) e env safe)
      fun k => evalLevel cfg (ev k) e' env' safe := by
  cases h with
  | identifier name =>
    simp only [evalLevel]
    have hfound := henv.get? name
    generalize env.get? name = v? at hfound
    generalize env'.get? name = v'? at hfound
    cases hfound with
    | none => exact .fail rfl
    | some hv => exact .pure hv
  | label name => exact .pure (.label name)
  | text value => exact .pure (.text value)
  | number value => exact .pure (.number value)
  | unary op => exact .pure (.unary op)
  | binary op => exact .pure (.binary op)
  | waiting op hleft => exact .pure (.waiting op hleft)
  | list hitems =>
    exact (evalElements_matches hev henv safe 0 hitems).bind fun vs vs' hvs => .pure (.list hvs)
  | application hitems =>
    cases hitems with
    | nil => exact .fail rfl
    | cons hitem hitems =>
      exact ((hev hitem safe henv).during _ _).bind fun f f' hf =>
        applyAll_matches hev henv safe 1 hitems hf
  | letIn name => exact absurd rfl (hne _ _ _)
  | pattern hclauses hcaptured =>
    cases hcaptured with
    | nil => exact .pure (merges_closeOver hclauses henv)
    | cons hscope hscopes => exact .pure (.pattern hclauses (.cons hscope hscopes))
  | cons | guarded => exact .fail rfl

end

/-! ### Bindings -/

section

variable {n : Nat} {ev : Nat → Evaluator} {env env' : Env} {value value' body body' : Expr}

theorem Merges.ne_pattern (h : Merges value value') (hne : ∀ clauses, value ≠ .pattern clauses [])
    (clauses : List Clause) : value' ≠ .pattern clauses [] := by
  rintro rfl
  generalize hpattern : Expr.pattern clauses [] = e at h
  cases h with
  | pattern _ hcaptured =>
    cases hpattern
    cases hcaptured
    exact hne _ rfl
  | letIn name => exact bindFirst_ne name _ _ clauses hpattern.symm
  | _ => cases hpattern

theorem evalBindings_matches (name : String) (hvalue : Merges value value')
    (hev : Likewise n ev value value') (henv : MergesEnv env env') (safe : Bool) :
    Matches n MergesEnv (fun k => evalBindings (ev k) safe [name] [value] env)
      fun k => evalBindings (ev k) safe [name] [value'] env' := by
  by_cases hpattern : ∃ clauses, value = .pattern clauses []
  · obtain ⟨clauses, rfl⟩ := hpattern
    cases hvalue with
    | pattern hclauses hcaptured =>
      cases hcaptured
      simp only [evalBindings_pattern]
      exact (extendRecursive_matches henv name hclauses).bind fun _ _ hscope => .pure hscope
  · have hne := not_exists.1 hpattern
    have hne' := hvalue.ne_pattern hne
    simp only [evalBindings_of_ne _ _ _ _ _ _ hne, evalBindings_of_ne _ _ _ _ _ _ hne']
    refine ((hev safe henv).during _ _).bind fun held held' hheld => ?_
    have hone : List.Forall₂ MergesNamed [(name, held)] [(name, held')] := .cons ⟨rfl, hheld⟩ .nil
    exact (extend_matches henv hone).bind fun _ _ hscope => .pure hscope

theorem evalLevel_letIn_matches {cfg : Config} (name : String) (hvalue : Merges value value')
    (hev : Likewise n ev value value') (hev' : Likewise n ev body body') (henv : MergesEnv env env')
    (safe : Bool) :
    Matches n Merges (fun k => evalLevel cfg (ev k) (.letIn [name] [value] body) env safe)
      fun k => evalLevel cfg (ev k) (.letIn [name] [value'] body') env' safe :=
  (evalBindings_matches name hvalue hev henv safe).bind fun _ _ hscope =>
    (hev' safe hscope).during _ _

end

/-! ### Whole programs -/

section

variable {cfg : Config} {e e' : Expr}

theorem Likewise.serves {n : Nat} {f : Expr} (h : Likewise (n + 1) (eval cfg) e e')
    (hforth : Serves cfg 0 e' f) (hback : Serves cfg 1 f e') : Likewise n (eval cfg) e f :=
  fun _ env' safe henv => {
    forth := fun k hk => ((h safe henv).forth k (Nat.le_succ_of_le hk)).agrees
      (fun k => hforth k env' safe) fun hle => eval_extends cfg hle f env' safe
    back := fun k hk => ((h safe henv).back (k + 1) (Nat.succ_le_succ hk)).of_agrees
      (hback k env' safe) }

theorem likewise_of_level {n : Nat} (h : ∀ ⦃env env' : Env⦄ (safe : Bool), MergesEnv env env' →
    Matches n Merges (fun k => evalLevel cfg (eval cfg k) e env safe)
      fun k => evalLevel cfg (eval cfg k) e' env' safe) : Likewise (n + 1) (eval cfg) e e' := by
  intro env env' safe henv
  refine .of_succ (fun _ => rfl) (fun _ => rfl) ?_
  simp only [eval_succ]
  exact (h safe henv).contain safe .falsy

/-- What is bound and its body are taken one level further than the row that the reader makes of them:
there the row may have to be taken apart. -/
theorem likewise_succ {n : Nat} (hev : ∀ {e e' : Expr}, Merges e e' → Likewise n (eval cfg) e e')
    {e e' : Expr} (h : Merges e e') : Likewise (n + 1) (eval cfg) e e' := by
  have hlevel := h
  cases h with
  | @letIn value value' body body' name hvalue hbody =>
    have hvalues := likewise_succ hev hvalue
    have hbodies := likewise_succ hev hbody
    have hlet : Likewise (n + 2) (eval cfg) (.letIn [name] [value] body)
        (.letIn [name] [value'] body') :=
      likewise_of_level fun _ _ safe henv =>
        evalLevel_letIn_matches name hvalue hvalues hbodies henv safe
    have hserves := serves_bindFirst cfg name value' body'
    exact hlet.serves hserves.2 hserves.1
  | _ =>
    exact likewise_of_level fun _ _ safe henv => evalLevel_matches hev hlevel (by simp) henv safe
termination_by sizeOf e

theorem likewise_of_merges (cfg : Config) (n : Nat) {e e' : Expr} (h : Merges e e') :
    Likewise n (eval cfg) e e' := by
  induction n generalizing e e' with
  | zero => exact fun _ _ _ _ => .zero (fun _ => rfl) fun _ => rfl
  | succ n ih => exact likewise_succ ih h

/-- With enough fuel each program comes to what the other one comes to, in the same state of the
machine. -/
def RunAlike (cfg : Config) (p q : Expr) : Prop :=
  ∀ n, Matches n Merges (fun fuel => run cfg fuel p) fun fuel => run cfg fuel q

theorem runAlike_of_merges (cfg : Config) {p q : Expr} (h : Merges p q) : RunAlike cfg p q := by
  intro n
  have hroot : Matches n MergesEnv (fun _ => freshRoot) fun _ => freshRoot :=
    (Matches.self freshMark).bind fun mark _ hmark => hmark ▸ .pure (mergesEnv_withBuiltins mark)
  exact hroot.bind fun root root' hroot => likewise_of_merges cfg n h false hroot

/-- One `letIn` may stand for one inside another, and the reader makes one of them. Every program that
is read runs as one that binds one name at a time. -/
theorem letIn_nest (cfg : Config) {names : List String} {values : List Expr}
    (h : names.length = values.length) (names' : List String) (values' : List Expr) (body : Expr) :
    Replaces cfg 1 (.letIn (names ++ names') (values ++ values') body)
        (.letIn names values (.letIn names' values' body)) ∧
      Replaces cfg 0 (.letIn names values (.letIn names' values' body))
        (.letIn (names ++ names') (values ++ values') body) ∧
      (∀ name value body,
        Replaces cfg 1 (Reader.bindFirst name value body) (.letIn [name] [value] body) ∧
          Replaces cfg 0 (.letIn [name] [value] body) (Reader.bindFirst name value body)) ∧
      ∀ source q, parse source = .ok q → ∃ p, Merges p q ∧ RunAlike cfg p q := by
  refine ⟨(serves_nest cfg h names' values' body).replaces nofun nofun,
    (serves_merge cfg h names' values' body).replaces nofun nofun, fun name value body => ?_,
    fun source q hq => ?_⟩
  · have hfirst := serves_bindFirst cfg name value body
    have hne := bindFirst_ne name value body
    exact ⟨hfirst.1.replaces hne nofun, hfirst.2.replaces nofun hne⟩
  · obtain ⟨p, hp⟩ := isMerged_of_parse hq
    exact ⟨p, hp, runAlike_of_merges cfg hp⟩

end

/-- The second of two bindings of one name, in which the first one is named. -/
theorem letIn_nest_shadowing :
    ["x"].length = [Expr.number 1].length ∧
      ∃ m, eval {} 3 (.letIn ["x", "x"] [.number 1, .list [.identifier "x"]] (.identifier "x"))
          (.withBuiltins 0) false {} = .ok (.list [.number 1]) m ∧
        eval {} 4 (.letIn ["x"] [.number 1] (.letIn ["x"] [.list [.identifier "x"]] (.identifier "x")))
          (.withBuiltins 0) false {} = .ok (.list [.number 1]) m := by
  have hlength : ["x"].length = [Expr.number 1].length := rfl
  have h := (letIn_nest {} hlength ["x"] [.list [.identifier "x"]] (.identifier "x")).1.evaluated
    .here 3 (.withBuiltins 0) false {}
  have hflat : eval {} 3 (.letIn ["x", "x"] [.number 1, .list [.identifier "x"]] (.identifier "x"))
      (.withBuiltins 0) false {} = .ok (.list [.number 1]) { nextMark := 2 } := rfl
  refine ⟨hlength, _, hflat, ?_⟩
  simp only [Context.fill, List.cons_append, List.nil_append, hflat, Nat.reduceAdd] at h
  generalize eval {} 4 _ _ _ _ = r at h
  cases h with
  | ok hab => rw [← hab]

end ClauseLang
