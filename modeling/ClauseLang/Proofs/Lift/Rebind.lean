import ClauseLang.Proofs.Lift.Around

/-!
The scopes of a clause and of its lifted form, from formal to formal. Where the lifted clause has a guard
or its body, it gets those old names back that no formal up to there binds.
-/

namespace ClauseLang

open Lifting Eval

namespace Site

/-- The scopes of a clause whose formals so far have bound the names `done`, and of its lifted form. -/
structure Reached (voc : Vocabulary) (s : Site) (locals params done : List String)
    (start env env' : Env) : Prop extends s.Behind voc locals params start where
  sound : s.Sound voc
  done_subset : done ⊆ locals
  locals_subset : locals ⊆ voc.program
  start_alike : ∀ x ∈ Expr.clausesFree s.clauses, s.self ≠ some x →
    OptionRel (Alike voc) (s.env.get? x) (start.get? (paramOf s.captured params x))
  isSome : ∀ x ∈ done, (env.get? x).isSome
  alike : ∀ x ∈ done, OptionRel (Alike voc) (env.get? x) (env'.get? x)
  outside : ∀ x ∉ done, env.get? x = s.env.get? x ∧ env'.get? x = start.get? x

/-- The old names that an expression behind the formals that bind `done` gets back. -/
abbrev rebound (s : Site) (params done : List String) (e : Expr) : List (String × Expr) :=
  mentioned e (outside done (s.outer params))

section

variable {s : Site} {params done : List String} {e : Expr}

theorem mem_outer_of_mem_rebound {b : String × Expr} (hb : b ∈ s.rebound params done e) :
    b ∈ s.outer params :=
  (List.mem_filter.1 (List.mem_filter.1 hb).1).1

theorem of_mem_rebound {x : String} (hx : x ∈ (s.rebound params done e).map Prod.fst) :
    x ∈ (s.outer params).map Prod.fst ∧ x ∉ done ∧ x ∈ e.identifiers := by
  obtain ⟨b, hb, rfl⟩ := List.mem_map.1 hx
  have hfilter := List.mem_filter.1 hb
  have hmem := List.mem_filter.1 hfilter.1
  exact ⟨List.mem_map_of_mem hmem.1, by simpa using hmem.2, by simpa using hfilter.2⟩

theorem outer_ne_pattern (s : Site) (params : List String) :
    OuterAll (fun e => ∀ clauses, e ≠ .pattern clauses []) (s.outer params) :=
  .outerNames (by simp) (call_ne_pattern s.name params) _

end

namespace Reached

variable {voc : Vocabulary} {s : Site} {locals params done : List String} {start env env' : Env}
  {x : String}

theorem extend (h : s.Reached voc locals params done start env env') {names : List String}
    {bound bound' : List (String × Expr)} (hbound : BindAlike voc names bound bound')
    (hdiscard : discard ∉ names) (hnames : names ⊆ locals) (mark mark' : Nat) :
    s.Reached voc locals params (done ++ names) start (env.extend mark bound)
      (env'.extend mark' bound') := by
  have hnew {x : String} (hx : x ∈ names) : ∃ v v', (env.extend mark bound).get? x = some v ∧
      (env'.extend mark' bound').get? x = some v' ∧ Alike voc v v' := by
    have hget := hbound.get?_extend env env' mark mark' x
    rwa [if_pos ⟨hx, fun hd => hdiscard (hd ▸ hx)⟩] at hget
  have hold {x : String} (hx : x ∉ names) : (env.extend mark bound).get? x = env.get? x ∧
      (env'.extend mark' bound').get? x = env'.get? x := by
    have hget := hbound.get?_extend env env' mark mark' x
    rwa [if_neg fun h => hx h.1] at hget
  refine ⟨h.toBehind, h.sound, List.append_subset.2 ⟨h.done_subset, hnames⟩, h.locals_subset,
    h.start_alike, fun x hx => ?_, fun x hx => ?_, fun x hx => ?_⟩
  · by_cases hmem : x ∈ names
    · obtain ⟨v, v', hv, -⟩ := hnew hmem
      rw [hv]
      rfl
    · rw [(hold hmem).1]
      exact h.isSome x ((List.mem_append.1 hx).resolve_right hmem)
  · by_cases hmem : x ∈ names
    · obtain ⟨v, v', hv, hv', hvv⟩ := hnew hmem
      rw [hv, hv']
      exact .some hvv
    · rw [(hold hmem).1, (hold hmem).2]
      exact h.alike x ((List.mem_append.1 hx).resolve_right hmem)
  · rw [List.mem_append, not_or] at hx
    rw [(hold hx.2).1, (hold hx.2).2]
    exact h.outside x hx.1

theorem shares (h : s.Reached voc locals params done start env env') : s.Shares voc := by
  intro x hx hself hcaptured
  have hparam : x ∉ params := fun hp =>
    hcaptured (h.leading.mem_captured (h.sound.clausesFree_subset hx) hp).1
  have halike := h.start_alike x hx hself
  rwa [paramOf_of_not_mem hcaptured, h.get?_eq x hparam] at halike

/-- What a pattern captures, its leading formals hold. -/
theorem exists_param (h : s.Reached voc locals params done start env env') (hx : x ∈ s.captured) :
    ∃ v, start.get? (paramOf s.captured params x) = some v ∧
      ∃ u, s.env.get? x = some u ∧ Alike voc u v := by
  obtain ⟨hsome, hself⟩ := h.sound.captured_bound x hx
  have halike := h.start_alike x (h.sound.captured_free hx) hself
  obtain ⟨u, v, hu, hv, huv⟩ := halike.exists_of_isSome hsome
  exact ⟨v, hv, u, hu, huv⟩

/-- Neither the leading formals nor the name of the lifted pattern are bound by the row. -/
theorem get?_fixed (h : s.Reached voc locals params done start env env') (hkeep : s.keep = false)
    (hx : x ∈ s.name :: params) : env'.get? x = start.get? x := by
  refine (h.outside x fun hdone => ?_).2
  have hlocal := h.done_subset hdone
  have hprogram := h.locals_subset hlocal
  rcases List.mem_cons.1 hx with rfl | hparam
  · exact ((h.sound.apart hkeep).apart s.name (by simp [entries])).1 hprogram
  · exact (h.leading.mem_captured hprogram hparam).2 hlocal

theorem of_mem_outer (h : s.Reached voc locals params done start env env')
    (hx : x ∈ (s.outer params).map Prod.fst) :
    s.keep = false ∧ (s.self = some x ∨ x ∈ s.captured ∧ x ∈ locals) := by
  obtain ⟨b, hb, rfl⟩ := List.mem_map.1 hx
  simp only [outer, outerNames, List.mem_append, List.mem_map, List.mem_filter, Option.mem_toList,
    Option.map_eq_some_iff] at hb
  rcases hb with ⟨⟨old, new⟩, ⟨hzip, hne⟩, rfl⟩ | ⟨f, hf, rfl⟩
  · have hold : old ∈ s.captured := (List.of_mem_zip hzip).1
    have hrename := h.leading.renames_paramOf hold
    rw [paramOf_of_mem_zip h.leading.length_eq h.sound.captured_nodup hzip] at hrename
    refine ⟨?_, .inr ⟨hold, ?_⟩⟩
    · cases hkeep : s.keep with
      | false => rfl
      | true =>
        rw [h.sound.captured_nil hkeep] at hold
        cases hold
    · by_contra hlocal
      rw [if_neg hlocal] at hrename
      simp [hrename] at hne
  · unfold selfOutside at hf
    split at hf
    · cases hf
    next hkeep => exact ⟨by simpa using hkeep, .inl hf⟩

theorem params_eq (h : s.Reached voc locals params done start env env') :
    s.captured.map (paramOf s.captured params) = params := by
  have hlength := h.leading.length_eq
  refine List.ext_getElem (by simp [hlength]) fun i hi hi' => ?_
  rw [List.getElem_map]
  rw [List.length_map] at hi
  refine paramOf_of_mem_zip hlength h.sound.captured_nodup ?_
  exact List.mem_iff_getElem.2 ⟨i, by rw [List.length_zip]; omega, List.getElem_zip⟩

variable {cfg : Config} {safe : Bool} {scope : Env}

theorem quiet_self (h : s.Reached voc locals params done start env env') (hkeep : s.keep = false)
    (hscope : ∀ y ∈ s.name :: params, scope.get? y = start.get? y) :
    Quiet (fun k => eval cfg k (call s.name params) scope safe)
      (Alike voc (.closeOver s.clauses s.env)) := by
  have hbound : ∀ y ∈ s.captured, ∃ v, scope.get? (paramOf s.captured params y) = some v ∧
      ∃ u, s.env.get? y = some u ∧ Alike voc u v := by
    intro y hy
    rw [hscope _ (List.mem_cons_of_mem _ (mem_params_paramOf h.leading.length_eq hy))]
    exact h.exists_param hy
  obtain ⟨values, hholds, hvalues⟩ := exists_holds hbound
  rw [h.params_eq] at hholds
  have happart := (h.sound.apart hkeep).apart s.name (by simp [entries])
  have hname : s.name ∉ params := fun hp => happart.2.1 (h.plain s.name hp)
  refine h.sound.quiet_call h.shares hvalues ?_ hholds
  rw [hscope s.name List.mem_cons_self, h.get?_eq s.name hname]
  exact (h.sound.top hkeep).get?_last happart.2.2

/-- An old name gets a value like the one that it has for the pattern. -/
theorem quiet_outer (h : s.Reached voc locals params done start env env') {b : String × Expr}
    (hb : b ∈ s.outer params) (hscope : ∀ y ∈ s.name :: params, scope.get? y = start.get? y) :
    Quiet (fun k => eval cfg k b.2 scope safe) fun v =>
      b.1 ≠ discard → ∃ u, s.env.get? b.1 = some u ∧ Alike voc u v := by
  have hkeep := (h.of_mem_outer (List.mem_map_of_mem hb)).1
  simp only [outer, outerNames, List.mem_append, List.mem_map, List.mem_filter, Option.mem_toList,
    Option.map_eq_some_iff] at hb
  rcases hb with ⟨⟨old, new⟩, ⟨hzip, -⟩, rfl⟩ | ⟨f, hf, rfl⟩
  · obtain ⟨hold, hnew⟩ := List.of_mem_zip hzip
    obtain ⟨v, hv, huv⟩ := h.exists_param hold
    rw [paramOf_of_mem_zip h.leading.length_eq h.sound.captured_nodup hzip,
      ← hscope new (List.mem_cons_of_mem _ hnew)] at hv
    refine (quiet_eval_identifier hv).mono ?_
    rintro _ rfl _
    exact huv
  · rw [selfOutside, hkeep, if_neg Bool.false_ne_true] at hf
    refine (h.quiet_self hkeep hscope).mono fun v hv hdiscard => ?_
    exact ⟨_, h.sound.self_eq f hf hdiscard, hv⟩

/-- A name that is not given back has to be there already. -/
theorem alike_of_not_rebound (h : s.Reached voc locals params done start env env')
    (hx : x ∈ Expr.clausesFree s.clauses) (hdone : x ∉ done)
    (hself : selfOutside s.keep s.self ≠ some x) (hcaptured : x ∈ s.captured → x ∈ params) :
    OptionRel (Alike voc) (env.get? x) (env'.get? x) := by
  have hprogram := h.sound.clausesFree_subset hx
  rw [(h.outside x hdone).1, (h.outside x hdone).2]
  by_cases hown : s.self = some x
  · have hkeep : s.keep = true := by
      cases hkeep : s.keep with
      | true => rfl
      | false => simp [selfOutside, hkeep, hown] at hself
    have hparams : x ∉ params := by
      intro hp
      have hmem := (h.leading.mem_captured hprogram hp).1
      rw [h.sound.captured_nil hkeep] at hmem
      cases hmem
    rw [h.get?_eq x hparams]
    by_cases hdiscard : x = discard
    · rw [hdiscard]
      exact optionRel_get?_discard _ _
    · rw [h.sound.self_eq x hown hdiscard, h.sound.kept_self hkeep x hown hdiscard]
      exact .some (h.sound.alike_kept h.shares hkeep)
  · have halike := h.start_alike x hx hown
    by_cases hmem : x ∈ s.captured
    · have hlocal := (h.leading.mem_captured hprogram (hcaptured hmem)).2
      have hrename := h.leading.renames_paramOf hmem
      rw [if_neg hlocal] at hrename
      rwa [hrename] at halike
    · rwa [paramOf_of_not_mem hmem] at halike

theorem isSome_of_mem_free (h : s.Reached voc locals params done start env env')
    (hvoc : voc.builtins = Builtin.names)
    (hkeep : s.keep = false) (hx : x ∉ done → x ∈ Expr.clausesFree s.clauses)
    (hdiscard : x ≠ discard) : (env.get? x).isSome := by
  by_cases hdone : x ∈ done
  · exact h.isSome x hdone
  · rw [(h.outside x hdone).1]
    by_cases hself : s.self = some x
    · rw [h.sound.self_eq x hself hdiscard]
      rfl
    · by_cases hcaptured : x ∈ s.captured
      · exact (h.sound.captured_bound x hcaptured).1
      · obtain ⟨hroot, hbuiltin⟩ := h.sound.foreseen hkeep x (hx hdone) hself hcaptured
        rw [hroot]
        exact isSome_rootValue (hvoc ▸ hbuiltin.resolve_left hdiscard)

theorem seesTable (h : s.Reached voc locals params done start env env') (hkeep : s.keep = false)
    (hscope : ∀ x ∉ voc.program, scope.get? x = env'.get? x) : SeesTable s.table scope := by
  have happart := h.sound.apart hkeep
  have htop : SeesTable s.table s.env' :=
    ((h.sound.top hkeep).seesTable happart).mono (List.prefix_append _ _)
  refine htop.congr fun x hx => ?_
  obtain ⟨hprogram, hplain, -⟩ := happart.of_append.apart x hx
  have hdone : x ∉ done := fun hd => hprogram (h.locals_subset (h.done_subset hd))
  rw [hscope x hprogram, (h.outside x hdone).2, h.get?_eq x fun hp => hplain (h.plain x hp)]

/-- The scope of the lifted form, when an expression has got its old names back. Names that are taken
for bound but are not bound yet are not used. -/
theorem scopesAlike (h : s.Reached voc locals params done start env env')
    (hvoc : voc.builtins = Builtin.names)
    {seen : List String} (hseen : done ⊆ seen) {e : Expr}
    (htimely : ∀ x ∈ e.free, x ∈ seen → x ∈ done) (hprogram : e.identifiers ⊆ voc.program)
    (hfree : ∀ x ∈ e.free, x ∉ done → x ∈ Expr.clausesFree s.clauses) (scope : Env)
    (hold : ∀ x ∈ (s.rebound params seen e).map Prod.fst, x ≠ discard →
      ∃ v, scope.get? x = some v ∧ ∃ u, s.env.get? x = some u ∧ Alike voc u v)
    (hother : ∀ x ∉ (s.rebound params seen e).map Prod.fst, scope.get? x = env'.get? x) :
    ScopesAlike voc s.keep s.table
      ((s.rebound params seen e).map Prod.fst ++ s.inner locals params) e.free env scope := by
  have hback {x : String} (hx : selfOutside s.keep s.self = some x ∨ x ∈ s.captured ∧ x ∉ params)
      (hdone : x ∉ done) (hxe : x ∈ e.free) : x ∈ (s.rebound params seen e).map Prod.fst :=
    mem_mentioned h.leading hx (fun hmem => hdone (htimely x hxe hmem))
      (Expr.mem_identifiers_of_mem_free hxe)
  refine ⟨fun x hx => ?_, fun hkeep x hx _ hdiscard => ?_, fun hkeep x hx hdefined => ?_,
    fun hkeep => (h.sound.apart hkeep).of_append, fun hkeep => h.seesTable hkeep fun x hx => ?_⟩
  · by_cases hmem : x ∈ (s.rebound params seen e).map Prod.fst
    · by_cases hdiscard : x = discard
      · rw [hdiscard]
        exact optionRel_get?_discard _ _
      · obtain ⟨v, hv, u, hu, huv⟩ := hold x hmem hdiscard
        rw [hv, (h.outside x fun hdone => (of_mem_rebound hmem).2.1 (hseen hdone)).1, hu]
        exact .some huv
    · rw [hother x hmem]
      by_cases hdone : x ∈ done
      · exact h.alike x hdone
      · refine h.alike_of_not_rebound (hfree x hx hdone) hdone (fun hself => ?_) fun hcaptured => ?_
        · exact hmem (hback (.inl hself) hdone hx)
        · by_contra hparam
          exact hmem (hback (.inr ⟨hcaptured, hparam⟩) hdone hx)
  · exact h.isSome_of_mem_free hvoc hkeep (hfree x hx) hdiscard
  · simp only [inner, List.mem_append, not_or] at hdefined
    obtain ⟨hmem, ⟨hlocal, hparam⟩, -⟩ := hdefined
    have hdone : x ∉ done := fun hd => hlocal (h.done_subset hd)
    rw [(h.outside x hdone).1]
    refine (h.sound.foreseen hkeep x (hfree x hx hdone) (fun hself => hmem ?_) fun hc => hmem ?_).1
    · exact hback (.inl (by rw [selfOutside, hkeep, if_neg Bool.false_ne_true, hself])) hdone hx
    · exact hback (.inr ⟨hc, hparam⟩) hdone hx
  · exact hother x fun hmem => hx (hprogram (of_mem_rebound hmem).2.2)

/-- Before a guard or a body is evaluated, it gets its old names back. -/
theorem quiet_rebind (h : s.Reached voc locals params done start env env')
    (hvoc : voc.builtins = Builtin.names)
    {seen : List String} (hseen : done ⊆ seen) {e : Expr}
    (htimely : ∀ x ∈ e.free, x ∈ seen → x ∈ done) (hprogram : e.identifiers ⊆ voc.program)
    (hfree : ∀ x ∈ e.free, x ∉ done → x ∈ Expr.clausesFree s.clauses) :
    Quiet (fun k => evalBindings (eval cfg k) safe ((s.rebound params seen e).map Prod.fst)
      ((s.rebound params seen e).map Prod.snd) env') fun scope =>
        ScopesAlike voc s.keep s.table
          ((s.rebound params seen e).map Prod.fst ++ s.inner locals params) e.free env scope := by
  by_cases hnone : s.rebound params seen e = []
  · have hscope := h.scopesAlike hvoc hseen htimely hprogram hfree env' (by simp [hnone])
      fun _ _ => rfl
    rw [hnone] at hscope ⊢
    exact .pure hscope
  have hkeep : s.keep = false := by
    obtain ⟨b, hb⟩ := List.exists_mem_of_ne_nil _ hnone
    exact (h.of_mem_outer (of_mem_rebound (List.mem_map_of_mem hb)).1).1
  have hvalues : ∀ b ∈ s.rebound params seen e, (∀ clauses, b.2 ≠ .pattern clauses []) ∧
      ∀ scope, (∀ y ∈ s.name :: params, scope.get? y = start.get? y) →
        Quiet (fun k => eval cfg k b.2 scope safe) fun v =>
          b.1 ≠ discard → ∃ u, s.env.get? b.1 = some u ∧ Alike voc u v := by
    intro b hb
    have houter := mem_outer_of_mem_rebound hb
    exact ⟨outer_ne_pattern s params b houter, fun scope => h.quiet_outer houter⟩
  have hfixed : ∀ b ∈ s.rebound params seen e, b.1 ∉ s.name :: params := by
    intro b hb
    obtain ⟨houter, -, hids⟩ := of_mem_rebound (List.mem_map_of_mem hb)
    rw [List.mem_cons, not_or]
    refine ⟨fun heq => ?_, fun hparam => ?_⟩
    · exact ((h.sound.apart hkeep).apart s.name (by simp [entries])).1 (heq ▸ hprogram hids)
    · obtain ⟨hcaptured, hlocal⟩ := h.leading.mem_captured (hprogram hids) hparam
      rcases (h.of_mem_outer houter).2 with hself | ⟨-, hold⟩
      · exact (h.sound.captured_bound _ hcaptured).2 hself
      · exact hlocal hold
  refine (quiet_evalBindings (P := fun x v => x ≠ discard → ∃ u, s.env.get? x = some u ∧
    Alike voc u v) hvalues hfixed fun x hx => h.get?_fixed hkeep hx).mono
      fun scope ⟨hother, hold⟩ => ?_
  refine h.scopesAlike hvoc hseen htimely hprogram hfree scope (fun x hx hdiscard => ?_) hother
  obtain ⟨v, hv, huv⟩ := hold x hx hdiscard
  exact ⟨v, hv, huv hdiscard⟩

end Reached

end Site

end ClauseLang
