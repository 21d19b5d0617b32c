import ClauseLang.Proofs.Lift.Rebind

namespace ClauseLang

open Lifting Eval

/-- The lifted forms of code end as the evaluator does. -/
def Evaluator.Respected (voc : Vocabulary) (cfg : Config) (ev : Evaluator) : Prop :=
  ∀ {keep table defined e e' env env'} safe, IsCodeOf .timely e → e.identifiers ⊆ voc.program →
    Lifted voc keep table defined e e' → ScopesAlike voc keep table defined e.free env env' →
      Follows sameDepth () (fun _ => Alike voc) (ev e env safe) fun k => eval cfg k e' env' safe

section

variable {voc : Vocabulary} {cfg : Config} {ev : Evaluator} {a a' : Expr} {s : Site}
  {locals params done : List String} {start env env' : Env} {bound bound' : List (String × Expr)}

/-- A guard, if what it guards is followed, and its condition where it has got its old names back. The
lifting takes for bound what is bound before the guard, by what it guards, and after it. -/
theorem matchGuarded_follows (hvoc : voc.builtins = Builtin.names)
    (hreached : s.Reached voc locals params done start env env') {seen names after : List String}
    {inner inner' condition condition' : Expr} {constant : Bool} (hlocals : seen ⊆ locals)
    (hseen : ∀ x, x ∈ seen ↔ x ∈ done ++ names ∨ x ∈ inner.boundNames ∨ x ∈ after)
    (htimely : Guard.Timely ⟨condition, constant, done ++ names ++ inner.boundNames, after⟩)
    (hdiscard : discard ∉ names) (hprogram : condition.identifiers ⊆ voc.program)
    (hfree : ∀ x ∈ condition.free, x ∉ done ++ names ++ inner.boundNames →
      x ∈ Expr.clausesFree s.clauses)
    (hinner : Follows sameDepth () (fun _ => OptionRel (BindAlike voc (names ++ inner.boundNames)))
      (matchInto ev env inner a bound) fun k => matchInto (eval cfg k) env' inner' a' bound')
    (hev : ∀ scope scope', ScopesAlike voc s.keep s.table
      ((s.rebound params seen condition).map Prod.fst ++ s.inner locals params) condition.free
        scope scope' →
      Follows sameDepth () (fun _ => Alike voc) (ev condition scope true)
        fun k => eval cfg k condition' scope' true) :
    Follows sameDepth () (fun _ => OptionRel (BindAlike voc (names ++ inner.boundNames)))
      (matchInto ev env (.guarded inner condition constant) a bound)
      fun k => matchInto (eval cfg k) env' (.guarded inner'
        (wrap (s.rebound params seen condition) condition') constant) a' bound' := by
  rw [List.append_assoc] at hfree
  have hbefore : done ++ (names ++ inner.boundNames) ⊆ seen := by
    intro x hx
    rw [← List.append_assoc, List.mem_append] at hx
    exact (hseen x).2 (hx.imp_right .inl)
  have hused : ∀ x ∈ condition.free, x ∈ seen → x ∈ done ++ (names ++ inner.boundNames) := by
    intro x hx hmem
    rw [← List.append_assoc, List.mem_append]
    rcases (hseen x).1 hmem with h | h | h
    · exact .inl h
    · exact .inr h
    · exact List.mem_append.1 (htimely x hx h)
  have hnew : discard ∉ names ++ inner.boundNames := by
    rw [List.mem_append, not_or]
    exact ⟨hdiscard, inner.discard_not_mem_boundNames⟩
  have hnames : names ++ inner.boundNames ⊆ locals :=
    List.Subset.trans (List.Subset.trans (List.subset_append_right _ _) hbefore) hlocals
  simp only [matchInto]
  refine hinner.bind fun _ r r' _ hr => ?_
  cases hr with
  | none => exact .pure .none
  | some hbound =>
    refine .extend fun mark mark' => ?_
    have hnext := hreached.extend hbound hnew hnames mark mark'
    refine (follows_wrap (hnext.quiet_rebind hvoc hbefore hused hprogram hfree) (hev _)).bind
      fun _ v v' _ hv => ?_
    exact .pure (optionRel_ite hv.sameData.isTruthy_eq hbound)

/-- A part of a formal and its lifted form add to what is bound alike. -/
theorem matchFormal_follows (hvoc : voc.builtins = Builtin.names) (hev : ev.Respected voc cfg)
    (hreached : s.Reached voc locals params done start env env') {seen names after : List String}
    {e e' a a' : Expr} {bound bound' : List (String × Expr)}
    (hformal : LiftedFormal voc s.keep s.table (s.inner locals params)
      (outside seen (s.outer params)) e e') (hcode : IsFormalOf .timely e)
    (hprogram : e.identifiers ⊆ voc.program) (hlocals : seen ⊆ locals)
    (hseen : ∀ x, x ∈ seen ↔ x ∈ done ++ names ∨ x ∈ e.boundNames ∨ x ∈ after)
    (htimely : ∀ g ∈ e.guards (done ++ names) after, g.Timely) (hdiscard : discard ∉ names)
    (hfree : ∀ x ∈ e.formalFree, x ∉ done ++ names → x ∈ Expr.clausesFree s.clauses)
    (ha : Alike voc a a') (hb : BindAlike voc names bound bound') :
    Follows sameDepth () (fun _ => OptionRel (BindAlike voc (names ++ e.boundNames)))
      (matchInto ev env e a bound) fun k => matchInto (eval cfg k) env' e' a' bound' := by
  match e with
  | .cons head tail =>
    cases hformal with
    | cons hhead htail =>
      obtain ⟨hcodeHead, hcodeTail⟩ := hcode.of_cons
      rw [Expr.identifiers, List.append_subset] at hprogram
      rw [Expr.guards, List.forall_mem_append] at htimely
      simp only [Expr.boundNames, List.mem_append] at hseen
      simp only [Expr.formalFree, List.mem_append, Expr.mem_without] at hfree
      have hsplit := split?_alike head ha
      simp only [matchInto, hhead.split?_eq]
      generalize split? head a = parts at hsplit
      generalize split? head a' = parts' at hsplit
      cases hsplit with
      | none => exact .pure .none
      | some hparts =>
        refine (matchFormal_follows hvoc hev hreached hhead hcodeHead hprogram.1 hlocals ?_
          htimely.1 hdiscard ?_ hparts.1 hb).bind fun _ r r' _ hr => ?_
        · grind
        · grind
        · cases hr with
          | none => exact .pure .none
          | some hbound =>
            rw [Expr.boundNames, ← List.append_assoc]
            rw [List.append_assoc] at htimely
            refine matchFormal_follows hvoc hev hreached htail hcodeTail hprogram.2 hlocals ?_
              htimely.2 ?_ ?_ hparts.2 hbound
            · grind
            · rw [List.mem_append, not_or]
              exact ⟨hdiscard, head.discard_not_mem_boundNames⟩
            · grind
  | .guarded inner condition constant =>
    obtain ⟨hcodeInner, hcondition⟩ := hcode.of_guarded
    obtain ⟨inner', condition', rfl, hinner, hlifted⟩ := hformal.of_guarded
    rw [Expr.identifiers, List.append_subset] at hprogram
    rw [Expr.guards, List.forall_mem_append, List.forall_mem_singleton] at htimely
    rw [Expr.boundNames] at hseen
    simp only [Expr.formalFree, List.mem_append, Expr.mem_without] at hfree
    refine matchGuarded_follows hvoc hreached hlocals hseen htimely.2 hdiscard hprogram.2 ?_ ?_ ?_
    · grind
    · refine matchFormal_follows hvoc hev hreached hinner hcodeInner hprogram.1 hlocals hseen
        htimely.1 hdiscard ?_ ha hb
      grind
    · intro scope scope' hscope
      rcases hlifted with rfl | hlifted
      · exact hev true hcondition hprogram.2 (lifted_keep hcondition _) hscope.kept
      · exact hev true hcondition hprogram.2 hlifted hscope
  | .identifier name =>
    cases hformal
    exact matchInto_alike (.identifier name) ha hb
  | .label name =>
    cases hformal
    exact matchInto_alike (.label name) ha hb
  | .text value =>
    cases hformal
    exact matchInto_alike (.text value) ha hb
  | .number value =>
    cases hformal
    exact matchInto_alike (.number value) ha hb
  | .list items =>
    cases hformal
    cases hcode with
    | simple hsimple => exact matchInto_alike hsimple ha hb
  | .application _ | .letIn _ _ _ | .pattern _ _ | .builtin _ => cases hformal
termination_by sizeOf e

end

section

variable {voc : Vocabulary} {cfg : Config} {ev : Evaluator} {a a' : Expr}
  {stage stage' : Clause × Env}

theorem Site.Reached.of_clause {s : Site} {params : List String} {start env env' : Env}
    {done row : List Expr} {body : Expr} (hs : s.Sound voc)
    (hbehind : s.Behind voc (Expr.rowNames (done ++ row)) params start)
    (hclause : .mk (done ++ row) body ∈ s.clauses)
    (hstart : ∀ x ∈ Expr.clausesFree s.clauses, s.self ≠ some x →
      OptionRel (Alike voc) (s.env.get? x) (start.get? (paramOf s.captured params x)))
    (hsome : ∀ x ∈ Expr.rowNames done, (env.get? x).isSome)
    (halike : ∀ x ∈ Expr.rowNames done, OptionRel (Alike voc) (env.get? x) (env'.get? x))
    (hget : ∀ x ∉ Expr.rowNames done, env.get? x = s.env.get? x ∧ env'.get? x = start.get? x) :
    s.Reached voc (Expr.rowNames (done ++ row)) params (Expr.rowNames done) start env env' where
  toBehind := hbehind
  sound := hs
  done_subset := by
    rw [Expr.rowNames_append]
    exact List.subset_append_left _ _
  locals_subset := List.Subset.trans (Expr.rowNames_subset _)
    (List.Subset.trans (identifiers_subset_of_mem hclause).1 hs.program)
  start_alike := hstart
  isSome := hsome
  alike := halike
  outside := hget

theorem advance_follows (hvoc : voc.builtins = Builtin.names) (hev : ev.Respected voc cfg)
    (h : AlikeStage voc stage stage') (ha : Alike voc a a') :
    Follows sameDepth () (fun _ => OptionRel (AlikeStage voc)) (advance ev a stage)
      fun k => advance (eval cfg k) a' stage' := by
  cases h with
  | @mk s params start env env' done row row' body body' hs hbehind hclause hrow hbody hstart hsome
      halike hget =>
    have hreached := Site.Reached.of_clause hs hbehind hclause hstart hsome halike hget
    cases hrow with
    | nil => exact .fail rfl
    | @cons _ _ _ _ _ formal formal' row row' hformal hrow =>
      have hmem : formal ∈ done ++ formal :: row := by simp
      obtain ⟨arity, hcode⟩ := hs.exists_isClause hclause
      have hprogram : formal.identifiers ⊆ voc.program :=
        List.Subset.trans (Expr.identifiers_subset_of_mem hmem)
          (List.Subset.trans (identifiers_subset_of_mem hclause).1 hs.program)
      have hnames : formal.boundNames ⊆ Expr.rowNames (done ++ formal :: row) :=
        fun x hx => List.mem_flatMap.2 ⟨formal, hmem, hx⟩
      have hseen : ∀ x, x ∈ Expr.rowNames done ++ formal.boundNames ↔
          x ∈ Expr.rowNames done ++ [] ∨ x ∈ formal.boundNames ∨ x ∈ ([] : List String) := by
        simp
      have htimely : ∀ g ∈ formal.guards (Expr.rowNames done ++ []) [], g.Timely := by
        intro g hg
        rw [List.append_nil] at hg
        exact hcode.timely_of_mem g (Expr.mem_rowGuards hg)
      have hfree : ∀ x ∈ formal.formalFree, x ∉ Expr.rowNames done →
          x ∈ Expr.clausesFree s.clauses := by
        intro x hx hdone
        refine Expr.mem_clausesFree hclause (mem_rowFree_append ?_ hdone)
        rw [Expr.rowFree, List.mem_append]
        exact .inl hx
      have hmatch := matchFormal_follows hvoc hev hreached hformal (hcode.isFormal_of_mem formal hmem)
        hprogram (List.append_subset.2 ⟨hreached.done_subset, hnames⟩) hseen htimely
        List.not_mem_nil (by simpa using hfree) ha (.nil voc)
      rw [List.nil_append] at hmatch
      simp only [advance, tryMatch, bind_assoc]
      refine hmatch.bind fun _ r r' _ hr => ?_
      cases hr with
      | none => exact .pure .none
      | some hbound =>
        simp only [bind_assoc, pure_bind]
        refine .extend fun mark mark' => .pure (.some ?_)
        have hnext := hreached.extend hbound (Expr.discard_not_mem_boundNames _) hnames mark mark'
        rw [List.append_cons] at hbehind hclause hrow hbody hnext ⊢
        rw [← Expr.rowNames_singleton, ← Expr.rowNames_append] at hrow hnext
        exact .mk hs hbehind hclause hrow hbody hnext.start_alike hnext.isSome hnext.alike
          hnext.outside

theorem body_follows (hvoc : voc.builtins = Builtin.names) (hev : ev.Respected voc cfg)
    (h : AlikeStage voc stage stage') (hempty : stage.1.row = []) :
    Follows sameDepth () (fun _ => Alike voc) (ev stage.1.body stage.2 false)
      fun k => eval cfg k stage'.1.body stage'.2 false := by
  cases h with
  | @mk s params start env env' done row row' body body' hs hbehind hclause hrow hbody hstart hsome
      halike hget =>
    obtain rfl : row = [] := hempty
    have hreached := Site.Reached.of_clause hs hbehind hclause hstart hsome halike hget
    obtain ⟨arity, hcode⟩ := hs.exists_isClause hclause
    have hprogram : body.identifiers ⊆ voc.program :=
      List.Subset.trans (identifiers_subset_of_mem hclause).2 hs.program
    rw [List.append_nil] at hreached hclause hbody ⊢
    have hfree : ∀ x ∈ body.free, x ∉ Expr.rowNames done → x ∈ Expr.clausesFree s.clauses :=
      fun x hx hdone => Expr.mem_clausesFree hclause (mem_rowFree hx hdone)
    refine follows_wrap (hreached.quiet_rebind hvoc (List.Subset.refl _) (fun _ _ hx => hx) hprogram
      hfree) fun scope hscope => ?_
    exact hev false hcode.isCode_body hprogram hbody hscope

theorem stageRel (hvoc : voc.builtins = Builtin.names) (hev : ev.Respected voc cfg) :
    StageRel sameDepth (fun _ => Alike voc) ev (eval cfg) fun _ => AlikeStage voc where
  grows _ _ _ _ _ h := h
  length_row h := by
    cases h with
    | mk _ _ _ hrow => exact hrow.length_eq.symm
  advance h ha := advance_follows hvoc hev h ha
  body h hempty := body_follows hvoc hev h hempty

/-- A builtin is given its last operand, if that makes no test of closures. -/
theorem call_follows {op op' : Builtin} (hop : Alike voc (.builtin op) (.builtin op'))
    (ha : Alike voc a a') (safe : Bool)
    (htests : voc.Tests → (Expr.builtin op).testsClosures a = false) :
    Follows sameDepth () (fun _ => Alike voc) (op.call cfg a safe)
      fun _ => op'.call cfg a' safe := by
  have hdata := Alike.dataRel voc
  cases hop with
  | unary op =>
    cases op with
    | abs => exact .ofExcept (absolute_alike hdata ha.sameData)
    | len => exact .ofExcept (size_alike hdata ha.sameData)
    | print =>
      exact (Follows.print (R := fun _ _ _ => True) trivial).bind fun _ _ _ _ _ => .pure ha
  | binary htest => exact .pure (.waiting htest ha)
  | @waiting op left left' htest hleft =>
    refine .ofExcept ?_
    by_cases hop : op.isTest
    · have hclosures : left.hasClosure = false ∧ a.hasClosure = false := by
        simpa [Expr.testsClosures, hop] using htests (htest hop)
      rw [hleft.eq_of_hasClosure_eq_false hclosures.1, ha.eq_of_hasClosure_eq_false hclosures.2]
      cases op with
      | equal | notEqual => exact .ok (hdata.ofBool _)
      | _ => cases hop
    · have hequal : op ≠ .equal := fun h => hop (h ▸ rfl)
      have hnotEqual : op ≠ .notEqual := fun h => hop (h ▸ rfl)
      exact BinaryOp.compute_alike hdata hequal hnotEqual hleft.sameData ha.sameData

/-- Evaluation stops at the tests of closures that a program can make. -/
def Vocabulary.Stopped (voc : Vocabulary) (stops : Expr → Expr → Bool) : Prop :=
  voc.Tests → ∀ callee argument, callee.testsClosures argument → stops callee argument

variable {stops : Expr → Expr → Bool}

theorem applyUntil_follows (hvoc : voc.builtins = Builtin.names) (hstops : voc.Stopped stops)
    (hev : ev.Respected voc cfg) {f f' : Expr} (safe : Bool) (hf : Alike voc f f')
    (ha : Alike voc a a') :
    Follows sameDepth () (fun _ => Alike voc) (applyUntil stops cfg ev f a safe)
      fun k => apply cfg (eval cfg k) f' a' safe := by
  unfold applyUntil
  split
  · exact fun _ _ _ => .outOfFuel
  next hgoes =>
    have htests (h : voc.Tests) : f.testsClosures a = false :=
      Bool.eq_false_iff.2 fun htests => hgoes (hstops h f a htests)
    refine Follows.contain ?_ fun _ => .falsy voc
    cases id hf with
    | number | text | label | list => exact .fail rfl
    | unary | binary | waiting => exact (call_follows hf ha safe htests).during
    | @closure stages stages' hne hstages =>
      refine applyPattern_follows (fun _ _ _ _ _ h => h) (stageRel hvoc hev)
        (fun h hne => .closure hne h) ?_ ?_ ha
      · rw [List.isEmpty_eq_false_iff.2 (by simpa using hne),
          List.isEmpty_eq_false_iff.2 (by simpa using ne_nil_of_forall₂ hstages hne)]
      · rw [zip_stages, zip_stages]
        exact hstages

theorem applyAllUntil_follows (hvoc : voc.builtins = Builtin.names) (hstops : voc.Stopped stops)
    (hev : ev.Respected voc cfg) (safe : Bool) (position : Nat) {env env' : Env}
    {items items' : List Expr}
    (h : List.Forall₂ (fun e e' => Tracks sameDepth (fun _ => Alike voc) ev (eval cfg) () e env e'
      env') items items') {f f' : Expr} (hf : Alike voc f f') :
    Follows sameDepth () (fun _ => Alike voc) (applyAllUntil stops cfg ev env safe position f items)
      fun k => applyAll cfg (eval cfg k) env' safe position f' items' := by
  induction h generalizing position f f' with
  | nil => exact .pure hf
  | cons hitem _ ih =>
    refine (hitem () safe le_rfl).during.bind fun _ a a' _ ha => ?_
    refine (applyUntil_follows hvoc hstops hev safe hf ha).during.bind fun _ g g' _ hg => ?_
    exact ih (position + 1) hg

end

section

variable {voc : Vocabulary} {cfg : Config} {ev : Evaluator} {keep : Bool} {table : LiftTable}

theorem tracks_items (hev : ev.Respected voc cfg) {defined : List String} {items items' : List Expr}
    {env env' : Env} (hcode : ∀ item ∈ items, IsCodeOf .timely item)
    (hprogram : Expr.itemsIdentifiers items ⊆ voc.program)
    (h : LiftedItems voc keep table defined items items')
    (hscope : ScopesAlike voc keep table defined (Expr.itemsFree items) env env') :
    List.Forall₂ (fun e e' => Tracks sameDepth (fun _ => Alike voc) ev (eval cfg) () e env e' env')
      items items' := by
  induction items generalizing items' with
  | nil =>
    cases h
    exact .nil
  | cons item items ih =>
    cases h with
    | cons hitem hitems =>
      simp only [List.mem_cons, forall_eq_or_imp] at hcode
      rw [Expr.itemsIdentifiers, List.append_subset] at hprogram
      rw [Expr.itemsFree] at hscope
      refine .cons (fun _ safe _ => ?_) (ih hcode.2 hprogram.2 hitems
        (hscope.of_subset (List.subset_append_right _ _)))
      exact hev safe hcode.1 hprogram.1 hitem (hscope.of_subset (List.subset_append_left _ _))

theorem Lifted.isPattern_eq_false {defined : List String} {e e' : Expr}
    (h : Lifted voc keep table defined e e') (he : e.isPattern = false) : e'.isPattern = false := by
  cases h with
  | pattern => cases he
  | _ => rfl

/-- A pattern that a `letIn` names, if the rest of the bindings is followed. -/
theorem bindPattern_follows (safe : Bool) {defined names rest : List String}
    {name : String} {clauses : List Clause} {value' : Expr} {values values' : List Expr}
    {env env' : Env} {R : Unit → Env → Env → Prop}
    (h : LiftedPattern voc keep table defined (some name) clauses value')
    (hcode : IsCodeOf .timely (.pattern clauses [])) (hname : name ∈ voc.program)
    (hprogram : Expr.clausesIdentifiers clauses ⊆ voc.program)
    (hscope : ScopesAlike voc keep table defined
      (Expr.without (Expr.boundNames (.identifier name)) (Expr.clausesFree clauses) ++
        Expr.without (Expr.boundNames (.identifier name)) rest) env env')
    (hrest : ∀ scope scope', ScopesAlike voc keep table (name :: defined) rest scope scope' →
      Follows sameDepth () R (evalBindings ev safe names values scope)
        fun k => evalBindings (eval cfg k) safe names values' scope') :
    Follows sameDepth () R (evalBindings ev safe (name :: names) (.pattern clauses [] :: values) env)
      fun k => evalBindings (eval cfg k) safe (name :: names) (value' :: values') env' := by
  have hnames : ∀ x ∈ Expr.clausesFree clauses, some name ≠ some x →
      x ∈ Expr.without (Expr.boundNames (.identifier name)) (Expr.clausesFree clauses) ++
        Expr.without (Expr.boundNames (.identifier name)) rest := by
    intro x hx hne
    rw [List.mem_append, Expr.mem_without, mem_boundNames_identifier]
    exact .inl ⟨hx, fun h => hne (congrArg some h.1.symm)⟩
  have hlater := hscope.of_subset (List.subset_append_right _ _)
  rw [evalBindings_pattern]
  refine .after_extendRecursive fun mark => ?_
  have hinner := isInner_extendRecursive name clauses env mark
  cases h with
  | lifted hcaptured hlifted htable =>
    simp only [evalBindings_of_ne _ _ _ _ _ _ (call_ne_pattern _ _)]
    refine .after_quiet (hscope.quiet_call hcaptured hlifted htable hcode hprogram hnames
      hinner).during fun v hv => ?_
    refine .after_quiet (Quiet.extend _ _) ?_
    rintro _ ⟨mark', rfl⟩
    exact hrest _ _ (hlater.extend_of_recursive hname hv mark')
  | @kept _ _ _ _ clauses' hlifted =>
    simp only [evalBindings_pattern]
    refine .after_quiet (Quiet.extendRecursive _ _ _) ?_
    rintro _ ⟨mark', rfl⟩
    refine hrest _ _ (hlater.extendRecursive hname ?_)
    exact hscope.alike_kept hlifted hcode hprogram hnames hinner
      (isInner_extendRecursive name clauses' env' mark')

theorem evalBindings_follows (hev : ev.Respected voc cfg) (safe : Bool)
    {defined inner names rest : List String} {values values' : List Expr} {env env' : Env}
    (h : LiftedBindings voc keep table defined names values values' inner)
    (hcode : ∀ value ∈ values, IsCodeOf .timely value)
    (hprogram : Expr.bindingsIdentifiers names values ⊆ voc.program)
    (hscope : ScopesAlike voc keep table defined (Expr.bindingsFree names values rest) env env') :
    Follows sameDepth () (fun _ => ScopesAlike voc keep table inner rest)
      (evalBindings ev safe names values env)
      fun k => evalBindings (eval cfg k) safe names values' env' := by
  induction names generalizing defined values values' env env' with
  | nil =>
    cases h
    exact .pure hscope
  | cons name names ih =>
    cases h with
    | pattern hpattern hrest =>
      simp only [List.mem_cons, forall_eq_or_imp] at hcode
      rw [Expr.bindingsIdentifiers, List.cons_subset, List.append_subset] at hprogram
      rw [Expr.bindingsFree_pattern] at hscope
      exact bindPattern_follows safe hpattern hcode.1 hprogram.1 hprogram.2.1 hscope
        fun scope scope' => ih hrest hcode.2 hprogram.2.2
    | @value _ _ _ _ _ _ value value' values values' hvalue hlifted hrest =>
      simp only [List.mem_cons, forall_eq_or_imp] at hcode
      rw [Expr.bindingsIdentifiers, List.cons_subset, List.append_subset] at hprogram
      rw [Expr.bindingsFree_of_isPattern_eq_false _ _ _ _ hvalue] at hscope
      have hne : ∀ clauses, value ≠ .pattern clauses [] := by
        rintro clauses rfl
        cases hvalue
      have hne' : ∀ clauses, value' ≠ .pattern clauses [] := by
        rintro clauses rfl
        cases hlifted.isPattern_eq_false hvalue
      simp only [evalBindings_of_ne _ _ _ _ _ _ hne, evalBindings_of_ne _ _ _ _ _ _ hne']
      have hfirst := hev safe hcode.1 hprogram.2.1 hlifted
        (hscope.of_subset (List.subset_append_left _ _))
      refine hfirst.during.bind fun _ v v' _ hv => .extend fun mark mark' => ?_
      refine ih hrest hcode.2 hprogram.2.2 ?_
      exact (hscope.of_subset (List.subset_append_right _ _)).extend hprogram.1 hv mark mark'

theorem evalLevelUntil_follows (hvoc : voc.builtins = Builtin.names) {stops : Expr → Expr → Bool}
    (hstops : voc.Stopped stops) (hev : ev.Respected voc cfg) {defined : List String}
    {e e' : Expr} {env env' : Env} (safe : Bool) (hcode : IsCodeOf .timely e)
    (hprogram : e.identifiers ⊆ voc.program) (h : Lifted voc keep table defined e e')
    (hpattern : e.isPattern = false)
    (hscope : ScopesAlike voc keep table defined e.free env env') :
    Follows sameDepth () (fun _ => Alike voc) (evalLevelUntil stops cfg ev e env safe)
      fun k => evalLevel cfg (eval cfg k) e' env' safe := by
  cases h with
  | identifier name =>
    have halike := hscope.alike name (by simp [Expr.free])
    simp only [evalLevelUntil, evalLevel]
    generalize env.get? name = r at halike
    generalize env'.get? name = r' at halike
    cases halike with
    | none => exact .fail rfl
    | some hv => exact .pure hv
  | label name => exact .pure (.label name)
  | text value => exact .pure (.text value)
  | number value => exact .pure (.number value)
  | application h =>
    cases hcode with
    | application hitems =>
      have htracks := tracks_items hev hitems hprogram h hscope
      cases htracks with
      | nil => exact .fail rfl
      | cons hitem hrest =>
        refine (hitem () safe le_rfl).during.bind fun _ f f' _ hf => ?_
        exact applyAllUntil_follows hvoc hstops hev safe 1 hrest hf
  | list h =>
    cases hcode with
    | list hitems =>
      have htracks := tracks_items hev hitems hprogram h hscope
      refine (evalElements_follows (fun _ _ _ _ _ h => h) safe 0 htracks).bind fun _ vs vs' _ hvs => ?_
      exact .pure (.list hvs)
  | letIn hbindings hbody =>
    cases hcode with
    | letIn _ hvalues hcode =>
      rw [Expr.identifiers, List.append_subset] at hprogram
      refine (evalBindings_follows hev safe hbindings hvalues hprogram.1 hscope).bind ?_
      intro _ scope scope' _ hinner
      exact (hev safe hcode hprogram.2 hbody hinner).during
  | pattern => cases hpattern

theorem evalUntil_pattern_follows {stops : Expr → Expr → Bool} {defined : List String}
    {clauses : List Clause} {e' : Expr} {env env' : Env} (fuel : Nat) (safe : Bool)
    (hcode : IsCodeOf .timely (.pattern clauses []))
    (hprogram : Expr.clausesIdentifiers clauses ⊆ voc.program)
    (h : LiftedPattern voc keep table defined none clauses e')
    (hscope : ScopesAlike voc keep table defined (Expr.clausesFree clauses) env env') :
    Follows sameDepth () (fun _ => Alike voc)
      (evalUntil stops cfg (fuel + 1) (.pattern clauses []) env safe)
      fun k => eval cfg k e' env' safe := by
  have hclosed : evalUntil stops cfg (fuel + 1) (.pattern clauses []) env safe =
      pure (.closeOver clauses env) := rfl
  have hinner (clauses : List Clause) (env : Env) := isInner_none clauses env
  rw [hclosed]
  cases h with
  | lifted hcaptured hlifted htable =>
    exact .of_pure (hscope.quiet_call hcaptured hlifted htable hcode hprogram
      (fun x hx _ => hx) (hinner clauses env))
  | @kept _ _ _ _ clauses' hlifted =>
    have hclosed' (fuel : Nat) : eval cfg (fuel + 1) (.pattern clauses' []) env' safe =
        pure (.closeOver clauses' env') := by
      rw [eval_succ]
      rfl
    refine .of_succ ?_
    simp only [hclosed']
    exact .pure (hscope.alike_kept hlifted hcode hprogram (fun x hx _ => hx) (hinner clauses env)
      (hinner clauses' env'))

/-- The lifted form of code leads to what the code leads to, if that does not stop. -/
theorem evalUntil_follows (cfg : Config) (hvoc : voc.builtins = Builtin.names)
    {stops : Expr → Expr → Bool} (hstops : voc.Stopped stops) (fuel : Nat) :
    (evalUntil stops cfg fuel).Respected voc cfg := by
  induction fuel with
  | zero => exact fun _ _ _ _ _ _ _ _ => .outOfFuel
  | succ fuel ih =>
    intro keep table defined e e' env env' safe hcode hprogram h hscope
    by_cases hpattern : e.isPattern
    · cases h with
      | pattern h => exact evalUntil_pattern_follows fuel safe hcode hprogram h hscope
      | _ => cases hpattern
    · refine .of_succ ?_
      simp only [eval_succ, evalUntil]
      refine Follows.contain ?_ fun _ => .falsy voc
      exact evalLevelUntil_follows hvoc hstops ih safe hcode hprogram h (by simpa using hpattern)
        hscope

theorem quiet_evalBindings_table {before : LiftTable} {env : Env} (h : IsTop before env)
    (safe : Bool) :
    Quiet (fun k => evalBindings (eval cfg k) safe
      ((table.map fun (name, clauses) => (name, Expr.pattern clauses [])).map Prod.fst)
      ((table.map fun (name, clauses) => (name, Expr.pattern clauses [])).map Prod.snd) env)
      (IsTop (before ++ table)) := by
  induction table generalizing before env with
  | nil => exact .pure (by rwa [List.append_nil])
  | cons entry table ih =>
    obtain ⟨name, clauses⟩ := entry
    simp only [List.map_cons, evalBindings_pattern]
    refine (Quiet.extendRecursive env name clauses).bind ?_
    rintro _ ⟨mark, rfl⟩
    rw [List.append_cons]
    exact ih (.snoc mark name clauses h)

end

theorem LiftsTo.scopesAlike {g : Guarding} {voc : Vocabulary} {table : LiftTable} {e body : Expr}
    (h : LiftsTo g voc table e body) (mark : Nat) {top : Env}
    (htop : IsTop table top) : ScopesAlike voc false table [] e.free (.withBuiltins mark) top where
  alike x hx := by
    have hprogram : x ∈ voc.program := by
      rw [h.program_eq]
      exact Expr.mem_identifiers_of_mem_free hx
    rw [rootValue_eq, htop.get?_of_not_mem fun hname => (h.apart x hname).1 hprogram]
    exact rootValue_alike hprogram
  known _ _ _ hdefined := by cases hdefined
  root _ _ _ _ := rootValue_eq mark
  apart _ := ⟨h.nodup, h.apart⟩
  table _ := htop.seesTable ⟨h.nodup, h.apart⟩

/-- Code and its lifted form lead to the same data, or to a fault of the same kind, unless the code
stops. It has to stop where closures would be tested for equality. -/
theorem runUntil_lift {p l : Expr} (hcode : IsCodeOf .timely p) (hl : lift p = .ok l)
    {stops : Expr → Expr → Bool} (hstops : "==" ∈ p.identifiers ∨ "!=" ∈ p.identifiers →
      ∀ callee argument, callee.testsClosures argument → stops callee argument)
    (cfg : Config) (fuel : Nat) (m : Machine) :
    match runUntil stops cfg fuel p m with
    | .ok v _ => v.isFirstOrder → ∃ m', Settles (fun k => run cfg k l m) (.ok v m')
    | .error (.error e) _ => ∃ e' m', e.fault.Similar e'.fault ∧
        Settles (fun k => run cfg k l m) (.error (.error e') m')
    | .error .outOfFuel _ => True := by
  obtain ⟨voc, table, body, hbuiltins, hlifts, rfl⟩ := liftsTo_of_lift hcode hl
  have hprogram : p.identifiers ⊆ voc.program := by
    rw [hlifts.program_eq]
    exact List.Subset.refl _
  have hstopped : voc.Stopped stops := by
    intro htests
    rw [Vocabulary.Tests, hlifts.program_eq] at htests
    exact hstops htests
  have hfollows : Follows sameDepth () (fun _ => Alike voc) (runUntil stops cfg fuel p) fun k =>
      run cfg k (wrap (table.map fun (name, clauses) => (name, .pattern clauses [])) body) := by
    refine .after_freshRoot fun mark => .after_quiet Quiet.freshRoot ?_
    rintro _ ⟨mark', rfl⟩
    refine follows_wrap (quiet_evalBindings_table (.root mark') false) fun top htop => ?_
    exact evalUntil_follows cfg hbuiltins hstopped fuel false hcode hprogram hlifts.lifted
      (hlifts.scopesAlike mark htop)
  have hrun := hfollows m m rfl
  generalize runUntil stops cfg fuel p m = r at hrun
  cases hrun with
  | ok _ _ hv hsettles =>
    intro hfirst
    rw [hv.eq_of_hasClosure_eq_false (Expr.hasClosure_of_isFirstOrder hfirst)]
    exact ⟨_, hsettles⟩
  | error _ _ he hsettles => exact ⟨_, _, he, hsettles⟩
  | outOfFuel => trivial

/-- A program that makes no test for equality and its lifted form lead to the same data, or to a fault
of the same kind. -/
theorem run_lift {source : String} {p l : Expr} (hp : parse source = .ok p)
    (hequal : "==" ∉ p.identifiers) (hnotEqual : "!=" ∉ p.identifiers) (hl : lift p = .ok l)
    (cfg : Config) (fuel : Nat) (m : Machine) :
    match run cfg fuel p m with
    | .ok v _ => v.isFirstOrder → ∃ m', Settles (fun k => run cfg k l m) (.ok v m')
    | .error (.error e) _ => ∃ e' m', e.fault.Similar e'.fault ∧
        Settles (fun k => run cfg k l m) (.error (.error e') m')
    | .error .outOfFuel _ => True := by
  rw [← runUntil_never]
  exact runUntil_lift (isCode_timely (isCode_of_parse hp)) hl
    (fun h => absurd h (not_or.2 ⟨hequal, hnotEqual⟩)) cfg fuel m

/-- The guard of `f` sees the outer `x`, which the row binds again after it, and `f` calls itself. -/
def reboundInGuard : String :=
  "let x = 3 let f = { n : (> n x) x -> [n x { y -> (+ y x) }] n x -> (f (+ n 1) x) } " ++
    "({ [n : [x : [g : []]]] -> [n x (g 10)] } (f 1 2))"

theorem run_lift_reboundInGuard :
    ∃ p l v m m', parse reboundInGuard = .ok p ∧ "==" ∉ p.identifiers ∧ "!=" ∉ p.identifiers ∧
      lift p = .ok l ∧ run {} 64 p {} = .ok v m ∧ v.render = "[4 2 12]" ∧
        Settles (fun k => run {} k l {}) (.ok v m') := by
  have hall : ((parse reboundInGuard).toOption.bind fun p => (lift p).toOption.bind fun _ =>
      ((run {} 64 p).value? {}).map fun v => (decide ("==" ∈ p.identifiers),
        decide ("!=" ∈ p.identifiers), v.isFirstOrder, v.render)) =
          some (false, false, true, "[4 2 12]") := by decide +kernel
  obtain ⟨p, l, hp, hl, hall⟩ := exists_parse_lift hall
  obtain ⟨v, hv, hall⟩ := Option.map_eq_some_iff.1 hall
  simp only [Prod.mk.injEq, decide_eq_false_iff_not] at hall
  obtain ⟨hequal, hnotEqual, hfirst, hrender⟩ := hall
  obtain ⟨m, hrun⟩ := Eval.exists_ok_of_value? hv
  have h := run_lift hp hequal hnotEqual hl {} 64 {}
  rw [hrun] at h
  obtain ⟨m', hsettles⟩ := h hfirst
  exact ⟨p, l, v, m, m', hp, hequal, hnotEqual, hl, hrun, hrender, hsettles⟩

end ClauseLang
