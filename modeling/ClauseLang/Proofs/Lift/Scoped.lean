import ClauseLang.Proofs.Lift.Alike
import ClauseLang.Proofs.Machine.Ensures
import ClauseLang.Proofs.Machine.Throughout

/-!
Names that a run does not find. If a program can be lifted, the names inside its patterns are all
accounted for: every closure has been closed over a scope in which the free names of its clauses stand
for something. So a name that is not found was used outside all patterns.
-/

namespace ClauseLang

namespace Expr

mutual

/-- The names that are used outside all patterns, at a place where no `letIn` binds them. -/
def looseNames : Expr → List String
  | .identifier name => [name]
  | .application items | .list items => itemsLoose items
  | .cons head tail => head.looseNames ++ tail.looseNames
  | .letIn names values body => bindingsLoose names values body.looseNames
  | .guarded inner condition _ => inner.looseNames ++ condition.looseNames
  | .pattern _ _ | .label _ | .text _ | .number _ | .builtin _ => []

def itemsLoose : List Expr → List String
  | [] => []
  | item :: items => item.looseNames ++ itemsLoose items

/-- The loose names of the values of a `letIn`, and those of the rest of it. -/
def bindingsLoose : List String → List Expr → List String → List String
  | name :: names, value :: values, rest =>
    value.looseNames ++ without (boundNames (.identifier name)) (bindingsLoose names values rest)
  | _, _, rest => rest

end

mutual

/-- The names that are free in an expression because they are free in one of its patterns. -/
def enclosedNames : Expr → List String
  | .pattern clauses _ => clausesFree clauses
  | .application items | .list items => itemsEnclosed items
  | .cons head tail => head.enclosedNames ++ tail.enclosedNames
  | .letIn names values body => bindingsEnclosed names values body.enclosedNames
  | .guarded inner condition _ => inner.enclosedNames ++ condition.enclosedNames
  | .identifier _ | .label _ | .text _ | .number _ | .builtin _ => []

def itemsEnclosed : List Expr → List String
  | [] => []
  | item :: items => item.enclosedNames ++ itemsEnclosed items

def bindingsEnclosed : List String → List Expr → List String → List String
  | name :: names, value :: values, rest =>
    (if value.isPattern then without (boundNames (.identifier name)) value.enclosedNames
      else value.enclosedNames) ++
      without (boundNames (.identifier name)) (bindingsEnclosed names values rest)
  | _, _, rest => rest

end

mutual

theorem mem_free_iff {x : String} : ∀ {e : Expr},
    x ∈ e.free ↔ x ∈ e.looseNames ∨ x ∈ e.enclosedNames
  | .identifier name => by simp [free, looseNames, enclosedNames]
  | .application items | .list items => by
    rw [free, looseNames, enclosedNames]
    exact mem_itemsFree_iff
  | .cons head tail => by
    rw [free, looseNames, enclosedNames, List.mem_append, List.mem_append, List.mem_append,
      mem_free_iff (e := head), mem_free_iff (e := tail)]
    exact or_or_or_comm
  | .letIn names values body => by
    rw [free, looseNames, enclosedNames]
    exact mem_bindingsFree_iff mem_free_iff
  | .guarded inner condition _ => by
    rw [free, looseNames, enclosedNames, List.mem_append, List.mem_append, List.mem_append,
      mem_free_iff (e := inner), mem_free_iff (e := condition)]
    exact or_or_or_comm
  | .pattern clauses _ => by simp [free, looseNames, enclosedNames]
  | .label _ | .text _ | .number _ | .builtin _ => by simp [free, looseNames, enclosedNames]

theorem mem_itemsFree_iff {x : String} : ∀ {items : List Expr},
    x ∈ itemsFree items ↔ x ∈ itemsLoose items ∨ x ∈ itemsEnclosed items
  | [] => by simp [itemsFree, itemsLoose, itemsEnclosed]
  | item :: items => by
    have hrest : x ∈ itemsFree items ↔ x ∈ itemsLoose items ∨ x ∈ itemsEnclosed items :=
      mem_itemsFree_iff
    rw [itemsFree, itemsLoose, itemsEnclosed, List.mem_append, List.mem_append, List.mem_append,
      mem_free_iff (e := item), hrest]
    exact or_or_or_comm

theorem mem_bindingsFree_iff {x : String} {rest loose enclosed : List String}
    (hrest : x ∈ rest ↔ x ∈ loose ∨ x ∈ enclosed) : ∀ {names : List String} {values : List Expr},
    x ∈ bindingsFree names values rest ↔
      x ∈ bindingsLoose names values loose ∨ x ∈ bindingsEnclosed names values enclosed
  | [], _ => by simpa [bindingsFree, bindingsLoose, bindingsEnclosed] using hrest
  | _ :: _, [] => by simpa [bindingsFree, bindingsLoose, bindingsEnclosed] using hrest
  | name :: names, value :: values => by
    have hvalue : x ∈ value.free ↔ x ∈ value.looseNames ∨ x ∈ value.enclosedNames := mem_free_iff
    have hlater : x ∈ bindingsFree names values rest ↔
        x ∈ bindingsLoose names values loose ∨ x ∈ bindingsEnclosed names values enclosed :=
      mem_bindingsFree_iff hrest
    rw [bindingsFree, bindingsLoose, bindingsEnclosed]
    cases hpattern : value.isPattern with
    | false =>
      simp only [Bool.false_eq_true, if_false, List.mem_append, mem_without, hvalue, hlater]
      grind
    | true =>
      have hloose : value.looseNames = [] := by
        cases value with
        | pattern => rfl
        | _ => cases hpattern
      simp only [if_true, List.mem_append, mem_without, hvalue, hlater, hloose, List.not_mem_nil]
      grind

end

end Expr

def Env.Knows (env : Env) (x : String) : Prop :=
  x = discard ∨ (env.get? x).isSome

section

variable {env : Env} {x : String}

theorem Env.knows_extend {values : List (String × Expr)} (mark : Nat) :
    (env.extend mark values).Knows x ↔ x ∈ values.map Prod.fst ∨ env.Knows x := by
  unfold Knows
  by_cases hx : x = discard
  · simp [hx]
  · rw [get?_extend _ hx]
    by_cases hmem : x ∈ values.map Prod.fst
    · simp [isSome_heldFor hmem, hmem, Option.isSome_or]
    · simp [heldFor_eq_none hmem, hmem]

theorem Env.knows_extendRecursive {name : String} {clauses : List Clause} (mark : Nat) :
    (env.extendRecursive mark name clauses).Knows x ↔ x = name ∨ env.Knows x := by
  unfold Knows
  by_cases hx : x = discard
  · simp [hx]
  · rw [get?_extendRecursive _ _ _ hx]
    by_cases hname : name = x
    · simp [hname]
    · simp [hname, Ne.symm hname]

theorem Env.knows_withBuiltins (mark : Nat) (h : x ∈ Builtin.names) :
    (Env.withBuiltins mark).Knows x := by
  rw [Knows, rootValue_eq]
  exact .inr (isSome_rootValue h)

end

/-- The clause is code, and its free names stand for something in its scope. -/
def IsScoped (clause : Clause) (env : Env) : Prop :=
  IsClause clause.row.length clause ∧
    ∀ x ∈ Expr.rowFree clause.row clause.body.free, env.Knows x

/-- If a name is not found, it is `_`, or one of those that may be missing and not used in the body of
a clause. -/
def Misses (missing : List String) (e : RuntimeError) : Prop :=
  ∀ x, e.fault = .unbound x → x = discard ∨ x ∈ missing ∧ .clauseBody ∉ e.trail

/-- Of the names of an expression, those in patterns stand for something, and the loose ones do or may
be missing. -/
def Covers (missing : List String) (env : Env) (enclosed loose : List String) : Prop :=
  (∀ x ∈ enclosed, env.Knows x) ∧ ∀ x ∈ loose, env.Knows x ∨ x ∈ missing

theorem Covers.of_subset {missing : List String} {env : Env}
    {enclosed enclosed' loose loose' : List String} (h : Covers missing env enclosed loose)
    (he : enclosed' ⊆ enclosed) (hl : loose' ⊆ loose) : Covers missing env enclosed' loose' :=
  ⟨fun x hx => h.1 x (he hx), fun x hx => h.2 x (hl hx)⟩

/-- Evaluation finds all names that need not be missing. -/
def Evaluator.Finds (ev : Evaluator) : Prop :=
  ∀ {missing e env} safe, IsCode e → Covers missing env e.enclosedNames e.looseNames →
    ThroughoutScope IsScoped env →
      (ev e env safe).Reports (Throughout IsScoped) (Misses missing)

section

open Eval

variable {missing : List String} {cfg : Config} {ev : Evaluator} {env : Env}

theorem misses_of_ne {fault : Fault} (h : ∀ x, fault ≠ .unbound x) : Misses missing { fault } :=
  fun x hx => absurd hx (h x)

theorem misses_of_isNative {fault : Fault} (h : fault.isNative) : Misses missing { fault } := by
  refine misses_of_ne ?_
  rintro x rfl
  cases h

theorem during_finds {α : Type} {P : α → Prop} {x : Eval α} (step : Step)
    (hstep : step ≠ .clauseBody) (h : x.Reports P (Misses missing)) :
    (Eval.during step x).Reports P (Misses missing) := by
  refine h.during fun e he y hy => (he y hy).imp_right fun ⟨hmem, hbody⟩ => ⟨hmem, ?_⟩
  rw [List.mem_cons]
  exact fun h => h.elim (fun h => hstep h.symm) hbody

theorem ofExcept_finds {r : Except Fault Expr} (h : Computed (Throughout IsScoped) r) :
    (Eval.ofExcept r).Reports (Throughout IsScoped) (Misses missing) := by
  cases h with
  | ok h => exact .pure h
  | error h => exact .fail (misses_of_isNative h)

theorem call_finds (cfg : Config) {op : Builtin} (hop : Throughout IsScoped (.builtin op))
    {argument : Expr} (ha : Throughout IsScoped argument) (safe : Bool) :
    (op.call cfg argument safe).Reports (Throughout IsScoped) (Misses missing) := by
  have hdata := ofData_throughout IsScoped
  cases hop with
  | unary op =>
    cases op with
    | abs => exact ofExcept_finds (computed_absolute hdata argument)
    | len => exact ofExcept_finds (computed_size hdata argument)
    | print => exact (Reports.print (P := fun _ => True) trivial).bind fun _ _ => .pure ha
  | binary op => exact .pure (.waiting op ha)
  | waiting op hl => exact ofExcept_finds (op.computed_compute hdata hl ha)

/-- What a match binds: the names of the formal, to parts of the argument. -/
def BindsNames (names : List String) (r : Option (List (String × Expr))) : Prop :=
  ∀ bound, r = some bound → bound.map Prod.fst = names ∧ ThroughoutValues IsScoped bound

theorem bindsNames_none (names : List String) : BindsNames names none := by
  intro bound h
  cases h

theorem bindsNames_ite {names : List String} {bound : List (String × Expr)} (b : Bool)
    (hnames : bound.map Prod.fst = names) (hb : ThroughoutValues IsScoped bound) :
    BindsNames names (if b then some bound else none) := by
  intro bound' h
  split at h
  · cases h
    exact ⟨hnames, hb⟩
  · cases h

theorem matchInto_finds_of_isSimple {formal argument : Expr} {bound : List (String × Expr)}
    (hf : IsSimple formal) (ha : Throughout IsScoped argument)
    (hb : ThroughoutValues IsScoped bound) :
    (matchInto ev env formal argument bound).Reports
      (BindsNames (bound.map Prod.fst ++ formal.boundNames)) (Misses missing) := by
  cases hf with
  | identifier name =>
    refine Reports.pure ?_
    rintro _ ⟨rfl⟩
    rw [Expr.boundNames]
    split
    · exact ⟨(List.append_nil _).symm, hb⟩
    · refine ⟨by simp, fun p hp => ?_⟩
      rcases List.mem_append.1 hp with hp | hp
      · exact hb p hp
      · rw [List.mem_singleton.1 hp]
        exact ha
  | label | text | number | list =>
    exact Reports.pure (bindsNames_ite _ (List.append_nil _).symm hb)
  | @cons _ head tail hh ht =>
    rw [matchInto]
    cases hs : split? head argument with
    | none => exact Reports.pure (bindsNames_none _)
    | some parts =>
      obtain ⟨front, rest⟩ := parts
      obtain ⟨hfront, hrest⟩ := (ofData_throughout IsScoped).of_split? ha hs
      refine (matchInto_finds_of_isSimple hh hfront hb).bind fun r hr => ?_
      cases r with
      | none => exact Reports.pure (bindsNames_none _)
      | some bound' =>
        obtain ⟨hnames, hbound⟩ := hr bound' rfl
        have htail : (matchInto ev env tail rest bound').Reports
            (BindsNames (bound'.map Prod.fst ++ tail.boundNames)) (Misses missing) :=
          matchInto_finds_of_isSimple ht hrest hbound
        rwa [hnames, List.append_assoc] at htail
termination_by sizeOf formal

/-- Guards are evaluated in safe mode, where nothing fails. -/
theorem matchInto_finds {fuel : Nat} {formal argument : Expr} (hf : IsFormal formal)
    (ha : Throughout IsScoped argument) :
    (matchInto (eval cfg fuel) env formal argument []).Reports (BindsNames formal.boundNames)
      (Misses missing) := by
  have hnone : ThroughoutValues IsScoped [] := by simp [ThroughoutValues]
  cases hf with
  | simple hf => exact matchInto_finds_of_isSimple hf ha hnone
  | guarded name constant hc =>
    rw [matchInto]
    refine (matchInto_finds_of_isSimple (.identifier name) ha hnone).bind fun r hr => ?_
    cases r with
    | none => exact .pure (bindsNames_none _)
    | some bound =>
      obtain ⟨hnames, hbound⟩ := hr bound rfl
      refine (Reports.extend (P := fun _ => True) fun _ => trivial).bind fun scope _ => ?_
      refine (Reports.mono (eval_safe_ensures cfg fuel _ scope) (fun _ => id)
        fun _ h => h.elim).bind fun verdict _ => .pure ?_
      exact bindsNames_ite _ hnames hbound

theorem IsScoped.advance {formal : Expr} {row : List Expr} {body : Expr}
    {bound : List (String × Expr)} (h : IsScoped (.mk (formal :: row) body) env)
    (hbound : bound.map Prod.fst = formal.boundNames) (mark : Nat) :
    IsScoped (.mk row body) (env.extend mark bound) := by
  obtain ⟨hclause, hknows⟩ := h
  refine ⟨?_, fun x hx => ?_⟩
  · exact .mk (fun f hf => hclause.isFormal_of_mem f (List.mem_cons_of_mem _ hf))
      hclause.isCode_body
  · rw [Env.knows_extend, hbound]
    by_cases hbinds : x ∈ formal.boundNames
    · exact .inl hbinds
    · refine .inr (hknows x ?_)
      rw [Clause.row, Expr.rowFree, List.mem_append, Expr.mem_without]
      exact .inr ⟨hx, hbinds⟩

theorem advance_finds {fuel : Nat} {argument : Expr} (ha : Throughout IsScoped argument)
    {stage : Clause × Env}
    (hstage : IsScoped stage.1 stage.2 ∧ ThroughoutScope IsScoped stage.2) :
    (advance (eval cfg fuel) argument stage).Reports (fun r =>
      ∀ s, r = some s → IsScoped s.1 s.2 ∧ ThroughoutScope IsScoped s.2)
      (Misses missing) := by
  obtain ⟨⟨row, body⟩, env⟩ := stage
  obtain ⟨hscoped, henv⟩ := hstage
  cases row with
  | nil => exact .fail (misses_of_ne (by simp))
  | cons formal row =>
    have hformal : IsFormal formal := hscoped.1.isFormal_of_mem formal List.mem_cons_self
    have hmatch : (tryMatch (eval cfg fuel) formal argument env).Reports (fun r =>
        ∀ scope, r = some scope → IsScoped (.mk row body) scope ∧ ThroughoutScope IsScoped scope)
        (Misses missing) := by
      refine (matchInto_finds hformal ha).bind fun r hr => ?_
      cases r with
      | none => exact .pure (by simp)
      | some bound =>
        obtain ⟨hnames, hbound⟩ := hr bound rfl
        have hextend : (Eval.extend env bound).Reports (fun scope =>
            IsScoped (.mk row body) scope ∧ ThroughoutScope IsScoped scope)
            (Misses missing) :=
          .extend fun mark => ⟨hscoped.advance hnames mark, henv.extend hbound mark⟩
        refine hextend.bind fun scope hscope => .pure ?_
        rintro _ ⟨rfl⟩
        exact hscope
    refine hmatch.bind fun r hr => ?_
    cases r with
    | none => exact .pure (by simp)
    | some scope =>
      refine .pure ?_
      rintro _ ⟨rfl⟩
      exact hr scope rfl

theorem surviving_finds {fuel : Nat} {argument : Expr} (ha : Throughout IsScoped argument)
    {stages : List (Clause × Env)} (hstages : ThroughoutStages IsScoped stages) :
    (surviving (eval cfg fuel) argument stages).Reports (ThroughoutStages IsScoped)
      (Misses missing) := by
  induction stages with
  | nil => exact .pure (by simp [ThroughoutStages])
  | cons stage stages ih =>
    simp only [ThroughoutStages, List.mem_cons, forall_eq_or_imp] at hstages
    refine (advance_finds ha hstages.1).bind fun r hr => ?_
    cases r with
    | none => exact ih hstages.2
    | some next =>
      refine (ih hstages.2).bind fun left hleft => .pure ?_
      intro s hs
      rcases List.mem_cons.1 hs with rfl | hs
      · exact hr s rfl
      · exact hleft s hs

theorem IsScoped.covers {clause : Clause} (h : IsScoped clause env) (hrow : clause.row = []) :
    Covers missing env clause.body.enclosedNames clause.body.looseNames := by
  have hknows : ∀ x ∈ clause.body.free, env.Knows x := by
    have h := h.2
    rwa [hrow, Expr.rowFree] at h
  exact ⟨fun x hx => hknows x (Expr.mem_free_iff.2 (.inr hx)),
    fun x hx => .inl (hknows x (Expr.mem_free_iff.2 (.inl hx)))⟩

theorem applyPattern_finds {fuel : Nat} (hev : (eval cfg fuel).Finds)
    {clauses : List Clause} {captured : List Env}
    (hv : Throughout IsScoped (.pattern clauses captured)) {argument : Expr}
    (ha : Throughout IsScoped argument) :
    (applyPattern cfg (eval cfg fuel) clauses captured argument).Reports (Throughout IsScoped)
      (Misses missing) := by
  unfold applyPattern
  split
  · exact .fail (misses_of_ne (by simp))
  · rw [survivors_eq]
    refine (surviving_finds ha hv.stages).bind fun stages hstages => ?_
    cases stages with
    | nil => exact .fail (misses_of_ne (by simp))
    | cons first others =>
      obtain ⟨hfirst, hscope⟩ := hstages first List.mem_cons_self
      dsimp only
      split
      · exact .fail (misses_of_ne (by simp))
      next harity =>
        have hrow : first.1.row = [] :=
          List.length_eq_zero_iff.1 (commonArity_eq_ok_iff.1 harity).1.symm
        have hbody : (saturate cfg (eval cfg fuel) first.1.body first.2).Reports (Throughout IsScoped)
            (Misses []) :=
          .saturate (hev false hfirst.1.isCode_body (hfirst.covers hrow) hscope)
            (misses_of_ne (by simp))
        exact hbody.during fun e he x hx => (he x hx).imp_right fun ⟨hmem, _⟩ => nomatch hmem
      · exact .pure (throughout_ofStages hstages)

theorem apply_finds {fuel : Nat} (hev : (eval cfg fuel).Finds) {callee argument : Expr}
    (hv : Throughout IsScoped callee) (ha : Throughout IsScoped argument) (safe : Bool) :
    (apply cfg (eval cfg fuel) callee argument safe).Reports (Throughout IsScoped)
      (Misses missing) := by
  refine Reports.contain ?_ throughout_falsy
  cases id hv with
  | closure => exact applyPattern_finds hev hv ha
  | unary | binary | waiting => exact during_finds (.builtin _) (by simp) (call_finds cfg hv ha safe)
  | label | text | number | list => exact .fail (misses_of_ne (by simp))

theorem evalElements_finds (hev : ev.Finds) (henv : ThroughoutScope IsScoped env)
    (safe : Bool) (index : Nat) {items : List Expr} (hitems : ∀ item ∈ items, IsCode item)
    (hcovers : Covers missing env (Expr.itemsEnclosed items) (Expr.itemsLoose items)) :
    (evalElements ev env safe index items).Reports (fun values => ∀ v ∈ values, Throughout IsScoped v)
      (Misses missing) := by
  induction items generalizing index with
  | nil => exact .pure (by simp)
  | cons item items ih =>
    simp only [List.mem_cons, forall_eq_or_imp] at hitems
    rw [Expr.itemsEnclosed, Expr.itemsLoose] at hcovers
    have hfirst := hcovers.of_subset (List.subset_append_left _ _) (List.subset_append_left _ _)
    have hrest := hcovers.of_subset (List.subset_append_right _ _) (List.subset_append_right _ _)
    refine (during_finds (.element index) (by simp) (hev safe hitems.1 hfirst henv)).bind fun v hv => ?_
    exact (ih (index + 1) hitems.2 hrest).bind fun vs hvs => .pure (by simpa using ⟨hv, hvs⟩)

theorem applyAll_finds {fuel : Nat} (hev : (eval cfg fuel).Finds)
    (henv : ThroughoutScope IsScoped env) (safe : Bool) (position : Nat) {callee : Expr}
    (hv : Throughout IsScoped callee) {items : List Expr} (hitems : ∀ item ∈ items, IsCode item)
    (hcovers : Covers missing env (Expr.itemsEnclosed items) (Expr.itemsLoose items)) :
    (applyAll cfg (eval cfg fuel) env safe position callee items).Reports (Throughout IsScoped)
      (Misses missing) := by
  induction items generalizing position callee with
  | nil => exact .pure hv
  | cons item items ih =>
    simp only [List.mem_cons, forall_eq_or_imp] at hitems
    rw [Expr.itemsEnclosed, Expr.itemsLoose] at hcovers
    have hfirst := hcovers.of_subset (List.subset_append_left _ _) (List.subset_append_left _ _)
    have hrest := hcovers.of_subset (List.subset_append_right _ _) (List.subset_append_right _ _)
    refine (during_finds (.argument position) (by simp) (hev safe hitems.1 hfirst henv)).bind
      fun argument ha => ?_
    exact (during_finds (.apply position) (by simp) (apply_finds hev hv ha safe)).bind
      fun value hvalue => ih (position + 1) hvalue hitems.2 hrest

/-- A name that a `letIn` binds is known in the rest of it. -/
theorem Covers.bind {scope : Env} {name : String} {enclosed loose : List String}
    (h : Covers missing env (Expr.without (Expr.boundNames (.identifier name)) enclosed)
      (Expr.without (Expr.boundNames (.identifier name)) loose))
    (hscope : ∀ x, x = name ∨ env.Knows x → scope.Knows x) :
    Covers missing scope enclosed loose := by
  have hname {x : String} (hx : x ∈ Expr.boundNames (.identifier name)) : scope.Knows x :=
    hscope x (.inl (mem_boundNames_identifier.1 hx).1)
  refine ⟨fun x hx => ?_, fun x hx => ?_⟩
  · by_cases hbound : x ∈ Expr.boundNames (.identifier name)
    · exact hname hbound
    · exact hscope x (.inr (h.1 x (Expr.mem_without.2 ⟨hx, hbound⟩)))
  · by_cases hbound : x ∈ Expr.boundNames (.identifier name)
    · exact .inl (hname hbound)
    · exact (h.2 x (Expr.mem_without.2 ⟨hx, hbound⟩)).imp_left fun hk => hscope x (.inr hk)

theorem evalBindings_finds (hev : ev.Finds) (safe : Bool) {names : List String}
    {values : List Expr} {enclosed loose : List String} (hvalues : ∀ value ∈ values, IsCode value)
    (henv : ThroughoutScope IsScoped env)
    (hcovers : Covers missing env (Expr.bindingsEnclosed names values enclosed)
      (Expr.bindingsLoose names values loose)) :
    (evalBindings ev safe names values env).Reports
      (fun scope => ThroughoutScope IsScoped scope ∧ Covers missing scope enclosed loose)
      (Misses missing) := by
  induction names generalizing values env with
  | nil =>
    rw [Expr.bindingsEnclosed, Expr.bindingsLoose] at hcovers
    · exact .pure ⟨henv, hcovers⟩
    all_goals simp
  | cons name names ih =>
    cases values with
    | nil =>
      rw [Expr.bindingsEnclosed, Expr.bindingsLoose] at hcovers
      · exact .pure ⟨henv, hcovers⟩
      all_goals simp
    | cons value values =>
      simp only [List.mem_cons, forall_eq_or_imp] at hvalues
      rw [Expr.bindingsEnclosed, Expr.bindingsLoose] at hcovers
      have hrest := hcovers.of_subset (List.subset_append_right _ _)
        (List.subset_append_right _ _)
      have hvalue := hcovers.of_subset (List.subset_append_left _ _) (List.subset_append_left _ _)
      by_cases hpattern : value.isPattern
      · obtain ⟨clauses, rfl, arity, -, -, hclauses⟩ :=
          Lifting.exists_clauses_of_isPattern hvalues.1 hpattern
        rw [if_pos hpattern, Expr.enclosedNames] at hvalue
        have hscope (mark : Nat) (x : String) :
            x = name ∨ env.Knows x → (env.extendRecursive mark name clauses).Knows x :=
          (Env.knows_extendRecursive mark).2
        have hpatterns : Covers missing env
            (Expr.without (Expr.boundNames (.identifier name)) (Expr.clausesFree clauses))
            (Expr.without (Expr.boundNames (.identifier name)) []) :=
          hvalue.of_subset (List.Subset.refl _) (by simp [Expr.without])
        have hknows (mark : Nat) : ∀ x ∈ Expr.clausesFree clauses,
            (env.extendRecursive mark name clauses).Knows x :=
          (hpatterns.bind (hscope mark)).1
        have hscoped (mark : Nat) : ∀ clause ∈ clauses,
            IsScoped clause (env.extendRecursive mark name clauses) := by
          rintro ⟨row, body⟩ hclause
          refine ⟨?_, fun x hx => hknows mark x (Expr.mem_clausesFree hclause hx)⟩
          have hlength := (hclauses _ hclause).length_row
          exact hlength ▸ hclauses _ hclause
        have hextend : (Eval.extendRecursive env name clauses).Reports (fun scope =>
            ThroughoutScope IsScoped scope ∧
              Covers missing scope (Expr.bindingsEnclosed names values enclosed)
                (Expr.bindingsLoose names values loose)) (Misses missing) :=
          .extendRecursive fun mark =>
            ⟨henv.extendRecursive mark name fun _ => hscoped mark, hrest.bind (hscope mark)⟩
        exact hextend.bind fun scope hscope => ih hvalues.2 hscope.1 hscope.2
      · have hne : ∀ clauses, value ≠ .pattern clauses [] := by
          rintro clauses rfl
          exact hpattern rfl
        rw [if_neg hpattern] at hvalue
        rw [evalBindings_of_ne ev safe name names values env hne]
        refine (during_finds (.binding name) (by simp) (hev safe hvalues.1 hvalue henv)).bind
          fun held hheld => ?_
        have hone : ThroughoutValues IsScoped [(name, held)] := by
          simpa [ThroughoutValues] using hheld
        have hextend : (Eval.extend env [(name, held)]).Reports (fun scope =>
            ThroughoutScope IsScoped scope ∧
              Covers missing scope (Expr.bindingsEnclosed names values enclosed)
                (Expr.bindingsLoose names values loose)) (Misses missing) :=
          .extend fun mark => ⟨henv.extend hone mark, hrest.bind fun x hx =>
            (Env.knows_extend mark).2 (by simpa using hx)⟩
        exact hextend.bind fun scope hscope => ih hvalues.2 hscope.1 hscope.2

theorem evalLevel_finds {fuel : Nat} (hev : (eval cfg fuel).Finds) {e : Expr}
    (he : IsCode e) (hcovers : Covers missing env e.enclosedNames e.looseNames)
    (henv : ThroughoutScope IsScoped env) (safe : Bool) :
    (evalLevel cfg (eval cfg fuel) e env safe).Reports (Throughout IsScoped)
      (Misses missing) := by
  cases he with
  | identifier name =>
    rw [evalLevel]
    cases hget : env.get? name with
    | some v => exact .pure (henv.of_get? hget)
    | none =>
      refine .fail ?_
      rintro _ ⟨rfl⟩
      rcases hcovers.2 name (by simp [Expr.looseNames]) with (hx | hx) | hx
      · exact .inl hx
      · rw [hget] at hx
        cases hx
      · exact .inr ⟨hx, List.not_mem_nil⟩
  | label name => exact .pure (.label name)
  | text value => exact .pure (.text value)
  | number value => exact .pure (.number value)
  | @application _ items hitems =>
    cases items with
    | nil => exact .fail (misses_of_ne (by simp))
    | cons item items =>
      simp only [List.mem_cons, forall_eq_or_imp] at hitems
      rw [Expr.enclosedNames, Expr.looseNames, Expr.itemsEnclosed, Expr.itemsLoose] at hcovers
      have hfirst := hcovers.of_subset (List.subset_append_left _ _) (List.subset_append_left _ _)
      have hrest := hcovers.of_subset (List.subset_append_right _ _) (List.subset_append_right _ _)
      exact (during_finds .callee (by simp) (hev safe hitems.1 hfirst henv)).bind fun callee hcallee =>
        applyAll_finds hev henv safe 1 hcallee hitems.2 hrest
  | list hitems =>
    exact (evalElements_finds hev henv safe 0 hitems hcovers).bind fun vs hvs => .pure (.list hvs)
  | letIn _ hvalues hbody =>
    exact (evalBindings_finds hev safe hvalues henv hcovers).bind fun scope hscope =>
      during_finds .letBody (by simp) (hev safe hbody hscope.2 hscope.1)
  | @pattern _ arity clauses _ _ hclauses =>
    refine .pure (throughout_closeOver ?_ henv)
    rintro ⟨row, body⟩ hclause
    refine ⟨?_, fun x hx => hcovers.1 x (Expr.mem_clausesFree hclause hx)⟩
    have hlength := (hclauses _ hclause).length_row
    exact hlength ▸ hclauses _ hclause

theorem eval_finds (cfg : Config) (fuel : Nat) : (eval cfg fuel).Finds := by
  induction fuel with
  | zero => exact fun _ _ _ _ _ => trivial
  | succ fuel ih =>
    intro missing e env safe he hcovers henv
    rw [eval_succ]
    exact .contain (evalLevel_finds ih he hcovers henv safe) throughout_falsy

end

section

variable {voc : Vocabulary} {x : String}

theorem LiftedPattern.known {table : LiftTable} {defined : List String} {self : Option String}
    {clauses : List Clause} {e' : Expr}
    (h : LiftedPattern voc false table defined self clauses e')
    (hx : x ∈ Expr.clausesFree clauses) :
    x = discard ∨ self = some x ∨ x ∈ defined ∨ x ∈ voc.builtins := by
  cases h with
  | lifted hcaptured =>
    have hknown := (freeNames_accounts hcaptured).1.known x hx
    simpa using hknown

mutual

/-- Lifting accounts for all names in patterns. -/
theorem Lifted.known {table : LiftTable} {defined : List String} {e e' : Expr}
    (h : Lifted voc false table defined e e') (hx : x ∈ e.enclosedNames) :
    x = discard ∨ x ∈ defined ∨ x ∈ voc.builtins := by
  match e, h with
  | _, .identifier _ | _, .label _ | _, .text _ | _, .number _ => cases hx
  | .application items, .application h | .list items, .list h => exact h.known hx
  | .letIn names values body, .letIn hb h => exact hb.known (fun hx => h.known hx) hx
  | .pattern clauses _, .pattern h => simpa using h.known hx
termination_by sizeOf e

theorem LiftedItems.known {table : LiftTable} {defined : List String} {items items' : List Expr}
    (h : LiftedItems voc false table defined items items') (hx : x ∈ Expr.itemsEnclosed items) :
    x = discard ∨ x ∈ defined ∨ x ∈ voc.builtins := by
  match items, h with
  | [], .nil => cases hx
  | item :: items, .cons h hs =>
    rw [Expr.itemsEnclosed, List.mem_append] at hx
    exact hx.elim h.known hs.known
termination_by sizeOf items

theorem LiftedBindings.known {table : LiftTable} {defined inner names rest : List String}
    {values values' : List Expr}
    (h : LiftedBindings voc false table defined names values values' inner)
    (hrest : x ∈ rest → x = discard ∨ x ∈ inner ∨ x ∈ voc.builtins)
    (hx : x ∈ Expr.bindingsEnclosed names values rest) :
    x = discard ∨ x ∈ defined ∨ x ∈ voc.builtins := by
  match names, values, h with
  | [], [], .nil => exact hrest hx
  | name :: names, .pattern clauses _ :: values, .pattern h hs =>
    rw [Expr.bindingsEnclosed, Expr.isPattern, if_pos rfl, Expr.enclosedNames, List.mem_append,
      Expr.mem_without, Expr.mem_without] at hx
    rcases hx with ⟨hx, hname⟩ | ⟨hx, hname⟩
    · have hknown := h.known hx
      rw [mem_boundNames_identifier] at hname
      grind
    · have hknown := hs.known hrest hx
      rw [mem_boundNames_identifier] at hname
      grind
  | name :: names, value :: values, .value hpattern h hs =>
    rw [Expr.bindingsEnclosed, hpattern, if_neg Bool.false_ne_true, List.mem_append,
      Expr.mem_without] at hx
    rcases hx with hx | ⟨hx, hname⟩
    · exact h.known hx
    · have hknown := hs.known hrest hx
      rw [mem_boundNames_identifier] at hname
      grind
termination_by sizeOf values

end

end

/-- If a program that can be lifted does not find a name, the name is `_`, or it is used outside all
patterns and bound by no `letIn` around it; and it was not needed for the body of a clause. -/
theorem unbound_isLoose {source : String} {p l : Expr} (hp : parse source = .ok p)
    (hl : lift p = .ok l) {cfg : Config} {fuel : Nat} {m m' : Machine} {e : RuntimeError}
    {x : String} (hrun : run cfg fuel p m = .error (.error e) m') (hx : e.fault = .unbound x) :
    x = discard ∨ x ∈ p.looseNames ∧ .clauseBody ∉ e.trail := by
  have hcode := isCode_of_parse hp
  obtain ⟨voc, table, body, hbuiltins, hlifts, -⟩ := liftsTo_of_lift hcode hl
  have hcovers (mark : Nat) :
      Covers p.looseNames (.withBuiltins mark) p.enclosedNames p.looseNames := by
    refine ⟨fun y hy => ?_, fun y hy => .inr hy⟩
    rcases hlifts.lifted.known hy with h | h | h
    · exact .inl h
    · cases h
    · exact Env.knows_withBuiltins mark (hbuiltins ▸ h)
  have hroot : Eval.freshRoot.Reports (fun root => ThroughoutScope IsScoped root ∧
      Covers p.looseNames root p.enclosedNames p.looseNames) (Misses p.looseNames) :=
    .freshRoot fun mark => ⟨.withBuiltins mark, hcovers mark⟩
  have hfinds : (run cfg fuel p).Reports (Throughout IsScoped) (Misses p.looseNames) :=
    hroot.bind fun root h => eval_finds cfg fuel false hcode h.2 h.1
  have hfault := hfinds m
  rw [hrun] at hfault
  exact hfault x hx

def Eval.missed? {α : Type} (x : Eval α) (m : Machine) : Option String :=
  match x m with
  | .error (.error { fault := .unbound x, .. }) _ => some x
  | _ => none

theorem Eval.exists_error_of_missed? {α : Type} {x : Eval α} {m : Machine} {name : String}
    (h : x.missed? m = some name) : ∃ e m', x m = .error (.error e) m' ∧ e.fault = .unbound name := by
  unfold missed? at h
  split at h
  next name' trail m' hx =>
    cases h
    exact ⟨_, m', hx, rfl⟩
  · cases h

/-- The name `y` is bound in one pattern, captured by another, and missing outside both. -/
def missingOutside : String :=
  "let f = { y -> { x -> (+ x y) } } ((f 1) y)"

theorem unbound_isLoose_missingOutside :
    ∃ p l e m', parse missingOutside = .ok p ∧ lift p = .ok l ∧
      run {} 10 p {} = .error (.error e) m' ∧ e.fault = .unbound "y" ∧
        ("y" = discard ∨ "y" ∈ p.looseNames ∧ .clauseBody ∉ e.trail) := by
  have hall : ((parse missingOutside).toOption.bind fun p => (lift p).toOption.bind fun _ =>
      (run {} 10 p).missed? {}) = some "y" := by decide +kernel
  obtain ⟨p, l, hp, hl, hmissed⟩ := exists_parse_lift hall
  obtain ⟨e, m', hrun, hfault⟩ := Eval.exists_error_of_missed? hmissed
  exact ⟨p, l, e, m', hp, hl, hrun, hfault, unbound_isLoose hp hl hrun hfault⟩

end ClauseLang
