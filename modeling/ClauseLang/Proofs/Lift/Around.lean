import ClauseLang.Proofs.Lift.Closure
import ClauseLang.Proofs.Lift.Formal

/-!
The scopes around an expression and around its lifted form. The names that are free in the expression
stand for values that are alike, and the lifted patterns can be seen.
-/

namespace ClauseLang

open Lifting Eval

/-- The lifted patterns of the table can be seen, each as it was bound. -/
def SeesTable (table : LiftTable) (env : Env) : Prop :=
  ∀ before name clauses, before ++ [(name, clauses)] <+: table →
    ∃ top, IsTop (before ++ [(name, clauses)]) top ∧ env.get? name = some (.closeOver clauses top)

theorem optionRel_get?_discard {R : Expr → Expr → Prop} (env env' : Env) :
    OptionRel R (env.get? discard) (env'.get? discard) := by
  rw [Env.get?_discard, Env.get?_discard]
  exact .none

section

variable {voc : Vocabulary} {table table' : LiftTable} {env env' : Env}

theorem IsTop.seesTable (h : IsTop table env) (hnames : TableApart voc table) :
    SeesTable table env := by
  rintro before name clauses ⟨after, hafter⟩
  exact h.get?_of_eq hnames (by rw [← hafter, List.append_assoc]; rfl)

theorem SeesTable.mono (h : SeesTable table env) (htable : table' <+: table) :
    SeesTable table' env :=
  fun before name clauses hbefore => h before name clauses (hbefore.trans htable)

theorem SeesTable.congr (h : SeesTable table env)
    (hget : ∀ x ∈ table.map Prod.fst, env'.get? x = env.get? x) : SeesTable table env' := by
  intro before name clauses hbefore
  have hmem : name ∈ table.map Prod.fst :=
    List.mem_map.2 ⟨(name, clauses), hbefore.subset (by simp), rfl⟩
  rw [hget name hmem]
  exact h before name clauses hbefore

end

/-- The scopes of an expression with the given free names and of its lifted form. If patterns are
lifted, names that are defined stand for something, and all others for what they are in a root scope. -/
structure ScopesAlike (voc : Vocabulary) (keep : Bool) (table : LiftTable)
    (defined names : List String) (env env' : Env) : Prop where
  alike : ∀ x ∈ names, OptionRel (Alike voc) (env.get? x) (env'.get? x)
  known : keep = false → ∀ x ∈ names, x ∈ defined → x ≠ discard → (env.get? x).isSome
  root : keep = false → ∀ x ∈ names, x ∉ defined → env.get? x = rootValue x
  apart : keep = false → TableApart voc table
  table : keep = false → SeesTable table env'

/-- The scope in which a pattern is closed over: it may see itself. -/
structure IsInner (own : Option String) (clauses : List Clause) (env inner : Env) : Prop where
  get?_eq : ∀ x, own ≠ some x → inner.get? x = env.get? x
  self_eq : ∀ f, own = some f → f ≠ discard → inner.get? f = some (.closeOver clauses inner)

section

variable {voc : Vocabulary} {keep : Bool} {table : LiftTable} {defined names names' : List String}
  {env env' scope scope' : Env} {name : String}

theorem exists_holds {P : String → Expr → Prop} {f : String → String} {xs : List String}
    (h : ∀ x ∈ xs, ∃ v, scope.get? (f x) = some v ∧ P x v) :
    ∃ values, Holds scope (xs.map f) values ∧ List.Forall₂ P xs values := by
  induction xs with
  | nil => exact ⟨[], .nil, .nil⟩
  | cons x xs ih =>
    simp only [List.mem_cons, forall_eq_or_imp] at h
    obtain ⟨⟨v, hget, hv⟩, hrest⟩ := h
    obtain ⟨values, hholds, hvalues⟩ := ih hrest
    exact ⟨v :: values, .cons hget hholds, .cons hv hvalues⟩

theorem isInner_none (clauses : List Clause) (env : Env) : IsInner none clauses env env :=
  ⟨fun _ _ => rfl, by simp⟩

theorem isInner_extendRecursive (name : String) (clauses : List Clause) (env : Env) (mark : Nat) :
    IsInner (some name) clauses env (env.extendRecursive mark name clauses) where
  get?_eq x hx := Env.get?_extendRecursive_of_ne _ _ _ fun h => hx (congrArg some h.symm)
  self_eq f hf hdiscard := by
    rw [Env.get?_extendRecursive _ _ _ hdiscard, if_pos (Option.some.inj hf)]

namespace ScopesAlike

theorem of_subset (h : ScopesAlike voc keep table defined names env env') (hsubset : names' ⊆ names) :
    ScopesAlike voc keep table defined names' env env' where
  alike x hx := h.alike x (hsubset hx)
  known hkeep x hx := h.known hkeep x (hsubset hx)
  root hkeep x hx := h.root hkeep x (hsubset hx)
  apart := h.apart
  table := h.table

theorem kept (h : ScopesAlike voc keep table defined names env env') :
    ScopesAlike voc true table defined names env env' where
  alike := h.alike
  known hkeep := by cases hkeep
  root hkeep := by cases hkeep
  apart hkeep := by cases hkeep
  table hkeep := by cases hkeep

theorem bind
    (h : ScopesAlike voc keep table defined
      (Expr.without (Expr.boundNames (.identifier name)) names) env env')
    (hprogram : name ∈ voc.program)
    (hname : name ≠ discard → ∃ v v', scope.get? name = some v ∧ scope'.get? name = some v' ∧
      Alike voc v v')
    (hother : ∀ x ≠ name, scope.get? x = env.get? x ∧ scope'.get? x = env'.get? x) :
    ScopesAlike voc keep table (name :: defined) names scope scope' := by
  have hnames {x : String} (hx : x ∈ names) (hne : x ≠ name) :
      x ∈ Expr.without (Expr.boundNames (.identifier name)) names := by
    rw [Expr.mem_without, mem_boundNames_identifier]
    exact ⟨hx, fun h => hne h.1⟩
  refine ⟨fun x hx => ?_, fun hkeep x hx hdefined hdiscard => ?_, fun hkeep x hx hdefined => ?_,
    h.apart, fun hkeep => ?_⟩
  · by_cases hne : x = name
    · subst hne
      by_cases hdiscard : x = discard
      · rw [hdiscard]
        exact optionRel_get?_discard _ _
      · obtain ⟨v, v', hv, hv', hvv⟩ := hname hdiscard
        rw [hv, hv']
        exact .some hvv
    · rw [(hother x hne).1, (hother x hne).2]
      exact h.alike x (hnames hx hne)
  · by_cases hne : x = name
    · subst hne
      obtain ⟨v, v', hv, -⟩ := hname hdiscard
      rw [hv]
      rfl
    · rw [(hother x hne).1]
      exact h.known hkeep x (hnames hx hne) ((List.mem_cons.1 hdefined).resolve_left hne) hdiscard
  · rw [List.mem_cons, not_or] at hdefined
    rw [(hother x hdefined.1).1]
    exact h.root hkeep x (hnames hx hdefined.1) hdefined.2
  · refine (h.table hkeep).congr fun x hx => (hother x ?_).2
    rintro rfl
    exact ((h.apart hkeep).apart x hx).1 hprogram

variable {v v' : Expr} {cfg : Config} {safe : Bool} {self : Option String} {captured : List String}
  {clauses clauses' : List Clause} {before : LiftTable} {inner inner' : Env}

theorem extend
    (h : ScopesAlike voc keep table defined
      (Expr.without (Expr.boundNames (.identifier name)) names) env env')
    (hprogram : name ∈ voc.program) (hv : Alike voc v v') (mark mark' : Nat) :
    ScopesAlike voc keep table (name :: defined) names (env.extend mark [(name, v)])
      (env'.extend mark' [(name, v')]) := by
  refine h.bind hprogram (fun hdiscard => ⟨v, v', ?_, ?_, hv⟩) fun x hx =>
    ⟨Env.get?_extend_of_ne _ _ _ hx, Env.get?_extend_of_ne _ _ _ hx⟩
  · rw [Env.get?_extend_singleton _ _ hdiscard, if_pos rfl]
  · rw [Env.get?_extend_singleton _ _ hdiscard, if_pos rfl]

theorem extend_of_recursive
    (h : ScopesAlike voc keep table defined
      (Expr.without (Expr.boundNames (.identifier name)) names) env env')
    (hprogram : name ∈ voc.program) {mark : Nat}
    (hv : Alike voc (.closeOver clauses (env.extendRecursive mark name clauses)) v') (mark' : Nat) :
    ScopesAlike voc keep table (name :: defined) names (env.extendRecursive mark name clauses)
      (env'.extend mark' [(name, v')]) := by
  refine h.bind hprogram (fun hdiscard => ⟨_, v', ?_, ?_, hv⟩) fun x hx =>
    ⟨Env.get?_extendRecursive_of_ne _ _ _ hx, Env.get?_extend_of_ne _ _ _ hx⟩
  · rw [Env.get?_extendRecursive _ _ _ hdiscard, if_pos rfl]
  · rw [Env.get?_extend_singleton _ _ hdiscard, if_pos rfl]

theorem extendRecursive
    (h : ScopesAlike voc keep table defined
      (Expr.without (Expr.boundNames (.identifier name)) names) env env')
    (hprogram : name ∈ voc.program) {mark mark' : Nat}
    (hv : Alike voc (.closeOver clauses (env.extendRecursive mark name clauses))
      (.closeOver clauses' (env'.extendRecursive mark' name clauses'))) :
    ScopesAlike voc keep table (name :: defined) names (env.extendRecursive mark name clauses)
      (env'.extendRecursive mark' name clauses') := by
  refine h.bind hprogram (fun hdiscard => ⟨_, _, ?_, ?_, hv⟩) fun x hx =>
    ⟨Env.get?_extendRecursive_of_ne _ _ _ hx, Env.get?_extendRecursive_of_ne _ _ _ hx⟩
  · rw [Env.get?_extendRecursive _ _ _ hdiscard, if_pos rfl]
  · rw [Env.get?_extendRecursive _ _ _ hdiscard, if_pos rfl]

/-- A call of a lifted pattern leads to a closure like the one of the pattern itself. -/
theorem quiet_call (h : ScopesAlike voc false table defined names env env')
    (hcaptured : freeNames { defined, builtins := voc.builtins, self } clauses = .ok captured)
    (hlifted : LiftedClauses voc false before defined self name captured clauses clauses')
    (htable : before ++ [(name, clauses')] <+: table)
    (hcode : IsCodeOf .timely (.pattern clauses []))
    (hprogram : Expr.clausesIdentifiers clauses ⊆ voc.program)
    (hnames : ∀ x ∈ Expr.clausesFree clauses, self ≠ some x → x ∈ names)
    (hinner : IsInner self clauses env inner) :
    Quiet (fun k => eval cfg k (call name captured) env' safe)
      (Alike voc (.closeOver clauses inner)) := by
  obtain ⟨haccounts, hnodup⟩ := freeNames_accounts hcaptured
  have hbound : ∀ x ∈ captured, ∃ v, env'.get? x = some v ∧
      ∃ u, inner.get? x = some u ∧ Alike voc u v := by
    intro x hx
    obtain ⟨hfree, hdiscard, -, hself, hdefined⟩ := (haccounts.mem_iff x).1 hx
    obtain ⟨u, v, hu, hv, huv⟩ := (h.alike x (hnames x hfree hself)).exists_of_isSome
      (h.known rfl x (hnames x hfree hself) hdefined hdiscard)
    exact ⟨v, hv, u, (hinner.get?_eq x hself).trans hu, huv⟩
  obtain ⟨top, htop, hget⟩ := h.table rfl before name clauses' htable
  obtain ⟨values, hholds, hvalues⟩ := exists_holds (f := id) hbound
  rw [List.map_id] at hholds
  obtain ⟨after, rfl⟩ := htable
  let s : Site :=
    ⟨false, before, defined, self, name, captured, clauses, clauses', inner, top⟩
  have hs : s.Sound voc :=
    { lifted := hlifted
      code := hcode
      program := hprogram
      self_eq := hinner.self_eq
      captured_nil := by intro hkeep; cases hkeep
      captured_nodup := hnodup
      captured_free := fun x hx => ((haccounts.mem_iff x).1 hx).1
      captured_bound := by
        intro x hx
        obtain ⟨-, -, u, hu, -⟩ := hbound x hx
        exact ⟨Option.isSome_iff_exists.2 ⟨u, hu⟩, ((haccounts.mem_iff x).1 hx).2.2.2.1⟩
      foreseen := by
        intro _ x hx hself hnot
        change inner.get? x = rootValue x ∧ _
        rw [hinner.get?_eq x hself]
        rcases foreseen_of_freeNames hcaptured hx with rfl | hself' | hin | ⟨hbuiltin, hdefined⟩
        · exact ⟨by rw [Env.get?_discard]; rfl, .inl rfl⟩
        · exact absurd hself' hself
        · exact absurd hin hnot
        · exact ⟨h.root rfl x (hnames x hx hself) hdefined, .inr hbuiltin⟩
      apart := fun _ => (h.apart rfl).of_append
      top := fun _ => htop
      kept_self := by intro hkeep; cases hkeep }
  exact hs.quiet_call (hs.shares rfl) hvalues hget hholds

theorem alike_kept (h : ScopesAlike voc true table defined names env env')
    (hlifted : LiftedClauses voc true table (self.toList ++ defined) none discard [] clauses clauses')
    (hcode : IsCodeOf .timely (.pattern clauses []))
    (hprogram : Expr.clausesIdentifiers clauses ⊆ voc.program)
    (hnames : ∀ x ∈ Expr.clausesFree clauses, self ≠ some x → x ∈ names)
    (hinner : IsInner self clauses env inner) (hinner' : IsInner self clauses' env' inner') :
    Alike voc (.closeOver clauses inner) (.closeOver clauses' inner') := by
  let s : Site :=
    ⟨true, table, self.toList ++ defined, self, discard, [], clauses, clauses', inner, inner'⟩
  have hs : s.Sound voc :=
    { lifted := hlifted
      code := hcode
      program := hprogram
      self_eq := hinner.self_eq
      captured_nil := fun _ => rfl
      captured_nodup := List.nodup_nil
      captured_free := List.nil_subset _
      captured_bound := by intro x hx; cases hx
      foreseen := by intro hkeep; cases hkeep
      apart := by intro hkeep; cases hkeep
      top := by intro hkeep; cases hkeep
      kept_self := fun _ => hinner'.self_eq }
  refine hs.alike_kept (fun x hx hself _ => ?_) rfl
  change OptionRel (Alike voc) (inner.get? x) (inner'.get? x)
  rw [hinner.get?_eq x hself, hinner'.get?_eq x hself]
  exact h.alike x (hnames x hx hself)

end ScopesAlike

end

end ClauseLang
