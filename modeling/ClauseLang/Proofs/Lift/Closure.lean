import ClauseLang.Proofs.Lift.Alike
import ClauseLang.Proofs.Lift.Call

/-!
Closures of a program and of its lifted form. A lifted pattern that has got its names goes on as the
pattern does that found them around it.
-/

namespace ClauseLang

open Lifting Eval

section

variable {voc : Vocabulary} {x : String} {clauses : List Clause} {row : List Expr} {body : Expr}

theorem identifiers_subset_of_mem (hclause : .mk row body ∈ clauses) :
    Expr.itemsIdentifiers row ⊆ Expr.clausesIdentifiers clauses ∧
      body.identifiers ⊆ Expr.clausesIdentifiers clauses := by
  induction clauses with
  | nil => cases hclause
  | cons clause clauses ih =>
    obtain ⟨row', body'⟩ := clause
    rw [Expr.clausesIdentifiers]
    rcases List.mem_cons.1 hclause with hclause | hclause
    · cases hclause
      refine ⟨?_, ?_⟩ <;> intro x hx <;> simp [hx]
    · exact ⟨List.Subset.trans (ih hclause).1 (List.subset_append_right _ _),
        List.Subset.trans (ih hclause).2 (List.subset_append_right _ _)⟩

end

section

variable {voc : Vocabulary} {keep : Bool} {table : LiftTable} {defined captured : List String}
  {self : Option String} {name : String} {clauses clauses' : List Clause}

theorem LiftedRow.length_eq {bound : List String} {outer : List (String × Expr)}
    {row row' : List Expr} (h : LiftedRow voc keep table defined outer bound row row') :
    row'.length = row.length := by
  induction row generalizing bound row' with
  | nil =>
    cases h
    rfl
  | cons formal row ih =>
    cases h with
    | cons _ h => rw [List.length_cons, List.length_cons, ih h]

theorem LiftedClauses.ne_nil
    (h : LiftedClauses voc keep table defined self name captured clauses clauses')
    (hne : clauses ≠ []) : clauses' ≠ [] := by
  cases h with
  | nil => exact absurd rfl hne
  | cons => exact List.cons_ne_nil _ _

theorem LiftedClauses.takesNames {arity : Nat}
    (h : LiftedClauses voc keep table defined self name captured clauses clauses')
    (hcode : ∀ clause ∈ clauses, IsClauseOf .timely arity clause) (env : Env) :
    ∀ s ∈ clauses'.map fun clause => (clause, env), TakesNames captured.length arity s := by
  induction clauses generalizing clauses' with
  | nil =>
    cases h
    exact fun _ h => absurd h List.not_mem_nil
  | cons clause clauses ih =>
    cases h with
    | cons hleading _ hrow _ h =>
      simp only [List.mem_cons, forall_eq_or_imp, List.map_cons] at hcode ⊢
      refine ⟨⟨_, _, rfl, hleading.length_eq, ?_, hleading.ne_discard⟩, ih h hcode.2⟩
      rw [hrow.length_eq]
      exact hcode.1.length_row

theorem LiftedClauses.quiet_call {cfg : Config} {safe : Bool} {scope env : Env}
    {arguments : List String} {values : List Expr}
    (h : LiftedClauses voc keep table defined self name captured clauses clauses')
    (hcode : IsCodeOf .timely (.pattern clauses []))
    (hname : scope.get? name = some (.closeOver clauses' env))
    (harguments : Holds scope arguments values) (hlength : arguments.length = captured.length) :
    Quiet (fun k => eval cfg k (call name arguments) scope safe) fun u => ∃ stages',
      u = .ofStages stages' ∧
        List.Forall₂ (IsFed values) (clauses'.map fun clause => (clause, env)) stages' := by
  obtain ⟨clauses, hclauses, arity, hpos, hne, hcode⟩ := exists_clauses_of_isPattern hcode rfl
  cases hclauses
  obtain ⟨arity, rfl⟩ : ∃ n, arity = n + 1 := ⟨arity - 1, by omega⟩
  rw [closeOver_eq_ofStages] at hname
  have htakes := h.takesNames hcode env
  rw [← hlength] at htakes
  exact ClauseLang.quiet_call (by simpa using h.ne_nil hne) hname harguments htakes

end

namespace Site

variable {voc : Vocabulary} {s : Site} {values : List Expr} {stages' : List (Clause × Env)}

/-- Values for what a pattern captures. -/
def Gives (voc : Vocabulary) (s : Site) (values : List Expr) : Prop :=
  List.Forall₂ (fun x v => ∃ u, s.env.get? x = some u ∧ Alike voc u v) s.captured values

/-- What a pattern finds around it and does not capture is there for its lifted form. -/
def Shares (voc : Vocabulary) (s : Site) : Prop :=
  ∀ x ∈ Expr.clausesFree s.clauses, s.self ≠ some x → x ∉ s.captured →
    OptionRel (Alike voc) (s.env.get? x) (s.env'.get? x)

namespace Sound

theorem clausesFree_subset (hs : s.Sound voc) : Expr.clausesFree s.clauses ⊆ voc.program :=
  fun _ hx => hs.program (Expr.mem_identifiers_of_mem_clausesFree hx)

theorem exists_isClause (hs : s.Sound voc) {clause : Clause} (h : clause ∈ s.clauses) :
    ∃ arity, IsClauseOf .timely arity clause := by
  obtain ⟨clauses, hclauses, arity, -, -, hcode⟩ := exists_clauses_of_isPattern hs.code rfl
  cases hclauses
  exact ⟨arity, hcode clause h⟩

theorem shares (hs : s.Sound voc) (hkeep : s.keep = false) : s.Shares voc := by
  intro x hx hself hcaptured
  have hprogram := hs.clausesFree_subset hx
  have hentry : x ∉ s.entries.map Prod.fst := fun h => ((hs.apart hkeep).apart x h).1 hprogram
  rw [(hs.foreseen hkeep x hx hself hcaptured).1, (hs.top hkeep).get?_of_not_mem hentry]
  exact rootValue_alike hprogram

/-- A clause that has got its names. -/
theorem behind {locals params : List String} {row : List Expr} {body : Expr}
    {stage : Clause × Env} (hleading : IsLeading voc.program locals s.captured params)
    (hplain : ∀ param ∈ params, voc.IsPlain param) (hvalues : s.Gives voc values)
    (hfed : IsFed values (.mk (params.map .identifier ++ row) body, s.env') stage) :
    stage.1 = .mk row body ∧ s.Behind voc locals params stage.2 := by
  have hlength := hleading.length_eq.trans hvalues.length_eq
  obtain ⟨hclause, hget⟩ := hfed params row rfl hlength
  refine ⟨hclause, hleading, hplain, fun x hx => ?_⟩
  by_cases hdiscard : x = discard
  · rw [hdiscard, Env.get?_discard, Env.get?_discard]
  · rw [hget x hdiscard, heldFor_eq_none, Option.none_or]
    rwa [List.map_fst_zip (Nat.le_of_eq hlength)]

theorem alikeStage (hs : s.Sound voc) (hshares : s.Shares voc) (hvalues : s.Gives voc values)
    {params : List String} {row row' : List Expr} {body body' : Expr} {stage : Clause × Env}
    (hclause : .mk row body ∈ s.clauses)
    (hleading : IsLeading voc.program (Expr.rowNames row) s.captured params)
    (hplain : ∀ param ∈ params, voc.IsPlain param)
    (hrow : LiftedRow voc s.keep s.table (s.inner (Expr.rowNames row) params) (s.outer params) []
      row row')
    (hbody : Lifted voc s.keep s.table
      ((mentioned body (outside (Expr.rowNames row) (s.outer params))).map Prod.fst ++
        s.inner (Expr.rowNames row) params) body body')
    (hfed : IsFed values (.mk (params.map .identifier ++ row')
      (wrap (mentioned body (outside (Expr.rowNames row) (s.outer params))) body'), s.env') stage) :
    AlikeStage voc (.mk row body, s.env) stage := by
  have hget := (hfed params row' rfl (hleading.length_eq.trans hvalues.length_eq)).2
  obtain ⟨hstage, hbehind⟩ := behind hleading hplain hvalues hfed
  obtain ⟨_, start⟩ := stage
  obtain rfl := hstage
  refine @AlikeStage.mk voc s params start s.env start [] row row' body body' hs hbehind hclause hrow
    hbody ?_ (by simp [Expr.rowNames]) (by simp [Expr.rowNames]) fun _ _ => ⟨rfl, rfl⟩
  intro x hx hself
  by_cases hcaptured : x ∈ s.captured
  · obtain ⟨v, ⟨u, hu, huv⟩, hheld⟩ := hleading.exists_heldFor hvalues hcaptured
    have hparam : paramOf s.captured params x ≠ discard :=
      fun h => hleading.ne_discard (h ▸ mem_params_paramOf hleading.length_eq hcaptured)
    rw [hget _ hparam, hheld, hu]
    exact .some huv
  · have hparam : x ∉ params := fun h =>
      hcaptured (hleading.mem_captured (hs.clausesFree_subset hx) h).1
    rw [paramOf_of_not_mem hcaptured, hbehind.get?_eq x hparam]
    exact hshares x hx hself hcaptured

theorem forall₂_alikeStage (hs : s.Sound voc) (hshares : s.Shares voc)
    (hvalues : s.Gives voc values) {clauses clauses' : List Clause} (hsubset : clauses ⊆ s.clauses)
    (hlifted : LiftedClauses voc s.keep s.table s.defined (selfOutside s.keep s.self) s.name s.captured
      clauses clauses')
    (hfed : List.Forall₂ (IsFed values) (clauses'.map fun clause => (clause, s.env')) stages') :
    List.Forall₂ (AlikeStage voc) (clauses.map fun clause => (clause, s.env)) stages' := by
  induction clauses generalizing clauses' stages' with
  | nil =>
    cases hlifted
    cases hfed
    exact .nil
  | cons clause clauses ih =>
    rw [List.cons_subset] at hsubset
    cases hlifted with
    | cons hleading hplain hrow hbody hlifted =>
      cases hfed with
      | cons hstage hstages =>
        exact .cons (hs.alikeStage hshares hvalues hsubset.1 hleading hplain hrow hbody hstage)
          (ih hsubset.2 hlifted hstages)

/-- A closure, and its lifted form with the names that it captures. -/
theorem alike_closure (hs : s.Sound voc) (hshares : s.Shares voc) (hvalues : s.Gives voc values)
    (hfed : List.Forall₂ (IsFed values) (s.clauses'.map fun clause => (clause, s.env')) stages') :
    Alike voc (.closeOver s.clauses s.env) (.ofStages stages') := by
  obtain ⟨clauses, hclauses, arity, -, hne, -⟩ := exists_clauses_of_isPattern hs.code rfl
  cases hclauses
  rw [closeOver_eq_ofStages]
  refine .closure (by simpa using hne) ?_
  exact hs.forall₂_alikeStage hshares hvalues (List.Subset.refl _) hs.lifted hfed

/-- The lifted form of a pattern without captured names. -/
theorem alike_kept (hs : s.Sound voc) (hshares : s.Shares voc) (hkeep : s.keep = true) :
    Alike voc (.closeOver s.clauses s.env) (.closeOver s.clauses' s.env') := by
  have hvalues : s.Gives voc [] := by
    rw [Gives, hs.captured_nil hkeep]
    exact .nil
  rw [closeOver_eq_ofStages s.clauses']
  exact hs.alike_closure hshares hvalues (forall₂_isFed_nil _)

/-- A call of the lifted form. -/
theorem quiet_call {cfg : Config} {safe : Bool} {scope : Env} {arguments : List String}
    (hs : s.Sound voc) (hshares : s.Shares voc) (hvalues : s.Gives voc values)
    (hname : scope.get? s.name = some (.closeOver s.clauses' s.env'))
    (harguments : Holds scope arguments values) :
    Quiet (fun k => eval cfg k (call s.name arguments) scope safe)
      (Alike voc (.closeOver s.clauses s.env)) := by
  refine (hs.lifted.quiet_call hs.code hname harguments ?_).mono ?_
  · exact harguments.length_eq.trans hvalues.length_eq.symm
  · rintro _ ⟨stages', rfl, hfed⟩
    exact hs.alike_closure hshares hvalues hfed

end Sound

end Site

end ClauseLang
