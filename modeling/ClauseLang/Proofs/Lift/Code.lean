import ClauseLang.Proofs.Lift.Shape
import ClauseLang.Proofs.Machine.Value

namespace ClauseLang

open Lifting

theorem isCode_call (name : String) (arguments : List String) : IsCode (call name arguments) := by
  unfold call
  split
  · exact .identifier name
  · refine .application fun item h => ?_
    obtain ⟨x, -, rfl⟩ := List.mem_map.1 h
    exact .identifier x

theorem isCode_wrap {bindings : List (String × Expr)} {e : Expr}
    (h : OuterAll IsCode bindings) (he : IsCode e) : IsCode (wrap bindings e) := by
  unfold wrap
  split
  · exact he
  · refine .letIn (by simp) (fun value hv => ?_) he
    obtain ⟨p, hp, rfl⟩ := List.mem_map.1 hv
    exact h p hp

section

variable {voc : Vocabulary} {table : LiftTable}

mutual

theorem Lifted.isCode {keep : Bool} {defined : List String} {e e' : Expr}
    (h : Lifted voc keep table defined e e') (hcode : IsCode e) : IsCode e' := by
  match e, h, hcode with
  | _, .identifier name, _ => exact .identifier name
  | _, .label name, _ => exact .label name
  | _, .text value, _ => exact .text value
  | _, .number value, _ => exact .number value
  | .application items, .application h, .application hcode => exact .application (h.isCode hcode)
  | .list items, .list h, .list hcode => exact .list (h.isCode hcode)
  | .letIn names values body, .letIn hb h, .letIn hlength hvalues hcode =>
    obtain ⟨hlength', hvalues'⟩ := hb.isCode hvalues
    exact .letIn hlength' hvalues' (h.isCode hcode)
  | .pattern clauses _, .pattern h, .pattern hpos hne hcode => exact h.isCode hpos hne hcode
termination_by sizeOf e

theorem LiftedItems.isCode {keep : Bool} {defined : List String} {items items' : List Expr}
    (h : LiftedItems voc keep table defined items items') (hcode : ∀ item ∈ items, IsCode item) :
    ∀ item ∈ items', IsCode item := by
  match items, h with
  | [], .nil => exact hcode
  | item :: items, .cons h hs =>
    simp only [List.mem_cons, forall_eq_or_imp] at hcode ⊢
    exact ⟨h.isCode hcode.1, hs.isCode hcode.2⟩
termination_by sizeOf items

theorem LiftedBindings.isCode {keep : Bool} {defined inner names : List String}
    {values values' : List Expr}
    (h : LiftedBindings voc keep table defined names values values' inner)
    (hcode : ∀ value ∈ values, IsCode value) :
    names.length = values'.length ∧ ∀ value ∈ values', IsCode value := by
  match values, h with
  | [], .nil => exact ⟨rfl, hcode⟩
  | .pattern clauses _ :: values, .pattern h hs =>
    simp only [List.mem_cons, forall_eq_or_imp] at hcode ⊢
    obtain ⟨hlength, hrest⟩ := hs.isCode hcode.2
    cases hcode.1 with
    | pattern hpos hne hc => exact ⟨congrArg (· + 1) hlength, h.isCode hpos hne hc, hrest⟩
  | value :: values, .value _ h hs =>
    simp only [List.mem_cons, forall_eq_or_imp] at hcode ⊢
    obtain ⟨hlength, hrest⟩ := hs.isCode hcode.2
    exact ⟨congrArg (· + 1) hlength, h.isCode hcode.1, hrest⟩
termination_by sizeOf values

theorem LiftedPattern.isCode {keep : Bool} {arity : Nat} {defined : List String}
    {self : Option String} {clauses : List Clause} {e' : Expr}
    (h : LiftedPattern voc keep table defined self clauses e')
    (hpos : 0 < arity) (hne : clauses ≠ []) (hcode : ∀ clause ∈ clauses, IsClause arity clause) :
    IsCode e' := by
  match h with
  | .lifted _ _ _ => exact isCode_call _ _
  | .kept h =>
    obtain ⟨hne', hc⟩ := h.isCode hcode
    exact .pattern hpos (hne' hne) (by simpa using hc)
termination_by sizeOf clauses + 1

theorem LiftedClauses.isCode {keep : Bool} {arity : Nat} {defined captured : List String}
    {self : Option String} {name : String} {clauses clauses' : List Clause}
    (h : LiftedClauses voc keep table defined self name captured clauses clauses')
    (hcode : ∀ clause ∈ clauses, IsClause arity clause) :
    (clauses ≠ [] → clauses' ≠ []) ∧
      ∀ clause ∈ clauses', IsClause (captured.length + arity) clause := by
  match clauses, h with
  | [], .nil => exact ⟨id, by simp⟩
  | .mk row body :: clauses,
    @LiftedClauses.cons _ _ _ _ _ params _ _ _ row' _ _ _ _ hleading _ hrow hbody hs =>
    simp only [List.mem_cons, forall_eq_or_imp] at hcode ⊢
    refine ⟨fun _ => by simp, ?_, (hs.isCode hcode.2).2⟩
    have houter : OuterAll IsCode (outerNames captured params self name) :=
      .outerNames (fun param _ => .identifier param) (isCode_call name params) self
    obtain ⟨hclause, -⟩ := hcode
    cases hclause with
    | mk hformals hcode =>
      obtain ⟨hlength, hrow'⟩ := hrow.isCode houter hformals
      have hbody' := isCode_wrap ((houter.outside (Expr.rowNames row)).mentioned body)
        (hbody.isCode hcode)
      have hwidth : captured.length + row.length = (params.map Expr.identifier ++ row').length := by
        rw [List.length_append, List.length_map, hleading.length_eq, hlength]
      rw [hwidth]
      refine .mk (fun formal hf => ?_) hbody'
      rcases List.mem_append.1 hf with hf | hf
      · obtain ⟨x, -, rfl⟩ := List.mem_map.1 hf
        exact isFormal_identifier x
      · exact hrow' formal hf
termination_by sizeOf clauses

theorem LiftedRow.isCode {keep : Bool} {defined bound : List String} {outer : List (String × Expr)}
    {row row' : List Expr} (h : LiftedRow voc keep table defined outer bound row row')
    (houter : OuterAll IsCode outer) (hcode : ∀ formal ∈ row, IsFormal formal) :
    row.length = row'.length ∧ ∀ formal ∈ row', IsFormal formal := by
  match row, h with
  | [], .nil => exact ⟨rfl, hcode⟩
  | formal :: row, .cons h hs =>
    simp only [List.mem_cons, forall_eq_or_imp] at hcode ⊢
    obtain ⟨hlength, hrest⟩ := hs.isCode houter hcode.2
    exact ⟨congrArg (· + 1) hlength, h.isCode (houter.outside _) hcode.1, hrest⟩
termination_by sizeOf row

theorem LiftedFormal.isCode {keep : Bool} {defined : List String} {outer : List (String × Expr)}
    {e e' : Expr} (h : LiftedFormal voc keep table defined outer e e') (houter : OuterAll IsCode outer)
    (hcode : IsFormal e) : IsFormal e' := by
  match e, hcode with
  | _, .simple hsimple =>
    rw [h.eq_of_isSimple hsimple]
    exact .simple hsimple
  | .guarded (.identifier name) condition constant, .guarded _ _ hcondition =>
    obtain ⟨inner', condition', rfl, hinner, hlifted⟩ := h.of_guarded
    rw [hinner.eq_of_isSimple (.identifier name)]
    refine .guarded name constant (isCode_wrap (houter.mentioned condition) ?_)
    rcases hlifted with rfl | hlifted
    · exact hcondition
    · exact hlifted.isCode hcondition
termination_by sizeOf e

end

theorem IsEntry.isCode {name : String} {before : LiftTable} {clauses' : List Clause}
    (h : IsEntry .shallow voc before name clauses') : IsCode (.pattern clauses' []) := by
  obtain ⟨_, _, captured, clauses, -, hlifted, hcode, -⟩ := h
  cases hcode with
  | pattern hpos hne hcode =>
    obtain ⟨hne', hc⟩ := hlifted.isCode hcode
    exact .pattern (Nat.add_pos_right _ hpos) (hne' hne) hc

theorem IsTable.isCode (h : IsTable .shallow voc table) :
    ∀ p ∈ table, IsCode (.pattern p.2 []) := by
  induction h with
  | nil => simp
  | snoc _ hentry ih =>
    intro p hp
    rcases List.mem_append.1 hp with hp | hp
    · exact ih p hp
    · rw [List.mem_singleton.1 hp]
      exact hentry.isCode

end

theorem isCode_of_lift {e l : Expr} (hcode : IsCode e) (h : lift e = .ok l) : IsCode l := by
  obtain ⟨voc, table, body, -, hlifts, rfl⟩ := liftsTo_of_lift hcode h
  refine isCode_wrap (fun p hp => ?_) (hlifts.lifted.isCode hcode)
  obtain ⟨q, hq, rfl⟩ := List.mem_map.1 hp
  exact hlifts.isTable.isCode q hq

/-- A parsed program, also when it is lifted, leads to a value that evaluates to itself, or to a
fault that no broken tree causes. -/
theorem run_parsed {source : String} {p q : Expr} (hp : parse source = .ok p)
    (hq : q = p ∨ lift p = .ok q) (cfg : Config) (fuel : Nat) (m : Machine) :
    match run cfg fuel q m with
    | .ok v _ => IsValue v ∧ ∃ n, ∀ k, n ≤ k → ∀ cfg' env safe, eval cfg' k v env safe = pure v
    | .error (.error e) _ => e.fault.isInternal = false
    | .error .outOfFuel _ => True := by
  have hcode : IsCode q := by
    rcases hq with rfl | hlift
    · exact isCode_of_parse hp
    · exact isCode_of_lift (isCode_of_parse hp) hlift
  have hrun := run_succeeds cfg fuel hcode m
  match hr : run cfg fuel q m with
  | .ok v m' =>
    rw [hr] at hrun
    exact ⟨hrun, eval_value hrun⟩
  | .error (.error e) m' =>
    rw [hr] at hrun
    exact hrun
  | .error .outOfFuel m' => trivial

/-- A function that captures a name, in a list. -/
def closuresInList : String :=
  "let x = 1 let add = { y -> { z : (> z 0) -> (+ x (+ y z)) } } [(add 2) x]"

theorem run_parsed_closuresInList :
    ∃ p l v m, parse closuresInList = .ok p ∧ lift p = .ok l ∧ run {} 64 l {} = .ok v m ∧
      IsValue v ∧ ∃ n, ∀ k, n ≤ k → ∀ cfg' env safe, eval cfg' k v env safe = pure v := by
  have hall : ((parse closuresInList).toOption.bind fun p => (lift p).toOption.bind fun l =>
      (run {} 64 l).value? {}).isSome := by decide +kernel
  obtain ⟨v, hv⟩ := Option.isSome_iff_exists.1 hall
  obtain ⟨p, l, hp, hl, hv⟩ := exists_parse_lift hv
  obtain ⟨m, hrun⟩ := Eval.exists_ok_of_value? hv
  have h := run_parsed hp (.inr hl) {} 64 {}
  rw [hrun] at h
  exact ⟨p, l, v, m, hp, hl, hrun, h⟩

end ClauseLang
