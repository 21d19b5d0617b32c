import ClauseLang.Proofs.Expr.Declared
import ClauseLang.Proofs.Lift.Flat

/-!
Lifting is hygienic. The names that it makes up are all different and not in the program. Each of
them is bound at one place of the lifted program, by the outermost `letIn` or as a leading formal of
one clause, and that is the place which its uses refer to.

What a step of lifting makes of an expression binds names of the program alone. So it is enough to
keep account of the clauses that go into the table.
-/

namespace ClauseLang

open Lifting ClauseLang.Expr

/-- The names that are bound by the patterns of a table, their own names among them. -/
def tableDeclared (table : LiftTable) : List String :=
  table.flatMap fun (name, clauses) => name :: clausesDeclared clauses

theorem declared_call (name : String) (arguments : List String) :
    (call name arguments).declared = [] := by
  unfold call
  split
  · rfl
  · exact itemsDeclared_map_identifier (name :: arguments)

theorem declared_wrap (bindings : List (String × Expr)) (e : Expr) :
    (wrap bindings e).declared = (bindings.flatMap fun p => p.1 :: p.2.declared) ++ e.declared := by
  cases bindings with
  | nil => rfl
  | cons p bindings => exact congrArg (· ++ e.declared) (bindingsDeclared_map (p :: bindings))

theorem declared_wrap_table (table : LiftTable) (body : Expr) :
    (wrap (table.map fun (name, clauses) => (name, .pattern clauses [])) body).declared =
      tableDeclared table ++ body.declared := by
  rw [declared_wrap, List.flatMap_map]
  rfl

/-- Outer names that are names of the program, and stand for expressions that bind none. -/
def OuterBinds (program : List String) (outer : List (String × Expr)) : Prop :=
  ∀ p ∈ outer, p.1 ∈ program ∧ p.2.declared = []

namespace OuterBinds

variable {program : List String} {outer : List (String × Expr)}

theorem outside (h : OuterBinds program outer) (bound : List String) :
    OuterBinds program (Lifting.outside bound outer) :=
  fun p hp => h p (List.mem_filter.1 hp).1

theorem mentioned (h : OuterBinds program outer) (e : Expr) :
    OuterBinds program (Lifting.mentioned e outer) :=
  fun p hp => h p (List.mem_filter.1 hp).1

theorem outerNames {captured params : List String} {self : Option String}
    (hcaptured : captured ⊆ program) (hself : ∀ x ∈ self, x ∈ program) (name : String) :
    OuterBinds program (Lifting.outerNames captured params self name) := by
  intro p hp
  simp only [Lifting.outerNames, List.mem_append, List.mem_map, Option.mem_toList,
    Option.map_eq_some_iff] at hp
  rcases hp with ⟨q, hq, rfl⟩ | ⟨x, hx, rfl⟩
  · exact ⟨hcaptured (List.of_mem_zip (List.mem_filter.1 hq).1).1, rfl⟩
  · exact ⟨hself x hx, declared_call name params⟩

theorem declared_wrap_subset (h : OuterBinds program outer) {e : Expr} (he : e.declared ⊆ program) :
    (wrap outer e).declared ⊆ program := by
  rw [declared_wrap]
  refine List.append_subset.2 ⟨fun x hx => ?_, he⟩
  obtain ⟨p, hp, hx⟩ := List.mem_flatMap.1 hx
  obtain ⟨hname, hvalue⟩ := h p hp
  rw [hvalue, List.mem_singleton] at hx
  exact hx ▸ hname

end OuterBinds

/-- Leading formals for captured names: a name that the row binds has a number behind it, the others
stand for themselves. -/
def IsNumbered (locals captured params : List String) : Prop :=
  List.Forall₂ (fun old param => if old ∈ locals then ∃ n, param = numbered old n else param = old)
    captured params

theorem IsNumbered.exists_numbered {locals captured params : List String} {x : String}
    (h : IsNumbered locals captured params) (hx : x ∈ params) (hcaptured : x ∉ captured) :
    ∃ old n, old ∈ captured ∧ old ∈ locals ∧ x = numbered old n := by
  induction h with
  | nil => cases hx
  | @cons old param captured params hparam _ ih =>
    rw [List.mem_cons, not_or] at hcaptured
    rcases List.mem_cons.1 hx with rfl | hx
    · split at hparam
      · obtain ⟨n, hn⟩ := hparam
        exact ⟨old, n, List.mem_cons_self, ‹_›, hn⟩
      · exact absurd hparam hcaptured.1
    · obtain ⟨old', n, hold, hlocal, hn⟩ := ih hx hcaptured.2
      exact ⟨old', n, List.mem_cons_of_mem _ hold, hlocal, hn⟩

/-- A clause behind leading formals for the captured names. The rest of it binds names of the
program alone. -/
inductive IsTidyClause (program captured : List String) : Clause → Prop
  | mk {params : List String} {row : List Expr} {body : Expr} :
    IsNumbered (rowNames row) captured params → rowDeclared row ⊆ program →
      body.declared ⊆ program →
        IsTidyClause program captured (.mk (params.map .identifier ++ row) body)

/-- A pattern of the table with the name that was made up for it. -/
inductive IsTidyEntry (program : List String) : String × List Clause → Prop
  | mk {captured : List String} {clauses : List Clause} (n : Nat) : captured ⊆ program →
    (∀ clause ∈ clauses, IsTidyClause program captured clause) →
      IsTidyEntry program (numbered "lambda" n, clauses)

/-- The names are bound by the patterns of a table, but for those that are left. Beyond them the
table binds names of the program alone. -/
structure TableBinds (program : List String) (table : LiftTable) (names left : List String) :
    Prop where
  tidy : ∀ entry ∈ table, IsTidyEntry program entry
  perm : names.Perm (without program (tableDeclared table) ++ left)

namespace TableBinds

variable {program names names' left left' : List String} {table table' : LiftTable}

theorem nil (program names : List String) : TableBinds program [] names names :=
  ⟨by simp, .refl names⟩

theorem append (h : TableBinds program table names left)
    (h' : TableBinds program table' names' left') :
    TableBinds program (table ++ table') (names ++ names') (left ++ left') where
  tidy entry hentry := (List.mem_append.1 hentry).elim (h.tidy entry) (h'.tidy entry)
  perm := by
    rw [tableDeclared, List.flatMap_append, without_append, List.perm_iff_count]
    intro x
    have hx := h.perm.count_eq x
    have hx' := h'.perm.count_eq x
    simp only [tableDeclared, List.count_append] at hx hx' ⊢
    omega

theorem snoc {name : String} {clauses : List Clause} (h : TableBinds program table names left)
    (hentry : IsTidyEntry program (name, clauses))
    (hleft : left = without program (name :: clausesDeclared clauses)) :
    TableBinds program (table ++ [(name, clauses)]) names [] where
  tidy entry hmem := by
    rcases List.mem_append.1 hmem with hmem | hmem
    · exact h.tidy entry hmem
    · exact List.mem_singleton.1 hmem ▸ hentry
  perm := by
    rw [tableDeclared, List.flatMap_append, without_append, List.append_nil, List.flatMap_singleton]
    exact hleft ▸ h.perm

end TableBinds

namespace LiftState

variable {program left left' : List String} {s s' s'' : LiftState}

/-- The names that are made up between two states are bound by what is added to the table, but for
those that are left. -/
def Placed (program : List String) (s s' : LiftState) (left : List String) : Prop :=
  ∃ names added, s.Draws names s' ∧ s'.lifted = s.lifted ++ added ∧
    TableBinds program added names left

namespace Placed

theorem refl (program : List String) (s : LiftState) : s.Placed program s [] :=
  ⟨[], [], .refl s, by simp, .nil program []⟩

theorem trans (h : s.Placed program s' left) (h' : s'.Placed program s'' left') :
    s.Placed program s'' (left ++ left') := by
  obtain ⟨names, added, hdraws, hlifted, hbinds⟩ := h
  obtain ⟨names', added', hdraws', hlifted', hbinds'⟩ := h'
  refine ⟨names ++ names', added ++ added', hdraws.trans hdraws', ?_, hbinds.append hbinds'⟩
  rw [hlifted', hlifted, List.append_assoc]

theorem taken_subset (h : s.Placed program s' left) : s.taken ⊆ s'.taken := by
  obtain ⟨_, _, hdraws, -, -⟩ := h
  exact hdraws.taken_subset

theorem add (h : s.Placed program s' left) {name : String} {clauses : List Clause}
    (hentry : IsTidyEntry program (name, clauses))
    (hleft : left = without program (name :: clausesDeclared clauses)) :
    s.Placed program { s' with lifted := s'.lifted ++ [(name, clauses)] } [] := by
  obtain ⟨names, added, hdraws, hlifted, hbinds⟩ := h
  have hadd := hdraws.trans (.add (name, clauses) (.refl _))
  rw [List.append_nil] at hadd
  refine ⟨names, added ++ [(name, clauses)], hadd, ?_, hbinds.snoc hentry hleft⟩
  rw [hlifted, List.append_assoc]

end Placed

end LiftState

namespace Lifting

variable {α β : Type} {program : List String}

/-- A step of lifting that binds the names it makes up in the table, but for those that are left
with its result. -/
def Places (program : List String) (x : Lifting α) (P : α → List String → Prop) : Prop :=
  ∀ s a s', program ⊆ s.taken → x s = .ok a s' → ∃ left, s.Placed program s' left ∧ P a left

abbrev PlacesAll (program : List String) (x : Lifting α) (Q : α → Prop) : Prop :=
  Places program x fun a left => left = [] ∧ Q a

namespace Places

variable {x : Lifting α} {P : α → List String → Prop} {R : β → List String → Prop}

theorem pure {a : α} (h : P a []) : Places program (pure a) P := by
  rintro s _ _ - ⟨⟩
  exact ⟨[], .refl program s, h⟩

theorem bind {f : α → Lifting β} (hx : Places program x P)
    (hf : ∀ a left, P a left → Places program (f a) fun b left' => R b (left ++ left')) :
    Places program (x >>= f) R := by
  intro s b s₂ hs h
  obtain ⟨a, s₁, ha, hb⟩ := exists_of_bind_eq_ok h
  obtain ⟨left, hplaced, hP⟩ := hx s a s₁ hs ha
  obtain ⟨left', hplaced', hR⟩ :=
    hf a left hP s₁ b s₂ (List.Subset.trans hs hplaced.taken_subset) hb
  exact ⟨left ++ left', hplaced.trans hplaced', hR⟩

end Places

namespace PlacesAll

variable {x : Lifting α} {Q : α → Prop}

theorem pure {a : α} (h : Q a) : PlacesAll program (pure a) Q :=
  Places.pure ⟨rfl, h⟩

theorem bind {f : α → Lifting β} {R : β → List String → Prop} (hx : PlacesAll program x Q)
    (hf : ∀ a, Q a → Places program (f a) R) : Places program (x >>= f) R := by
  refine Places.bind hx fun a left ⟨hleft, hQ⟩ => ?_
  subst hleft
  exact hf a hQ

end PlacesAll

theorem fresh_places (stem : String) :
    Places program (fresh stem) fun name left =>
      left = without program [name] ∧ ∃ n, name = numbered stem n := by
  intro s name s' hs h
  obtain ⟨hnew, -, -, hlifted⟩ := of_fresh_eq_ok h
  have hprogram : name ∉ program := fun hmem => hnew (hs hmem)
  refine ⟨[name], ⟨[name], [], .fresh h (.refl s'), by simp [hlifted], .nil program [name]⟩, ?_, ?_⟩
  · simp [without, hprogram]
  · cases h
    exact ⟨_, rfl⟩

theorem leading_places (locals : List String) {captured : List String}
    (hcaptured : captured ⊆ program) :
    Places program (leading locals captured) fun params left =>
      left = without program params ∧ IsNumbered locals captured params := by
  induction captured with
  | nil => exact .pure ⟨rfl, .nil⟩
  | cons old captured ih =>
    rw [List.cons_subset] at hcaptured
    rw [leading_cons]
    have hparam : Places program (if old ∈ locals then fresh old else pure old) fun param left =>
        left = without program [param] ∧
          if old ∈ locals then ∃ n, param = numbered old n else param = old := by
      split
      · exact fresh_places old
      · exact .pure ⟨(without_eq_nil (by simpa using hcaptured.1)).symm, rfl⟩
    refine hparam.bind fun param left ⟨hleft, hnew⟩ => ?_
    refine (ih hcaptured.2).bind fun params left' ⟨hleft', hnumbered⟩ => .pure ⟨?_, ?_⟩
    · rw [hleft, hleft', List.append_nil, ← without_append, List.singleton_append]
    · exact .cons hnew hnumbered

theorem replace_placesAll {around : Surroundings} {clauses : List Clause}
    {lift : String → List String → Lifting (List Clause)}
    (hprogram : clausesIdentifiers clauses ⊆ program)
    (hlift : ∀ name captured, captured ⊆ program → Places program (lift name captured)
      fun clauses' left => left = without program (clausesDeclared clauses') ∧
        ∀ clause ∈ clauses', IsTidyClause program captured clause) :
    PlacesAll program (replace around clauses lift) fun e => e.declared ⊆ program := by
  intro s e s' hs h
  obtain ⟨captured, name, s₁, clauses', s₂, hcaptured, hname, hclauses, rfl, rfl⟩ := replace_cases h
  have hsubset := (captured_of_freeNames hcaptured hprogram).1
  obtain ⟨left, hplaced, hleft, n, rfl⟩ := fresh_places "lambda" s name s₁ hs hname
  obtain ⟨left', hplaced', hleft', htidy⟩ := hlift _ captured hsubset s₁ clauses' s₂
    (List.Subset.trans hs hplaced.taken_subset) hclauses
  -- the entry binds the pattern's own name and all that its clauses have left
  refine ⟨[], (hplaced.trans hplaced').add (.mk n hsubset htidy) ?_, rfl, ?_⟩
  · rw [hleft, hleft', ← without_append, List.singleton_append]
  · simp [declared_call]

variable {builtins : List String}

mutual

theorem expr_placesAll {e : Expr} (hprogram : e.identifiers ⊆ program) (defined : List String) :
    PlacesAll program (expr builtins defined e) fun e' => e'.declared ⊆ program := by
  match e with
  | .application items =>
    exact (exprs_placesAll hprogram defined).bind fun items' h => PlacesAll.pure h
  | .list items =>
    exact (exprs_placesAll hprogram defined).bind fun items' h => PlacesAll.pure h
  | .letIn names values body =>
    rw [identifiers, List.append_subset] at hprogram
    refine (bindings_placesAll hprogram.1 defined).bind fun ⟨values', inner⟩ hvalues => ?_
    refine (expr_placesAll hprogram.2 inner).bind fun body' hbody => PlacesAll.pure ?_
    exact List.append_subset.2 ⟨hvalues, hbody⟩
  | .pattern clauses _ =>
    rw [identifiers] at hprogram
    exact replace_placesAll hprogram fun name captured hcaptured =>
      clauseList_places hprogram hcaptured (by simp) name
  | .cons _ _ | .guarded _ _ _ | .identifier _ | .label _ | .text _ | .number _ | .builtin _ =>
    exact .pure (List.Subset.trans (declared_sublist _).subset hprogram)
termination_by sizeOf e

theorem exprs_placesAll {items : List Expr} (hprogram : itemsIdentifiers items ⊆ program)
    (defined : List String) :
    PlacesAll program (exprs builtins defined items) fun items' =>
      itemsDeclared items' ⊆ program := by
  match items with
  | [] => exact .pure (List.nil_subset _)
  | item :: items =>
    rw [itemsIdentifiers, List.append_subset] at hprogram
    refine (expr_placesAll hprogram.1 defined).bind fun item' hitem => ?_
    refine (exprs_placesAll hprogram.2 defined).bind fun items' hitems => PlacesAll.pure ?_
    exact List.append_subset.2 ⟨hitem, hitems⟩
termination_by sizeOf items

theorem bindings_placesAll {names : List String} {values : List Expr}
    (hprogram : bindingsIdentifiers names values ⊆ program) (defined : List String) :
    PlacesAll program (bindings builtins defined names values) fun r =>
      bindingsDeclared names r.1 ⊆ program := by
  match names, values with
  | [], [] | [], _ :: _ | _ :: _, [] => exact .pure (by simp [bindingsDeclared])
  | name :: names, value :: values =>
    rw [bindingsIdentifiers, List.cons_subset, List.append_subset] at hprogram
    have hrest (value' : Expr) (hvalue : value'.declared ⊆ program) :
        PlacesAll program (do
          let (values', inner) ← bindings builtins (name :: defined) names values
          return (value' :: values', inner)) fun r =>
            bindingsDeclared (name :: names) r.1 ⊆ program := by
      refine (bindings_placesAll hprogram.2.2 (name :: defined)).bind fun r hr => PlacesAll.pure ?_
      exact List.cons_subset.2 ⟨hprogram.1, List.append_subset.2 ⟨hvalue, hr⟩⟩
    by_cases hpattern : value.isPattern
    · obtain ⟨clauses, scopes, rfl⟩ := exists_eq_pattern hpattern
      rw [identifiers] at hprogram
      rw [bindings]
      refine (replace_placesAll hprogram.2.1 fun lifted captured hcaptured => ?_).bind hrest
      exact clauseList_places hprogram.2.1 hcaptured (by simpa using hprogram.1) lifted
    · rw [bindings_of_isPattern_eq_false _ _ _ _ _ (by simpa using hpattern)]
      exact (expr_placesAll hprogram.2.1 defined).bind hrest
termination_by sizeOf names + sizeOf values

theorem clauseList_places {clauses : List Clause} {defined captured : List String}
    {self : Option String} (hprogram : clausesIdentifiers clauses ⊆ program)
    (hcaptured : captured ⊆ program) (hself : ∀ x ∈ self, x ∈ program) (name : String) :
    Places program (clauseList builtins defined self name captured clauses) fun clauses' left =>
      left = without program (clausesDeclared clauses') ∧
        ∀ clause ∈ clauses', IsTidyClause program captured clause := by
  match clauses with
  | [] => exact .pure ⟨rfl, by simp⟩
  | .mk formals body :: clauses =>
    rw [clausesIdentifiers, List.append_subset, List.append_subset] at hprogram
    refine (leading_places _ hcaptured).bind fun params left ⟨hleft, hnumbered⟩ => ?_
    have houter : OuterBinds program (outerNames captured params self name) :=
      .outerNames hcaptured hself name
    refine (row_placesAll hprogram.1.1 houter _ []).bind fun row' ⟨hrow, hnames⟩ => ?_
    refine (expr_placesAll hprogram.1.2 _).bind fun body' hbody => ?_
    have hbody' := ((houter.outside (rowNames formals)).mentioned body).declared_wrap_subset hbody
    refine (clauseList_places hprogram.2 hcaptured hself name).bind
      fun clauses' left' ⟨hleft', htidy⟩ => .pure ⟨?_, ?_⟩
    · -- only the leading formals of the clause can be new
      rw [clausesDeclared, rowDeclared_append, rowDeclared_map_identifier, without_append,
        without_append, without_append, without_eq_nil hrow, without_eq_nil hbody', hleft, hleft']
      simp
    · exact List.forall_mem_cons.2 ⟨.mk (hnames ▸ hnumbered) hrow hbody', htidy⟩
termination_by sizeOf clauses

theorem row_placesAll {formals : List Expr} {outer : List (String × Expr)}
    (hprogram : itemsIdentifiers formals ⊆ program) (houter : OuterBinds program outer)
    (defined bound : List String) :
    PlacesAll program (row builtins defined outer bound formals) fun row' =>
      rowDeclared row' ⊆ program ∧ rowNames row' = rowNames formals := by
  match formals with
  | [] => exact .pure ⟨List.nil_subset _, rfl⟩
  | first :: rest =>
    rw [itemsIdentifiers, List.append_subset] at hprogram
    refine (formal_placesAll hprogram.1 (houter.outside _) defined).bind fun first' hfirst => ?_
    refine (row_placesAll hprogram.2 houter defined _).bind fun rest' hrest =>
      PlacesAll.pure ⟨?_, ?_⟩
    · exact List.append_subset.2 ⟨hfirst.1, hrest.1⟩
    · exact congrArg₂ (· ++ ·) hfirst.2 hrest.2
termination_by sizeOf formals

theorem formal_placesAll {e : Expr} {outer : List (String × Expr)}
    (hprogram : e.identifiers ⊆ program) (houter : OuterBinds program outer)
    (defined : List String) :
    PlacesAll program (formal builtins defined outer e) fun e' =>
      e'.formalDeclared ⊆ program ∧ e'.boundNames = e.boundNames := by
  match e with
  | .cons head tail =>
    rw [identifiers, List.append_subset] at hprogram
    rw [formal]
    refine (formal_placesAll hprogram.1 houter defined).bind fun head' hhead => ?_
    refine (formal_placesAll hprogram.2 houter defined).bind fun tail' htail =>
      PlacesAll.pure ⟨?_, ?_⟩
    · exact List.append_subset.2 ⟨hhead.1, htail.1⟩
    · exact congrArg₂ (· ++ ·) hhead.2 htail.2
  | .guarded inner condition constant =>
    rw [identifiers, List.append_subset] at hprogram
    rw [formal_guarded]
    have hcondition : PlacesAll program (if constant then pure condition
        else expr builtins ((mentioned condition outer).map Prod.fst ++ defined) condition)
        fun condition' => condition'.declared ⊆ program := by
      split
      · exact .pure (List.Subset.trans (declared_sublist condition).subset hprogram.2)
      · exact expr_placesAll hprogram.2 _
    refine (formal_placesAll hprogram.1 houter defined).bind fun inner' hinner => ?_
    refine hcondition.bind fun condition' h => PlacesAll.pure ⟨?_, hinner.2⟩
    exact List.append_subset.2 ⟨hinner.1, (houter.mentioned condition).declared_wrap_subset h⟩
  | .identifier _ | .application _ | .list _ | .label _ | .text _ | .number _ | .letIn _ _ _
  | .pattern _ _ | .builtin _ =>
    exact .pure ⟨List.Subset.trans (formalDeclared_sublist _).subset hprogram, rfl⟩
termination_by sizeOf e

end

end Lifting

/-- Where a made-up name is bound in a lifted program: by the outermost `letIn`, or in one clause of
a pattern that this binds, as the leading formal for a captured name that the row binds again. -/
inductive BindingSite (program : List String) (l : Expr) : String → Prop
  | outermost {names : List String} {values : List Expr} {body : Expr} (n : Nat) :
    l = .letIn names values body → numbered "lambda" n ∈ names →
      BindingSite program l (numbered "lambda" n)
  | leading {names captured params : List String} {values row : List Expr} {body inner : Expr}
    {clauses : List Clause} {old : String} (n : Nat) :
    l = .letIn names values body → .pattern clauses [] ∈ values →
      .mk (params.map .identifier ++ row) inner ∈ clauses →
        IsNumbered (rowNames row) captured params → captured ⊆ program →
          rowDeclared row ⊆ program → old ∈ captured → old ∈ rowNames row →
            numbered old n ∈ params → BindingSite program l (numbered old n)

theorem wrap_table {table : LiftTable} (h : table ≠ []) (body : Expr) :
    wrap (table.map fun (name, clauses) => (name, .pattern clauses [])) body =
      .letIn (table.map Prod.fst) (table.map fun entry => .pattern entry.2 []) body := by
  rw [wrap, if_neg (by simpa using h), List.map_map, List.map_map]
  rfl

/-- Of the names that tidy clauses bind, only leading formals are not in the program. -/
theorem exists_params_of_mem {program captured : List String} {clauses : List Clause} {x : String}
    (htidy : ∀ clause ∈ clauses, IsTidyClause program captured clause)
    (hx : x ∈ clausesDeclared clauses) (hprogram : x ∉ program) :
    ∃ params row body, .mk (params.map .identifier ++ row) body ∈ clauses ∧
      IsNumbered (rowNames row) captured params ∧ rowDeclared row ⊆ program ∧ x ∈ params := by
  induction clauses with
  | nil => cases hx
  | cons clause clauses ih =>
    obtain ⟨hclause, hclauses⟩ := List.forall_mem_cons.1 htidy
    cases hclause with
    | @mk params row body hnumbered hrow hbody =>
      rw [clausesDeclared, rowDeclared_append, rowDeclared_map_identifier, List.mem_append,
        List.mem_append, List.mem_append] at hx
      rcases hx with ((hx | hx) | hx) | hx
      · exact ⟨params, row, body, List.mem_cons_self, hnumbered, hrow, hx⟩
      · exact absurd (hrow hx) hprogram
      · exact absurd (hbody hx) hprogram
      · obtain ⟨params', row', body', hmem, h⟩ := ih hclauses hx
        exact ⟨params', row', body', List.mem_cons_of_mem _ hmem, h⟩

namespace TableBinds

variable {program names : List String} {table : LiftTable} {body : Expr} {x : String}

theorem count_declared (h : TableBinds program table names []) (hbody : body.declared ⊆ program)
    (hx : x ∉ program) :
    (wrap (table.map fun (name, clauses) => (name, .pattern clauses [])) body).declared.count x =
      names.count x := by
  have hnone : body.declared.count x = 0 :=
    List.count_eq_zero_of_not_mem fun hmem => hx (hbody hmem)
  rw [declared_wrap_table, List.count_append, hnone, h.perm.count_eq, List.append_nil,
    count_without hx, Nat.add_zero]

theorem bindingSite (h : TableBinds program table names []) (hmem : x ∈ names) (hx : x ∉ program) :
    BindingSite program
      (wrap (table.map fun (name, clauses) => (name, .pattern clauses [])) body) x := by
  have hbound := h.perm.mem_iff.1 hmem
  rw [List.append_nil, mem_without] at hbound
  obtain ⟨⟨name, clauses⟩, hentry, hbound⟩ := List.mem_flatMap.1 hbound.1
  have hl := wrap_table (List.ne_nil_of_mem hentry) body
  cases h.tidy _ hentry with
  | @mk captured _ n hcaptured hclauses =>
    rcases List.mem_cons.1 hbound with rfl | hbound
    · exact .outermost n hl (List.mem_map_of_mem hentry)
    · obtain ⟨params, row, inner, hclause, hnumbered, hrow, hparam⟩ :=
        exists_params_of_mem hclauses hbound hx
      obtain ⟨old, n', hold, hlocal, rfl⟩ :=
        hnumbered.exists_numbered hparam fun hmem => hx (hcaptured hmem)
      exact .leading n' hl (List.mem_map.2 ⟨_, hentry, rfl⟩) hclause hnumbered hcaptured hrow hold
        hlocal hparam

end TableBinds

/-- What is free in patterns that are bound one after the other, and in a body behind them. -/
theorem mem_free_of_mem_table {voc : Vocabulary} {table before after : LiftTable} {body : Expr}
    {x : String} (htable : IsTable .shallow voc table) (heq : table = before ++ after)
    (hdiscard : x ≠ discard) (hbuiltin : x ∉ voc.builtins) (hbefore : x ∉ before.map Prod.fst)
    (hx : x ∈ bindingsFree (after.map Prod.fst) (after.map fun entry => .pattern entry.2 [])
      body.free) : x ∈ body.free ∧ x ∉ table.map Prod.fst := by
  -- from the outermost pattern on: each may use the names before it and its own
  induction after generalizing before with
  | nil =>
    rw [List.append_nil] at heq
    exact ⟨hx, heq ▸ hbefore⟩
  | cons entry after ih =>
    obtain ⟨name, clauses⟩ := entry
    rw [List.map_cons, List.map_cons, bindingsFree_pattern, List.mem_append, mem_without,
      mem_without] at hx
    have hname (h : x ∉ (Expr.identifier name).boundNames) : x ≠ name := by
      rintro rfl
      rw [boundNames, if_neg hdiscard] at h
      exact h List.mem_cons_self
    rcases hx with ⟨hx, hbound⟩ | ⟨hx, hbound⟩
    · rcases (htable.isEntry heq).isClosedName hx with h | h | h | h
      · exact absurd h hdiscard
      · exact absurd h hbuiltin
      · exact absurd h hbefore
      · exact absurd h (hname hbound)
    · have heq' : table = (before ++ [(name, clauses)]) ++ after := by
        rw [heq, List.append_assoc, List.singleton_append]
      refine ih heq' ?_ hx
      rw [List.map_append, List.mem_append, not_or]
      exact ⟨hbefore, by simpa using hname hbound⟩

theorem mem_free_of_lift {p l : Expr} {x : String} (hcode : IsCode p) (hl : lift p = .ok l)
    (hdiscard : x ≠ discard) (hbuiltin : x ∉ Builtin.names) (hx : x ∈ l.free) : x ∈ p.free := by
  obtain ⟨voc, table, body, hbuiltins, hlifts, rfl⟩ := liftsTo_of_lift hcode hl
  have hbody : x ∈ body.free ∧ x ∉ table.map Prod.fst := by
    by_cases hne : table = []
    · subst hne
      exact ⟨hx, List.not_mem_nil⟩
    · rw [wrap_table hne, Expr.free] at hx
      exact mem_free_of_mem_table hlifts.isTable (List.nil_append table).symm hdiscard
        (hbuiltins ▸ hbuiltin) List.not_mem_nil hx
  exact (hlifts.lifted.mem_free hbody.1).resolve_right hbody.2

/-- The names that are made up for a program, in their order: all that is taken in the end but was
not taken at first. -/
def madeUp (p : Expr) : List String :=
  match expr Builtin.names [] p { taken := p.identifiers } with
  | .ok _ s => (s.taken.take (s.taken.length - p.identifiers.length)).reverse
  | .error _ _ => []

theorem madeUp_eq {p body : Expr} {s : LiftState} {names : List String}
    (hr : expr Builtin.names [] p { taken := p.identifiers } = .ok body s)
    (hdraws : LiftState.Draws { taken := p.identifiers } names s) : madeUp p = names := by
  have htaken : s.taken = names.reverse ++ p.identifiers := hdraws.taken_eq
  rw [madeUp, hr]
  simp only [htaken, List.length_append, Nat.add_sub_cancel, List.take_left, List.reverse_reverse]

/-- What a lifted program comes of: a run that makes up names, and the table which binds them. -/
theorem exists_table_of_lift {p l : Expr} (hl : lift p = .ok l) :
    ∃ table body s, expr Builtin.names [] p { taken := p.identifiers } = .ok body s ∧
      LiftState.Draws { taken := p.identifiers } (madeUp p) s ∧
        TableBinds p.identifiers table (madeUp p) [] ∧ body.declared ⊆ p.identifiers ∧
          l = wrap (table.map fun (name, clauses) => (name, .pattern clauses [])) body := by
  obtain ⟨body, s, hr, rfl⟩ := exists_of_lift hl
  obtain ⟨left, ⟨names, table, hdraws, htable, hbinds⟩, rfl, hbody⟩ :=
    expr_placesAll (List.Subset.refl p.identifiers) [] _ body s (List.Subset.refl _) hr
  rw [List.nil_append] at htable
  obtain rfl := madeUp_eq hr hdraws
  exact ⟨s.lifted, body, s, hr, hdraws, htable ▸ hbinds, hbody, rfl⟩

/-- Names that are made up for a lifted program are all different and not in the program. Each is
bound at one place, nothing else new is bound, and there is no use of them that is not bound. -/
structure IsHygienic (p l : Expr) (names : List String) : Prop where
  nodup : names.Nodup
  not_mem_program : ∀ x ∈ names, x ∉ p.identifiers
  count_declared : ∀ x ∈ names, l.declared.count x = 1
  mem_of_mem_declared : ∀ x ∈ l.declared, x ∈ p.identifiers ∨ x ∈ names
  bindingSite : ∀ x ∈ names, BindingSite p.identifiers l x
  not_free : ∀ x ∈ names, x ∉ l.free

/-- Every search for a new name ends, whatever names are taken, and the names that are made up for a
program are hygienic in what it is lifted to. -/
theorem lift_hygienic {source : String} {p l : Expr} (hp : parse source = .ok p)
    (hl : lift p = .ok l) :
    (∀ stem s, ∃ n, Seeks s.taken stem s.counter n ∧ fresh stem s =
      .ok (numbered stem n) { s with taken := numbered stem n :: s.taken, counter := n + 1 }) ∧
    (∃ body s, expr Builtin.names [] p { taken := p.identifiers } = .ok body s ∧
      LiftState.Draws { taken := p.identifiers } (madeUp p) s) ∧
    IsHygienic p l (madeUp p) := by
  obtain ⟨table, body, s, hr, hdraws, hbinds, hbody, heq⟩ := exists_table_of_lift hl
  have hprogram : ∀ x ∈ madeUp p, x ∉ p.identifiers := hdraws.not_mem_taken
  refine ⟨fresh_seeks, ⟨body, s, hr, hdraws⟩, hdraws.nodup, hprogram, fun x hx => ?_,
    fun x hx => ?_, fun x hx => ?_, fun x hx hfree => ?_⟩
  · rw [heq, hbinds.count_declared hbody (hprogram x hx)]
    exact List.count_eq_one_of_mem hdraws.nodup hx
  · rw [or_iff_not_imp_left]
    intro hx'
    rw [← List.count_pos_iff, ← hbinds.count_declared hbody hx', ← heq]
    exact List.count_pos_iff.2 hx
  · exact heq ▸ hbinds.bindingSite hx (hprogram x hx)
  · obtain ⟨stem, n, rfl⟩ := hdraws.exists_numbered x hx
    have hp' := mem_free_of_lift (isCode_of_parse hp) hl (numbered_ne_discard stem n)
      (numbered_not_mem_builtins stem n) hfree
    exact hprogram _ hx (mem_identifiers_of_mem_free hp')

/-- A function and a name in a closed list look like made-up names. -/
def lookalikes : String :=
  "let x = 1 let lambda_0 = \x7b y : (> y x) x -> \x7b z -> (lambda_0 x z) \x7d" ++
    " n [\x7b x_2 -> n \x7d] -> n \x7d lambda_0"

theorem lift_hygienic_lookalikes :
    ∃ p l, parse lookalikes = .ok p ∧ lift p = .ok l ∧
      madeUp p = ["lambda_1", "x_3", "lambda_4"] ∧
      (∃ body s, expr Builtin.names [] p { taken := p.identifiers } = .ok body s ∧
        LiftState.Draws { taken := p.identifiers } (madeUp p) s) ∧
      IsHygienic p l (madeUp p) := by
  have hall : ((parse lookalikes).toOption.bind fun p => (lift p).toOption.bind fun _ =>
      some (madeUp p)) = some ["lambda_1", "x_3", "lambda_4"] := by decide +kernel
  obtain ⟨p, l, hp, hl, hmade⟩ := exists_parse_lift hall
  exact ⟨p, l, hp, hl, Option.some.inj hmade, (lift_hygienic hp hl).2⟩

end ClauseLang
