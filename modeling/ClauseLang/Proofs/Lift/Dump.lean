import ClauseLang.Proofs.Lift.Code
import ClauseLang.Proofs.Reader.Merge

/-!
The printed form of a lifted program. Lifting makes up names and wraps expressions, and all of it can
be written: what is printed reads as the lifted program with its `letIn`s merged.
-/

namespace ClauseLang

open Lifting Scan

theorem isBinder_numbered {stem : String} (h : IsBinder stem) (n : Nat) :
    IsBinder (numbered stem n) := by
  have htext : (numbered stem n).toList = stem.toList ++ '_' :: Nat.toDigits 10 n := by
    simp [numbered, Nat.repr_eq_ofList_toDigits]
  have hdigits : (Nat.toDigits 10 n).all isIdentRest := by
    rw [List.all_eq_true]
    intro c hc
    have hdigit := Nat.isDigit_of_mem_toDigits (by decide) (by decide) hc
    simp [isIdentRest, Char.isAlphanum, hdigit]
  refine ⟨?_, ?_⟩
  · rw [htext]
    have hstem := h.1
    cases hcs : stem.toList with
    | nil =>
      rw [hcs] at hstem
      cases hstem
    | cons c cs =>
      rw [hcs, isIdent, Bool.and_eq_true] at hstem
      simp [isIdent, hstem.1, hstem.2, hdigits, isIdentRest]
  · intro hlet
    have hbar : '_' ∈ (numbered stem n).toList := by
      rw [htext]
      simp
    rw [hlet] at hbar
    revert hbar
    decide

/-- A binding that can be written. -/
def IsReadableBinding (p : String × Expr) : Prop :=
  IsBinder p.1 ∧ IsReadable p.2

theorem isReadable_call {name : String} {arguments : List String} (hname : IsBinder name)
    (h : ∀ x ∈ arguments, IsBinder x) : IsReadable (call name arguments) := by
  unfold call
  split
  · exact hname.isReadable
  · refine .application fun item hi => ?_
    obtain ⟨x, hx, rfl⟩ := List.mem_map.1 hi
    rcases List.mem_cons.1 hx with rfl | hx
    · exact hname.isReadable
    · exact (h x hx).isReadable

theorem isReadable_wrap {bindings : List (String × Expr)} {e : Expr}
    (h : ∀ p ∈ bindings, IsReadableBinding p) (he : IsReadable e) :
    IsReadable (wrap bindings e) := by
  unfold wrap
  split
  · exact he
  next hne =>
    refine .letIn (by simpa using hne) (fun name hn => ?_) (fun value hv => ?_) he
    · obtain ⟨p, hp, rfl⟩ := List.mem_map.1 hn
      exact (h p hp).1
    · obtain ⟨p, hp, rfl⟩ := List.mem_map.1 hv
      exact (h p hp).2

theorem isReadableBinding_outerNames {captured params : List String} {self : Option String}
    {name : String} (hcaptured : ∀ x ∈ captured, IsBinder x) (hparams : ∀ x ∈ params, IsBinder x)
    (hself : ∀ x ∈ self, IsBinder x) (hname : IsBinder name) :
    ∀ p ∈ outerNames captured params self name, IsReadableBinding p := by
  intro p hp
  simp only [outerNames, List.mem_append, List.mem_map, Option.mem_toList,
    Option.map_eq_some_iff] at hp
  rcases hp with ⟨q, hq, rfl⟩ | ⟨f, hf, rfl⟩
  · obtain ⟨hold, hnew⟩ := List.of_mem_zip (List.mem_filter.1 hq).1
    exact ⟨hcaptured _ hold, (hparams _ hnew).isReadable⟩
  · exact ⟨hself f hf, isReadable_call hname hparams⟩

theorem isBinder_of_mem_boundNames {e : Expr} (h : IsReadableFormal e) :
    ∀ x ∈ e.boundNames, IsBinder x := by
  match e, h with
  | .identifier name, .identifier hname =>
    intro x hx
    rw [Expr.boundNames] at hx
    split at hx
    · cases hx
    · rwa [List.mem_singleton.1 hx]
  | _, .literal h => cases h <;> exact fun _ h => nomatch h
  | .list items, .list _ => exact fun _ h => nomatch h
  | .cons head tail, .cons hhead htail =>
    intro x hx
    rw [Expr.boundNames, List.mem_append] at hx
    exact hx.elim (isBinder_of_mem_boundNames hhead x) (isBinder_of_mem_boundNames htail x)
  | .guarded (.identifier name) condition constant, .guarded _ hname _ =>
    have hinner : IsReadableFormal (.identifier name) := .identifier hname
    exact fun x hx => isBinder_of_mem_boundNames hinner x hx
termination_by sizeOf e

theorem isBinder_of_mem_rowNames {row : List Expr} (h : ∀ formal ∈ row, IsReadableFormal formal) :
    ∀ x ∈ Expr.rowNames row, IsBinder x := by
  intro x hx
  obtain ⟨formal, hformal, hx⟩ := List.mem_flatMap.1 hx
  exact isBinder_of_mem_boundNames (h formal hformal) x hx

theorem isBinder_of_mem_append {bindings : List (String × Expr)} {defined : List String}
    (h : ∀ p ∈ bindings, IsReadableBinding p) (hdefined : ∀ x ∈ defined, IsBinder x) :
    ∀ x ∈ bindings.map Prod.fst ++ defined, IsBinder x := by
  intro x hx
  rcases List.mem_append.1 hx with hx | hx
  · obtain ⟨p, hp, rfl⟩ := List.mem_map.1 hx
    exact (h p hp).1
  · exact hdefined x hx

/-- Every lifted pattern can be written, and so can its name. -/
def LiftState.IsReadable (s : LiftState) : Prop :=
  ∀ p ∈ s.lifted, IsBinder p.1 ∧ ∀ clause ∈ p.2, IsReadableClause clause

namespace Lifting

/-- What comes of a step of lifting if all that was lifted before can be written: that is still so,
and the result has the property. -/
def Writes {α : Type} (x : Lifting α) (Q : α → Prop) : Prop :=
  ∀ s a s', s.IsReadable → x s = .ok a s' → s'.IsReadable ∧ Q a

namespace Writes

variable {α β : Type} {x : Lifting α} {Q : α → Prop} {R : β → Prop}

theorem pure {a : α} (h : Q a) : Writes (pure a) Q := by
  rintro s _ _ hs ⟨⟩
  exact ⟨hs, h⟩

theorem bind {f : α → Lifting β} (hx : Writes x Q) (hf : ∀ a, Q a → Writes (f a) R) :
    Writes (x >>= f) R := by
  intro s b s₂ hs h
  obtain ⟨a, s₁, ha, hb⟩ := exists_of_bind_eq_ok h
  obtain ⟨hs₁, hQ⟩ := hx s a s₁ hs ha
  exact hf a hQ s₁ b s₂ hs₁ hb

end Writes

variable {builtins : List String}

theorem fresh_writes {stem : String} (h : IsBinder stem) : Writes (fresh stem) IsBinder := by
  rintro s _ _ hs ⟨⟩
  exact ⟨hs, isBinder_numbered h _⟩

theorem leading_writes (locals : List String) {captured : List String}
    (h : ∀ x ∈ captured, IsBinder x) :
    Writes (leading locals captured) fun params => ∀ x ∈ params, IsBinder x := by
  induction captured with
  | nil => exact .pure (by simp)
  | cons old captured ih =>
    simp only [List.mem_cons, forall_eq_or_imp] at h
    rw [leading_cons]
    have hparam : Writes (if old ∈ locals then fresh old else pure old) IsBinder := by
      split
      · exact fresh_writes h.1
      · exact .pure h.1
    exact hparam.bind fun param hparam => (ih h.2).bind fun params hparams =>
      .pure (by simpa using ⟨hparam, hparams⟩)

theorem replace_writes {defined : List String} {self : Option String} {clauses : List Clause}
    {lift : String → List String → Lifting (List Clause)} (hdefined : ∀ x ∈ defined, IsBinder x)
    (hlift : ∀ name captured, IsBinder name → (∀ x ∈ captured, IsBinder x) →
      Writes (lift name captured) fun clauses => ∀ clause ∈ clauses, IsReadableClause clause) :
    Writes (replace { defined, builtins, self } clauses lift) IsReadable := by
  unfold replace
  cases hcaptured : freeNames { defined, builtins, self } clauses with
  | error e => exact fun _ _ _ _ h => nomatch h
  | ok captured =>
    have hbinder : ∀ x ∈ captured, IsBinder x := fun x hx =>
      hdefined x (((freeNames_accounts hcaptured).1.mem_iff x).1 hx).2.2.2.2
    have hname : Writes (fresh "lambda") IsBinder := fresh_writes ⟨by decide, by decide⟩
    refine hname.bind fun name hname => (hlift name captured hname hbinder).bind
      fun clauses' hclauses' => ?_
    have hmodify : Writes (modify fun s => { s with lifted := s.lifted ++ [(name, clauses')] })
        fun _ => True := by
      rintro s _ _ hs ⟨⟩
      refine ⟨fun p hp => ?_, trivial⟩
      rcases List.mem_append.1 hp with hp | hp
      · exact hs p hp
      · rw [List.mem_singleton.1 hp]
        exact ⟨hname, hclauses'⟩
    exact hmodify.bind fun _ _ => .pure (isReadable_call hname hbinder)

mutual

theorem expr_writes {defined : List String} {e : Expr} (h : IsReadable e)
    (hdefined : ∀ x ∈ defined, IsBinder x) :
    Writes (expr builtins defined e) IsReadable := by
  match e, h with
  | .identifier name, .identifier hname => exact .pure (.identifier hname)
  | _, .literal h => cases h with
    | label hne hall => exact .pure (.literal (.label hne hall))
    | text value => exact .pure (.literal (.text value))
    | number value => exact .pure (.literal (.number value))
  | .application items, .application h =>
    exact (exprs_writes h hdefined).bind fun items' h' => .pure (.application h')
  | .list items, .list h =>
    exact (exprs_writes h hdefined).bind fun items' h' => .pure (.list h')
  | .letIn names values body, .letIn hne hnames hvalues hbody =>
    refine (bindings_writes hnames hvalues hdefined).bind fun ⟨values', inner⟩ ⟨hvalues', hinner⟩ => ?_
    exact (expr_writes hbody hinner).bind fun body' hbody' =>
      .pure (.letIn hne hnames hvalues' hbody')
  | .pattern clauses _, .pattern h =>
    exact replace_writes hdefined fun name captured hname hcaptured =>
      clauseList_writes h hdefined (by simp) hname hcaptured
termination_by sizeOf e

theorem exprs_writes {defined : List String} {items : List Expr} (h : ∀ item ∈ items, IsReadable item)
    (hdefined : ∀ x ∈ defined, IsBinder x) :
    Writes (exprs builtins defined items) fun items' => ∀ item ∈ items', IsReadable item := by
  match items with
  | [] => exact .pure h
  | item :: items =>
    simp only [List.mem_cons, forall_eq_or_imp] at h
    refine (expr_writes h.1 hdefined).bind fun item' hitem => ?_
    exact (exprs_writes h.2 hdefined).bind fun items' hitems =>
      .pure (by simpa using ⟨hitem, hitems⟩)
termination_by sizeOf items

theorem bindings_writes {defined names : List String} {values : List Expr}
    (hnames : ∀ name ∈ names, IsBinder name) (h : ∀ value ∈ values, IsReadable value)
    (hdefined : ∀ x ∈ defined, IsBinder x) :
    Writes (bindings builtins defined names values) fun r =>
      (∀ value ∈ r.1, IsReadable value) ∧ ∀ x ∈ r.2, IsBinder x := by
  match names, values with
  | [], [] | [], _ :: _ | _ :: _, [] => exact .pure ⟨by simp, hdefined⟩
  | name :: names, value :: values =>
    simp only [List.mem_cons, forall_eq_or_imp] at h hnames
    have hinner : ∀ x ∈ name :: defined, IsBinder x := by
      simpa using ⟨hnames.1, hdefined⟩
    have hrest {value' : Expr} (hvalue : IsReadable value') :
        Writes (do
          let (values', inner) ← bindings builtins (name :: defined) names values
          return (value' :: values', inner)) fun r =>
            (∀ value ∈ r.1, IsReadable value) ∧ ∀ x ∈ r.2, IsBinder x :=
      (bindings_writes hnames.2 h.2 hinner).bind fun r hr =>
        .pure ⟨by simpa using ⟨hvalue, hr.1⟩, hr.2⟩
    by_cases hpattern : value.isPattern
    · obtain ⟨clauses, scopes, rfl⟩ := exists_eq_pattern hpattern
      have hclauses : ∀ clause ∈ clauses, IsReadableClause clause := by
        cases h.1 with
        | literal h => cases h
        | pattern hclauses => exact hclauses
      rw [bindings]
      refine (replace_writes hdefined fun lifted captured hlifted hcaptured => ?_).bind
        fun value' hvalue => hrest hvalue
      exact clauseList_writes hclauses hdefined (by simpa using hnames.1) hlifted hcaptured
    · rw [bindings_of_isPattern_eq_false _ _ _ _ _ (by simpa using hpattern)]
      exact (expr_writes h.1 hdefined).bind fun value' hvalue => hrest hvalue
termination_by sizeOf names + sizeOf values

theorem clauseList_writes {defined : List String} {clauses : List Clause} {self : Option String}
    {name : String} {captured : List String} (h : ∀ clause ∈ clauses, IsReadableClause clause)
    (hdefined : ∀ x ∈ defined, IsBinder x) (hself : ∀ x ∈ self, IsBinder x)
    (hname : IsBinder name) (hcaptured : ∀ x ∈ captured, IsBinder x) :
    Writes (clauseList builtins defined self name captured clauses) fun clauses' =>
      ∀ clause ∈ clauses', IsReadableClause clause := by
  match clauses with
  | [] => exact .pure h
  | .mk formals body :: clauses =>
    simp only [List.mem_cons, forall_eq_or_imp] at h
    match h.1 with
    | .mk hrow hbody =>
      refine (leading_writes _ hcaptured).bind fun params hparams => ?_
      have houter := isReadableBinding_outerNames hcaptured hparams hself hname
      have hused : ∀ p ∈ mentioned body
          (outside (Expr.rowNames formals) (outerNames captured params self name)),
          IsReadableBinding p :=
        fun p hp => houter p (List.mem_filter.1 (List.mem_filter.1 hp).1).1
      have hinner : ∀ x ∈ Expr.rowNames formals ++ params ++ defined, IsBinder x := by
        intro x hx
        simp only [List.mem_append] at hx
        rcases hx with (hx | hx) | hx
        · exact isBinder_of_mem_rowNames hrow x hx
        · exact hparams x hx
        · exact hdefined x hx
      refine (row_writes hrow hinner houter []).bind fun row' hrow' => ?_
      refine (expr_writes hbody (isBinder_of_mem_append hused hinner)).bind fun body' hbody' => ?_
      refine (clauseList_writes h.2 hdefined hself hname hcaptured).bind fun clauses' hclauses' => ?_
      refine .pure ?_
      simp only [List.mem_cons, forall_eq_or_imp]
      refine ⟨.mk (fun formal hf => ?_) (isReadable_wrap hused hbody'), hclauses'⟩
      rcases List.mem_append.1 hf with hf | hf
      · obtain ⟨x, hx, rfl⟩ := List.mem_map.1 hf
        exact .identifier (hparams x hx)
      · exact hrow' formal hf
termination_by sizeOf clauses

theorem row_writes {defined : List String} {formals : List Expr} {outer : List (String × Expr)}
    (h : ∀ formal ∈ formals, IsReadableFormal formal) (hdefined : ∀ x ∈ defined, IsBinder x)
    (houter : ∀ p ∈ outer, IsReadableBinding p) (bound : List String) :
    Writes (row builtins defined outer bound formals) fun row' =>
      ∀ formal ∈ row', IsReadableFormal formal := by
  match formals with
  | [] => exact .pure h
  | first :: rest =>
    simp only [List.mem_cons, forall_eq_or_imp] at h
    have houtside : ∀ p ∈ outside (bound ++ first.boundNames) outer, IsReadableBinding p :=
      fun p hp => houter p (List.mem_filter.1 hp).1
    refine (formal_writes h.1 hdefined houtside).bind fun first' hfirst => ?_
    exact (row_writes h.2 hdefined houter _).bind fun rest' hrest =>
      .pure (by simpa using ⟨hfirst, hrest⟩)
termination_by sizeOf formals

theorem formal_writes {defined : List String} {e : Expr} {outer : List (String × Expr)}
    (h : IsReadableFormal e) (hdefined : ∀ x ∈ defined, IsBinder x)
    (houter : ∀ p ∈ outer, IsReadableBinding p) :
    Writes (formal builtins defined outer e) IsReadableFormal := by
  match e, h with
  | .identifier name, .identifier hname => exact .pure (.identifier hname)
  | _, .literal h => cases h with
    | label hne hall => exact .pure (.literal (.label hne hall))
    | text value => exact .pure (.literal (.text value))
    | number value => exact .pure (.literal (.number value))
  | .list items, .list h => exact .pure (.list h)
  | .cons head tail, .cons hhead htail =>
    rw [formal]
    refine (formal_writes hhead hdefined houter).bind fun head' hhead' => ?_
    exact (formal_writes htail hdefined houter).bind fun tail' htail' => .pure (.cons hhead' htail')
  | .guarded (.identifier name) condition constant, .guarded _ hname hcondition =>
    have hused : ∀ p ∈ mentioned condition outer, IsReadableBinding p :=
      fun p hp => houter p (List.mem_filter.1 hp).1
    have hlifted : Writes (if constant then pure condition
        else expr builtins ((mentioned condition outer).map Prod.fst ++ defined) condition)
        IsReadable := by
      split
      · exact .pure hcondition
      · exact expr_writes hcondition (isBinder_of_mem_append hused hdefined)
    rw [formal_guarded]
    exact hlifted.bind fun condition' h' => .pure (.guarded constant hname (isReadable_wrap hused h'))
termination_by sizeOf e

end

end Lifting

theorem isReadable_of_lift {e l : Expr} (he : IsReadable e) (h : lift e = .ok l) :
    IsReadable l := by
  obtain ⟨body, s, hr, rfl⟩ := exists_of_lift h
  have hstart : ({ taken := e.identifiers } : LiftState).IsReadable := by
    simp [LiftState.IsReadable]
  obtain ⟨hs, hbody⟩ := expr_writes he (by simp) _ body s hstart hr
  refine isReadable_wrap (fun p hp => ?_) hbody
  obtain ⟨q, hq, rfl⟩ := List.mem_map.1 hp
  obtain ⟨hname, hclauses⟩ := hs q hq
  exact ⟨hname, .pattern hclauses⟩

/-- What is printed for a lifted program reads as that program, with its `letIn`s merged. -/
theorem parse_render_lift {source : String} {p l : Expr} (hp : parse source = .ok p)
    (hl : lift p = .ok l) : parse l.render = .ok l.mergeLets :=
  parse_render_of_isReadable (isCode_of_lift (isCode_of_parse hp) hl)
    (isReadable_of_lift (isReadable_of_parse hp) hl)

/-- A guard needs a name that the row binds again, and a body that binds names needs the function
itself. -/
def reboundNames : String :=
  "let k = 2 let f = { x : (> x k) k -> let y = k { z -> (f (+ z k) y) } } ((f 3 1) 0)"

theorem parse_render_lift_reboundNames :
    ∃ p l, parse reboundNames = .ok p ∧ lift p = .ok l ∧ parse l.render = .ok l.mergeLets := by
  have hall : ((parse reboundNames).toOption.bind fun p => (lift p).toOption.bind fun _ =>
      some ()) = some () := by decide +kernel
  obtain ⟨p, l, hp, hl, -⟩ := exists_parse_lift hall
  exact ⟨p, l, hp, hl, parse_render_lift hp hl⟩

end ClauseLang
