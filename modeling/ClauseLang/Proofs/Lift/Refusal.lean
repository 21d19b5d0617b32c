import ClauseLang.Proofs.Expr.Code
import ClauseLang.Proofs.Lift.Analysis
import ClauseLang.Lift.Basic

/-!
When lifting fails. Every pattern is analysed when the lifting comes to it, the patterns in its
clauses too, and these against other names than the source has in scope there. But what the analysis
of the outermost pattern has accepted, no analysis inside it refuses: the names of a row and all
names from around stay defined, and the pattern's own name is bound again wherever it is mentioned.
-/

namespace ClauseLang

open Sight (hide)

namespace Surroundings

variable {around around' : Surroundings} {bound : List String} {sights sights' : List Sight}

def Knows (around : Surroundings) (x : String) : Prop :=
  x = discard ∨ around.self = some x ∨ x ∈ around.defined ∨ x ∈ around.builtins

namespace Accepts

theorem left (h : around.Accepts (sights ++ sights')) : around.Accepts sights :=
  fun s hs => h s (List.mem_append_left _ hs)

theorem right (h : around.Accepts (sights ++ sights')) : around.Accepts sights' :=
  fun s hs => h s (List.mem_append_right _ hs)

/-- The surroundings matter for the names in use alone. Those that were hidden have to be known. -/
theorem of_hide (h : around.Accepts (hide bound sights))
    (hknows : ∀ x, .name x ∈ sights → x ∈ bound ∨ around.Knows x → around'.Knows x) :
    around'.Accepts sights := by
  rintro (x | clauses) hs
  · refine objection?_name_eq_none_iff.2 (hknows x hs ?_)
    by_cases hx : x ∈ bound
    · exact .inl hx
    · exact .inr (objection?_name_eq_none_iff.1 (h _ (Sight.mem_hide_name.2 ⟨hs, hx⟩)))
  · exact h _ (Sight.mem_hide_rows.2 hs)

theorem mono (h : around.Accepts sights)
    (hknows : ∀ x, .name x ∈ sights → around.Knows x → around'.Knows x) :
    around'.Accepts sights := by
  rw [← @Sight.hide_nil_left sights] at h
  exact h.of_hide fun x hs hx => hknows x hs (hx.resolve_left List.not_mem_nil)

theorem of_hide_of_subset (h : around.Accepts (hide bound sights))
    (hbound : bound ⊆ around.defined) : around.Accepts sights :=
  h.of_hide fun _ _ hx => hx.elim (fun hx => .inr (.inr (.inl (hbound hx)))) id

theorem of_rowSights {row : List Expr} (h : around.Accepts (Expr.rowSights row sights))
    (hrow : Expr.rowNames row ⊆ around.defined) : around.Accepts sights := by
  induction row with
  | nil => exact h
  | cons formal row ih =>
    rw [Expr.rowNames, List.flatMap_cons, List.append_subset] at hrow
    rw [Expr.rowSights] at h
    exact ih (h.right.of_hide_of_subset hrow.1) hrow.2

end Accepts

theorem freeNames_eq_ok_iff {clauses : List Clause} :
    (∃ captured, freeNames around clauses = .ok captured) ↔
      around.Accepts (Expr.pattern clauses []).sights := by
  rw [← collect_eq_ok_iff, freeNames_eq_collect]
  cases around.collect (Expr.pattern clauses []).sights <;> simp [Except.map]

end Surroundings

namespace Lifting

variable {α β : Type} {x : Lifting α} {P : α → Prop} {Q : β → Prop} {builtins : List String}

theorem bind_eq_of_eq_ok {f : α → Lifting β} {a : α} {s s' : LiftState} (h : x s = .ok a s') :
    (x >>= f) s = f a s' := by
  change EStateM.bind x f s = _
  rw [EStateM.bind, h]

/-- The computation has a result, in whatever state it begins, and the result has the property. -/
def Succeeds (x : Lifting α) (P : α → Prop := fun _ => True) : Prop :=
  ∀ s, ∃ a s', x s = .ok a s' ∧ P a

namespace Succeeds

theorem pure {a : α} (h : P a) : Succeeds (pure a) P :=
  fun s => ⟨a, s, rfl, h⟩

theorem bind {f : α → Lifting β} (h : Succeeds x P) (hf : ∀ a, P a → Succeeds (f a) Q) :
    Succeeds (x >>= f) Q := by
  intro s
  obtain ⟨a, s', hx, ha⟩ := h s
  rw [bind_eq_of_eq_ok hx]
  exact hf a ha s'

theorem map {f : α → β} (h : Succeeds x P) (hf : ∀ a, P a → Q (f a)) :
    Succeeds (x >>= fun a => Pure.pure (f a)) Q :=
  h.bind fun a ha => .pure (hf a ha)

end Succeeds

theorem fresh_succeeds (stem : String) : Succeeds (fresh stem) :=
  fun _ => ⟨_, _, rfl, trivial⟩

theorem leading_succeeds (locals names : List String) : Succeeds (leading locals names) := by
  induction names with
  | nil => exact .pure trivial
  | cons name names ih =>
    have hrest (param : String) :
        Succeeds (leading locals names >>= fun params => Pure.pure (param :: params)) :=
      ih.map fun _ _ => trivial
    rw [leading]
    split
    · exact (fresh_succeeds name).bind fun param _ => hrest param
    · exact hrest name

theorem replace_succeeds {around : Surroundings} {clauses : List Clause}
    {lift : String → List String → Lifting (List Clause)} {captured : List String}
    (h : freeNames around clauses = .ok captured)
    (hlift : ∀ name, Succeeds (lift name captured)) :
    Succeeds (replace around clauses lift) := by
  rw [replace, h]
  refine (fresh_succeeds "lambda").bind fun name _ => (hlift name).bind fun clauses _ => ?_
  have hmodify : Succeeds (modify fun s : LiftState =>
      { s with lifted := s.lifted ++ [(name, clauses)] }) :=
    fun _ => ⟨_, _, rfl, trivial⟩
  exact hmodify.map fun _ _ => trivial

/-- Of what is bound again, only what is mentioned is needed. -/
theorem accepts_mentioned {defined : List String} {outer : List (String × Expr)} {e : Expr}
    (h : Surroundings.Accepts { defined := outer.map Prod.fst ++ defined, builtins } e.sights) :
    Surroundings.Accepts { defined := (mentioned e outer).map Prod.fst ++ defined, builtins }
      e.sights := by
  refine h.mono fun x hs hx => ?_
  have hfree : x ∈ e.free := by
    rw [← Expr.names_sights]
    exact Sight.mem_names.2 hs
  have hmentioned := Expr.mem_identifiers_of_mem_free hfree
  simp only [Surroundings.Knows, List.mem_append, List.mem_map, mentioned, List.mem_filter] at hx ⊢
  grind

/-- What a row has bound by then need not be bound again. -/
theorem accepts_outside {defined bound : List String} {outer : List (String × Expr)}
    {sights : List Sight} (hbound : bound ⊆ defined)
    (h : Surroundings.Accepts { defined := outer.map Prod.fst ++ defined, builtins } sights) :
    Surroundings.Accepts { defined := (outside bound outer).map Prod.fst ++ defined, builtins }
      sights := by
  refine h.mono fun x hs hx => ?_
  have hx' := @hbound x
  simp only [Surroundings.Knows, List.mem_append, List.mem_map, outside, List.mem_filter] at hx ⊢
  grind

theorem mem_outerNames_self {captured params : List String} {self name x : String}
    (h : self = x) : x ∈ (outerNames captured params (some self) name).map Prod.fst := by
  simp [outerNames, h]

mutual

theorem expr_succeeds {defined : List String} {e : Expr}
    (h : Surroundings.Accepts { defined, builtins } e.sights) :
    Succeeds (expr builtins defined e) := by
  match e with
  | .pattern clauses captured =>
    rw [Expr.sights] at h
    obtain ⟨names, hnames⟩ := Surroundings.freeNames_eq_ok_iff.2 h
    rw [expr]
    exact replace_succeeds hnames fun name =>
      clauseList_succeeds fun s hs => h s (List.mem_cons_of_mem _ hs)
  | .letIn names values body =>
    rw [Expr.sights] at h
    rw [expr]
    exact (bindings_succeeds h).bind fun _ hbody => (expr_succeeds hbody).map fun _ _ => trivial
  | .application items | .list items =>
    rw [Expr.sights] at h
    rw [expr]
    exact (exprs_succeeds h).map fun _ _ => trivial
  | .identifier _ | .label _ | .text _ | .number _ | .builtin _ | .cons _ _ | .guarded _ _ _ =>
    exact .pure trivial
termination_by sizeOf e

theorem exprs_succeeds {defined : List String} {items : List Expr}
    (h : Surroundings.Accepts { defined, builtins } (Expr.itemsSights items)) :
    Succeeds (exprs builtins defined items) := by
  match items with
  | [] => exact .pure trivial
  | item :: items =>
    rw [Expr.itemsSights] at h
    rw [exprs]
    exact (expr_succeeds h.left).bind fun _ _ => (exprs_succeeds h.right).map fun _ _ => trivial
termination_by sizeOf items

theorem bindings_succeeds {defined names : List String} {values : List Expr} {rest : List Sight}
    (h : Surroundings.Accepts { defined, builtins } (Expr.bindingsSights names values rest)) :
    Succeeds (bindings builtins defined names values) fun r =>
      Surroundings.Accepts { defined := r.2, builtins } rest := by
  match names, values with
  | [], _ | _ :: _, [] =>
    simp only [Expr.bindingsSights] at h
    simp only [bindings]
    exact .pure h
  | name :: names, value :: values =>
    rw [Expr.bindingsSights] at h
    have hrest : Surroundings.Accepts { defined := name :: defined, builtins }
        (Expr.bindingsSights names values rest) := by
      refine h.right.of_hide fun x _ hx => ?_
      simp only [mem_boundNames_identifier, Surroundings.Knows, List.mem_cons] at hx ⊢
      grind
    by_cases hpattern : ∃ clauses captured, value = .pattern clauses captured
    · obtain ⟨clauses, captured, rfl⟩ := hpattern
      have hself : Surroundings.Accepts { defined, builtins, self := some name }
          (Expr.pattern clauses captured).sights := by
        refine h.left.of_hide fun x _ hx => ?_
        simp only [mem_boundNames_identifier, Surroundings.Knows] at hx ⊢
        grind
      rw [Expr.sights] at hself
      obtain ⟨taken, htaken⟩ := Surroundings.freeNames_eq_ok_iff.2 hself
      rw [bindings]
      refine (replace_succeeds htaken fun lifted =>
        clauseList_succeeds fun s hs => hself s (List.mem_cons_of_mem _ hs)).bind fun _ _ => ?_
      exact (bindings_succeeds hrest).map fun _ h => h
    · have hvalue := h.left
      rw [if_neg (by cases value <;> simp_all [Expr.isPattern])] at hvalue
      rw [bindings]
      · refine (expr_succeeds hvalue).bind fun _ _ => ?_
        exact (bindings_succeeds hrest).map fun _ h => h
      · exact fun clauses captured h => hpattern ⟨clauses, captured, h⟩
termination_by sizeOf names + sizeOf values

theorem clauseList_succeeds {defined captured : List String} {self : Option String} {name : String}
    {clauses : List Clause}
    (h : Surroundings.Accepts { defined, builtins, self } (Expr.clausesSights clauses)) :
    Succeeds (clauseList builtins defined self name captured clauses) := by
  match clauses with
  | [] => exact .pure trivial
  | .mk formals body :: clauses =>
    rw [Expr.clausesSights] at h
    rw [clauseList]
    refine (leading_succeeds _ captured).bind fun params _ => ?_
    have hlocals : Expr.rowNames formals ⊆ Expr.rowNames formals ++ params ++ defined := by
      rw [List.append_assoc]
      exact List.subset_append_left ..
    have hclause : Surroundings.Accepts
        { defined := (outerNames captured params self name).map Prod.fst ++
            (Expr.rowNames formals ++ params ++ defined), builtins }
        (Expr.rowSights formals body.sights) := by
      refine h.left.mono fun x _ hx => ?_
      simp only [Surroundings.Knows, List.mem_append] at hx ⊢
      have hself := @mem_outerNames_self captured params x name
      grind
    have hbody := hclause.of_rowSights (List.Subset.trans hlocals (List.subset_append_right ..))
    refine (row_succeeds (List.nil_subset _) hlocals hclause).bind fun _ _ => ?_
    refine (expr_succeeds (accepts_mentioned (accepts_outside hlocals hbody))).bind fun _ _ => ?_
    exact (clauseList_succeeds h.right).map fun _ _ => trivial
termination_by sizeOf clauses

theorem row_succeeds {defined bound : List String} {outer : List (String × Expr)}
    {formals : List Expr} {rest : List Sight} (hbound : bound ⊆ defined)
    (hrow : Expr.rowNames formals ⊆ defined)
    (h : Surroundings.Accepts { defined := outer.map Prod.fst ++ defined, builtins }
      (Expr.rowSights formals rest)) :
    Succeeds (row builtins defined outer bound formals) := by
  match formals with
  | [] => exact .pure trivial
  | first :: formals =>
    rw [Expr.rowNames, List.flatMap_cons, List.append_subset] at hrow
    rw [Expr.rowSights] at h
    rw [row]
    have hseen := List.append_subset.2 ⟨hbound, hrow.1⟩
    refine (formal_succeeds hrow.1 (accepts_outside hseen h.left)).bind fun _ _ => ?_
    have hrest := h.right.of_hide_of_subset (List.Subset.trans hrow.1 (List.subset_append_right ..))
    exact (row_succeeds hseen hrow.2 hrest).map fun _ _ => trivial
termination_by sizeOf formals

theorem formal_succeeds {defined : List String} {outer : List (String × Expr)} {e : Expr}
    (hbound : e.boundNames ⊆ defined)
    (h : Surroundings.Accepts { defined := outer.map Prod.fst ++ defined, builtins }
      e.formalSights) :
    Succeeds (formal builtins defined outer e) := by
  match e with
  | .cons head tail =>
    rw [Expr.boundNames, List.append_subset] at hbound
    rw [Expr.formalSights] at h
    rw [formal]
    have htail := h.right.of_hide_of_subset (List.Subset.trans hbound.1 (List.subset_append_right ..))
    exact (formal_succeeds hbound.1 h.left).bind fun _ _ =>
      (formal_succeeds hbound.2 htail).map fun _ _ => trivial
  | .guarded inner condition constant =>
    rw [Expr.boundNames] at hbound
    rw [Expr.formalSights] at h
    have hcondition :=
      h.right.of_hide_of_subset (List.Subset.trans hbound (List.subset_append_right ..))
    rw [formal]
    refine (formal_succeeds hbound h.left).bind fun _ _ => ?_
    cases constant with
    | true => exact .pure trivial
    | false => exact (expr_succeeds (accepts_mentioned hcondition)).map fun _ _ => trivial
  | .identifier _ | .application _ | .list _ | .letIn _ _ _ | .pattern _ _ | .label _ | .text _
  | .number _ | .builtin _ => exact .pure trivial
termination_by sizeOf e

end

end Lifting

namespace Expr

mutual

/-- The patterns of an expression that are in no other pattern, as they are written, each with what it
finds around it: the names bound by a `letIn`, and its own name if it is the value of one. -/
def outermost (builtins defined : List String) : Expr → List (Surroundings × List Clause)
  | .pattern clauses _ => [({ defined, builtins }, clauses)]
  | .application items | .list items => itemsOutermost builtins defined items
  | .cons head tail => head.outermost builtins defined ++ tail.outermost builtins defined
  | .guarded inner condition _ =>
    inner.outermost builtins defined ++ condition.outermost builtins defined
  | .letIn names values body =>
    bindingsOutermost builtins defined names values ++
      body.outermost builtins (names.reverse ++ defined)
  | .identifier _ | .label _ | .text _ | .number _ | .builtin _ => []

def itemsOutermost (builtins defined : List String) :
    List Expr → List (Surroundings × List Clause)
  | [] => []
  | item :: items => item.outermost builtins defined ++ itemsOutermost builtins defined items

def bindingsOutermost (builtins defined : List String) :
    List String → List Expr → List (Surroundings × List Clause)
  | name :: names, .pattern clauses _ :: values =>
    ({ defined, builtins, self := some name }, clauses) ::
      bindingsOutermost builtins (name :: defined) names values
  | name :: names, value :: values =>
    value.outermost builtins defined ++ bindingsOutermost builtins (name :: defined) names values
  | _, _ => []

end

end Expr

def refusal? (site : Surroundings × List Clause) : Option LiftError :=
  match freeNames site.1 site.2 with
  | .ok _ => none
  | .error e => some e

theorem refusal?_eq_none_iff {site : Surroundings × List Clause} :
    refusal? site = none ↔ ∃ captured, freeNames site.1 site.2 = .ok captured := by
  rw [refusal?]
  cases freeNames site.1 site.2 <;> simp

theorem refusal?_eq_some_iff {site : Surroundings × List Clause} {e : LiftError} :
    refusal? site = some e ↔ freeNames site.1 site.2 = .error e := by
  rw [refusal?]
  cases freeNames site.1 site.2 <;> simp

theorem findSome?_refusal?_cons (site : Surroundings × List Clause)
    (sites : List (Surroundings × List Clause)) :
    (site :: sites).findSome? refusal? = (refusal? site).or (sites.findSome? refusal?) := by
  rw [List.findSome?_cons]
  cases refusal? site <;> rfl

namespace Lifting

variable {α β : Type} {x : Lifting α} {P : α → Prop} {Q : β → Prop} {builtins : List String}

/-- The computation is refused for the given reason, and has a result if there is none. -/
def Comes (x : Lifting α) (refusal : Option LiftError) (P : α → Prop := fun _ => True) : Prop :=
  match refusal with
  | some e => ∀ s, ∃ s', x s = .error e s'
  | none => Succeeds x P

theorem Comes.bind {refusal refusal' : Option LiftError} {f : α → Lifting β}
    (h : Comes x refusal P) (hf : ∀ a, P a → Comes (f a) refusal' Q) :
    Comes (x >>= f) (refusal.or refusal') Q := by
  cases refusal with
  | some e =>
    intro s
    obtain ⟨s', hx⟩ := h s
    refine ⟨s', ?_⟩
    change EStateM.bind x f s = _
    rw [EStateM.bind, hx]
  | none =>
    cases refusal' with
    | some e =>
      intro s
      obtain ⟨a, s', hx, ha⟩ := h s
      rw [bind_eq_of_eq_ok hx]
      exact hf a ha s'
    | none => exact Succeeds.bind h hf

theorem Comes.map {refusal : Option LiftError} {f : α → β} (h : Comes x refusal P)
    (hf : ∀ a, P a → Q (f a)) : Comes (x >>= fun a => pure (f a)) refusal Q := by
  have hpure (a : α) (ha : P a) : Comes (pure (f a) : Lifting β) none Q := Succeeds.pure (hf a ha)
  have hbind := h.bind hpure
  rwa [Option.or_none] at hbind

theorem replace_comes {around : Surroundings} {clauses : List Clause}
    {lift : String → List String → Lifting (List Clause)}
    (h : ∀ name captured, around.Accepts (Expr.clausesSights clauses) →
      Succeeds (lift name captured)) :
    Comes (replace around clauses lift) (refusal? (around, clauses)) := by
  cases hnames : freeNames around clauses with
  | error e =>
    rw [refusal?_eq_some_iff.2 hnames]
    intro s
    refine ⟨s, ?_⟩
    rw [replace, hnames]
    rfl
  | ok captured =>
    rw [refusal?_eq_none_iff.2 ⟨captured, hnames⟩]
    have haccepts := Surroundings.freeNames_eq_ok_iff.1 ⟨captured, hnames⟩
    rw [Expr.sights] at haccepts
    exact replace_succeeds hnames fun name =>
      h name captured fun s hs => haccepts s (List.mem_cons_of_mem _ hs)

mutual

/-- The lifting of an expression is refused with the first of its outermost patterns that is. -/
theorem expr_comes {defined : List String} {e : Expr} (h : IsCode e) :
    Comes (expr builtins defined e) ((e.outermost builtins defined).findSome? refusal?) := by
  match e with
  | .pattern clauses captured =>
    rw [expr, Expr.outermost, List.findSome?_singleton]
    exact replace_comes fun name captured => clauseList_succeeds
  | .letIn names values body =>
    cases h with
    | letIn hlen hvalues hbody =>
      rw [expr, Expr.outermost, List.findSome?_append]
      refine (bindings_comes hlen hvalues).bind ?_
      rintro ⟨values, inner⟩ rfl
      exact (expr_comes hbody).map fun _ _ => trivial
  | .application items =>
    cases h with
    | application h =>
      rw [expr, Expr.outermost]
      exact (exprs_comes h).map fun _ _ => trivial
  | .list items =>
    cases h with
    | list h =>
      rw [expr, Expr.outermost]
      exact (exprs_comes h).map fun _ _ => trivial
  | .identifier _ | .label _ | .text _ | .number _ | .builtin _ => exact Succeeds.pure trivial
termination_by sizeOf e

theorem exprs_comes {defined : List String} {items : List Expr} (h : ∀ item ∈ items, IsCode item) :
    Comes (exprs builtins defined items)
      ((Expr.itemsOutermost builtins defined items).findSome? refusal?) := by
  match items with
  | [] => exact Succeeds.pure trivial
  | item :: items =>
    rw [List.forall_mem_cons] at h
    rw [exprs, Expr.itemsOutermost, List.findSome?_append]
    exact (expr_comes h.1).bind fun _ _ => (exprs_comes h.2).map fun _ _ => trivial
termination_by sizeOf items

theorem bindings_comes {defined names : List String} {values : List Expr}
    (hlen : names.length = values.length) (h : ∀ value ∈ values, IsCode value) :
    Comes (bindings builtins defined names values)
      ((Expr.bindingsOutermost builtins defined names values).findSome? refusal?)
      fun r => r.2 = names.reverse ++ defined := by
  match names, values with
  | [], [] => exact Succeeds.pure rfl
  | name :: names, value :: values =>
    rw [List.forall_mem_cons] at h
    have hinner (inner : List String) (hinner : inner = names.reverse ++ name :: defined) :
        inner = (name :: names).reverse ++ defined := by
      rw [hinner, List.reverse_cons, List.append_assoc, List.singleton_append]
    have hrest : Comes (bindings builtins (name :: defined) names values) _
        fun r => r.2 = names.reverse ++ name :: defined :=
      bindings_comes (Nat.succ.inj hlen) h.2
    by_cases hpattern : ∃ clauses captured, value = .pattern clauses captured
    · obtain ⟨clauses, captured, rfl⟩ := hpattern
      rw [bindings, Expr.bindingsOutermost, findSome?_refusal?_cons]
      refine (replace_comes fun lifted captured => clauseList_succeeds).bind fun _ _ => ?_
      exact hrest.map fun r => hinner r.2
    · rw [bindings, Expr.bindingsOutermost, List.findSome?_append]
      · exact (expr_comes h.1).bind fun _ _ => hrest.map fun r => hinner r.2
      all_goals exact fun clauses captured h => hpattern ⟨clauses, captured, h⟩
termination_by sizeOf names + sizeOf values

end

end Lifting

theorem lift_eq_error_iff_findSome? {p : Expr} {e : LiftError} (h : IsCode p) :
    lift p = .error e ↔ (p.outermost Builtin.names []).findSome? refusal? = some e := by
  have hcomes : Lifting.Comes (Lifting.expr Builtin.names [] p) _ := Lifting.expr_comes h
  rw [lift, liftWith]
  cases hrefusal : (p.outermost Builtin.names []).findSome? refusal? with
  | some e' =>
    rw [hrefusal] at hcomes
    obtain ⟨s', hs'⟩ := hcomes { taken := p.identifiers }
    simp [hs']
  | none =>
    rw [hrefusal] at hcomes
    obtain ⟨body, s', hs', -⟩ := hcomes { taken := p.identifiers }
    simp [hs']

/-- A program is refused if one of its outermost patterns is, and for the reason that the first of
these is refused. The clauses of a pattern that is not refused can all be lifted. -/
theorem lift_eq_error_iff {source : String} {p : Expr} (h : parse source = .ok p) :
    (∀ e, lift p = .error e ↔ ∃ before around clauses after,
      p.outermost Builtin.names [] = before ++ (around, clauses) :: after ∧
        (∀ site ∈ before, ∃ captured, freeNames site.1 site.2 = .ok captured) ∧
          freeNames around clauses = .error e) ∧
    ∀ around clauses captured, freeNames around clauses = .ok captured → ∀ name s,
      ∃ lifted s', Lifting.clauseList around.builtins around.defined around.self name captured
        clauses s = .ok lifted s' := by
  constructor
  · intro e
    rw [lift_eq_error_iff_findSome? (isCode_of_parse h), List.findSome?_eq_some_iff]
    constructor
    · rintro ⟨before, ⟨around, clauses⟩, after, hsites, hsite, hbefore⟩
      exact ⟨before, around, clauses, after, hsites,
        fun site hsite => refusal?_eq_none_iff.1 (hbefore site hsite),
        refusal?_eq_some_iff.1 hsite⟩
    · rintro ⟨before, around, clauses, after, hsites, hbefore, hsite⟩
      exact ⟨before, (around, clauses), after, hsites, refusal?_eq_some_iff.2 hsite,
        fun site hsite => refusal?_eq_none_iff.2 (hbefore site hsite)⟩
  · intro around clauses captured hcaptured name s
    have haccepts := Surroundings.freeNames_eq_ok_iff.1 ⟨captured, hcaptured⟩
    rw [Expr.sights] at haccepts
    have hsucceeds : Lifting.Succeeds (Lifting.clauseList around.builtins around.defined
        around.self name captured clauses) :=
      Lifting.clauseList_succeeds fun t ht => haccepts t (List.mem_cons_of_mem _ ht)
    obtain ⟨lifted, s', hlifted, -⟩ := hsucceeds s
    exact ⟨lifted, s', hlifted⟩

/-- Two outermost patterns. The first names itself; the second uses a name that nobody knows. -/
def strayName : String :=
  "let f = { n -> { k -> (f n k) } } ({ x -> y } f)"

theorem lift_eq_error_iff_strayName :
    ∃ p first second captured, parse strayName = .ok p ∧
      p.outermost Builtin.names [] = [first, second] ∧
        freeNames first.1 first.2 = .ok captured ∧ lift p = .error (.undefined "y") ∧
          ∃ lifted s', Lifting.clauseList first.1.builtins first.1.defined first.1.self "lambda_0"
            captured first.2 { taken := [] } = .ok lifted s' := by
  have hall : ((parse strayName).toOption.map fun p =>
      (p.outermost Builtin.names []).map refusal?) = some [none, some (.undefined "y")] := by
    decide +kernel
  obtain ⟨p, hp, hsites⟩ := Option.map_eq_some_iff.1 hall
  have hp := eq_ok_of_toOption_eq_some hp
  match hsites' : p.outermost Builtin.names [] with
  | [] => simp [hsites'] at hsites
  | [_] => simp [hsites'] at hsites
  | _ :: _ :: _ :: _ => simp [hsites'] at hsites
  | [first, second] =>
    simp only [hsites', List.map_cons, List.map_nil, List.cons.injEq, and_true] at hsites
    obtain ⟨captured, hfirst⟩ := refusal?_eq_none_iff.1 hsites.1
    have hlift := ((lift_eq_error_iff hp).1 (.undefined "y")).2 ⟨[first], second.1, second.2, [],
      hsites', by simpa using ⟨captured, hfirst⟩, refusal?_eq_some_iff.1 hsites.2⟩
    exact ⟨p, first, second, captured, hp, hsites', hfirst, hlift,
      (lift_eq_error_iff hp).2 first.1 first.2 captured hfirst "lambda_0" { taken := [] }⟩

end ClauseLang
