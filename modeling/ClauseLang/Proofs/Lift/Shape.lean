import ClauseLang.Proofs.Expr.Code
import ClauseLang.Proofs.Lift.Free
import ClauseLang.Proofs.Lift.Fresh

/-!
What lifting makes of code. The relation follows the code and leaves out how names are found: it says
of a new name only that it is one.
-/

namespace ClauseLang

open Lifting

/-- The names that a program is lifted with. -/
structure Vocabulary where
  program : List String
  /-- The names that are always defined. -/
  builtins : List String
  /-- The names that are not given to lifted patterns. -/
  IsPlain : String → Prop

/-- Lifted patterns with their names, innermost first. -/
abbrev LiftTable := List (String × List Clause)

mutual

/-- The second expression is the first with its patterns lifted into the table. With `keep` the
patterns stay where they are. -/
inductive Lifted (voc : Vocabulary) : Bool → LiftTable → List String → Expr → Expr → Prop
  | identifier {keep : Bool} {table : LiftTable} {defined : List String} (name : String) :
    Lifted voc keep table defined (.identifier name) (.identifier name)
  | label {keep : Bool} {table : LiftTable} {defined : List String} (name : String) :
    Lifted voc keep table defined (.label name) (.label name)
  | text {keep : Bool} {table : LiftTable} {defined : List String} (value : String) :
    Lifted voc keep table defined (.text value) (.text value)
  | number {keep : Bool} {table : LiftTable} {defined : List String} (value : Int64) :
    Lifted voc keep table defined (.number value) (.number value)
  | application {keep : Bool} {table : LiftTable} {defined : List String} {items items' : List Expr} :
    LiftedItems voc keep table defined items items' →
      Lifted voc keep table defined (.application items) (.application items')
  | list {keep : Bool} {table : LiftTable} {defined : List String} {items items' : List Expr} :
    LiftedItems voc keep table defined items items' →
      Lifted voc keep table defined (.list items) (.list items')
  | letIn {keep : Bool} {table : LiftTable} {defined inner names : List String}
    {values values' : List Expr} {body body' : Expr} :
    LiftedBindings voc keep table defined names values values' inner →
      Lifted voc keep table inner body body' →
        Lifted voc keep table defined (.letIn names values body) (.letIn names values' body')
  | pattern {keep : Bool} {table : LiftTable} {defined : List String} {clauses : List Clause}
    {e : Expr} :
    LiftedPattern voc keep table defined none clauses e →
      Lifted voc keep table defined (.pattern clauses []) e

inductive LiftedItems (voc : Vocabulary) :
    Bool → LiftTable → List String → List Expr → List Expr → Prop
  | nil {keep : Bool} {table : LiftTable} {defined : List String} :
    LiftedItems voc keep table defined [] []
  | cons {keep : Bool} {table : LiftTable} {defined : List String} {item item' : Expr}
    {items items' : List Expr} :
    Lifted voc keep table defined item item' → LiftedItems voc keep table defined items items' →
      LiftedItems voc keep table defined (item :: items) (item' :: items')

inductive LiftedBindings (voc : Vocabulary) : Bool → LiftTable → List String → List String →
    List Expr → List Expr → List String → Prop
  | nil {keep : Bool} {table : LiftTable} {defined : List String} :
    LiftedBindings voc keep table defined [] [] [] defined
  | pattern {keep : Bool} {table : LiftTable} {defined inner names : List String} {name : String}
    {clauses : List Clause} {value' : Expr} {values values' : List Expr} :
    LiftedPattern voc keep table defined (some name) clauses value' →
      LiftedBindings voc keep table (name :: defined) names values values' inner →
        LiftedBindings voc keep table defined (name :: names) (.pattern clauses [] :: values)
          (value' :: values') inner
  | value {keep : Bool} {table : LiftTable} {defined inner names : List String} {name : String}
    {value value' : Expr} {values values' : List Expr} :
    value.isPattern = false → Lifted voc keep table defined value value' →
      LiftedBindings voc keep table (name :: defined) names values values' inner →
        LiftedBindings voc keep table defined (name :: names) (value :: values)
          (value' :: values') inner

/-- A pattern that may have a name is replaced by a call of its lifted form, which is in the table
after all that it needs itself. -/
inductive LiftedPattern (voc : Vocabulary) :
    Bool → LiftTable → List String → Option String → List Clause → Expr → Prop
  | lifted {table before : LiftTable} {defined : List String} {self : Option String} {name : String}
    {captured : List String} {clauses clauses' : List Clause} :
    freeNames { defined, builtins := voc.builtins, self } clauses = .ok captured →
      LiftedClauses voc false before defined self name captured clauses clauses' →
        before ++ [(name, clauses')] <+: table →
          LiftedPattern voc false table defined self clauses (call name captured)
  | kept {table : LiftTable} {defined : List String} {self : Option String}
    {clauses clauses' : List Clause} :
    LiftedClauses voc true table (self.toList ++ defined) none discard [] clauses clauses' →
      LiftedPattern voc true table defined self clauses (.pattern clauses' [])

inductive LiftedClauses (voc : Vocabulary) : Bool → LiftTable → List String → Option String →
    String → List String → List Clause → List Clause → Prop
  | nil {keep : Bool} {table : LiftTable} {defined captured : List String} {self : Option String}
    {name : String} : LiftedClauses voc keep table defined self name captured [] []
  | cons {keep : Bool} {table : LiftTable} {defined captured params : List String}
    {self : Option String} {name : String} {row row' : List Expr} {body body' : Expr}
    {clauses clauses' : List Clause} :
    IsLeading voc.program (Expr.rowNames row) captured params → (∀ param ∈ params, voc.IsPlain param) →
      LiftedRow voc keep table (Expr.rowNames row ++ params ++ defined)
        (outerNames captured params self name) [] row row' →
      Lifted voc keep table
        ((mentioned body (outside (Expr.rowNames row) (outerNames captured params self name))).map
          Prod.fst ++ (Expr.rowNames row ++ params ++ defined)) body body' →
      LiftedClauses voc keep table defined self name captured clauses clauses' →
        LiftedClauses voc keep table defined self name captured (.mk row body :: clauses)
          (.mk (params.map .identifier ++ row')
            (wrap (mentioned body
              (outside (Expr.rowNames row) (outerNames captured params self name))) body') ::
            clauses')

/-- A row whose formals so far bind the given names. -/
inductive LiftedRow (voc : Vocabulary) : Bool → LiftTable → List String → List (String × Expr) →
    List String → List Expr → List Expr → Prop
  | nil {keep : Bool} {table : LiftTable} {defined bound : List String}
    {outer : List (String × Expr)} : LiftedRow voc keep table defined outer bound [] []
  | cons {keep : Bool} {table : LiftTable} {defined bound : List String}
    {outer : List (String × Expr)} {formal formal' : Expr} {row row' : List Expr} :
    LiftedFormal voc keep table defined (outside (bound ++ formal.boundNames) outer) formal formal' →
      LiftedRow voc keep table defined outer (bound ++ formal.boundNames) row row' →
        LiftedRow voc keep table defined outer bound (formal :: row) (formal' :: row')

/-- A part of a formal. A constant condition keeps its patterns. -/
inductive LiftedFormal (voc : Vocabulary) :
    Bool → LiftTable → List String → List (String × Expr) → Expr → Expr → Prop
  | identifier {keep : Bool} {table : LiftTable} {defined : List String}
    {outer : List (String × Expr)} (name : String) :
    LiftedFormal voc keep table defined outer (.identifier name) (.identifier name)
  | label {keep : Bool} {table : LiftTable} {defined : List String}
    {outer : List (String × Expr)} (name : String) :
    LiftedFormal voc keep table defined outer (.label name) (.label name)
  | text {keep : Bool} {table : LiftTable} {defined : List String}
    {outer : List (String × Expr)} (value : String) :
    LiftedFormal voc keep table defined outer (.text value) (.text value)
  | number {keep : Bool} {table : LiftTable} {defined : List String}
    {outer : List (String × Expr)} (value : Int64) :
    LiftedFormal voc keep table defined outer (.number value) (.number value)
  | list {keep : Bool} {table : LiftTable} {defined : List String}
    {outer : List (String × Expr)} (items : List Expr) :
    LiftedFormal voc keep table defined outer (.list items) (.list items)
  | cons {keep : Bool} {table : LiftTable} {defined : List String}
    {outer : List (String × Expr)} {head head' tail tail' : Expr} :
    LiftedFormal voc keep table defined outer head head' →
      LiftedFormal voc keep table defined outer tail tail' →
        LiftedFormal voc keep table defined outer (.cons head tail) (.cons head' tail')
  | constant {keep : Bool} {table : LiftTable} {defined : List String}
    {outer : List (String × Expr)} {inner inner' condition : Expr} :
    LiftedFormal voc keep table defined outer inner inner' →
      LiftedFormal voc keep table defined outer (.guarded inner condition true)
        (.guarded inner' (wrap (mentioned condition outer) condition) true)
  | guarded {keep : Bool} {table : LiftTable} {defined : List String}
    {outer : List (String × Expr)} {inner inner' condition condition' : Expr} :
    LiftedFormal voc keep table defined outer inner inner' →
      Lifted voc keep table ((mentioned condition outer).map Prod.fst ++ defined)
        condition condition' →
        LiftedFormal voc keep table defined outer (.guarded inner condition false)
          (.guarded inner' (wrap (mentioned condition outer) condition') false)

end

section

variable {voc : Vocabulary} {keep : Bool} {table : LiftTable} {defined : List String}
  {outer : List (String × Expr)}

theorem LiftedFormal.boundNames_eq {e e' : Expr}
    (h : LiftedFormal voc keep table defined outer e e') : e'.boundNames = e.boundNames := by
  match e, h with
  | _, .identifier _ | _, .label _ | _, .text _ | _, .number _ | _, .list _ => rfl
  | .cons head tail, .cons hhead htail =>
    rw [Expr.boundNames, Expr.boundNames, hhead.boundNames_eq, htail.boundNames_eq]
  | .guarded inner _ _, .constant hinner | .guarded inner _ _, .guarded hinner _ =>
    rw [Expr.boundNames, Expr.boundNames, hinner.boundNames_eq]
termination_by sizeOf e

theorem LiftedFormal.eq_of_isSimple {e e' : Expr}
    (h : LiftedFormal voc keep table defined outer e e') (hsimple : IsSimple e) : e' = e := by
  match e, h with
  | _, .identifier _ | _, .label _ | _, .text _ | _, .number _ | _, .list _ => rfl
  | .cons head tail, .cons hhead htail =>
    cases hsimple with
    | cons hsimpleHead hsimpleTail =>
      rw [hhead.eq_of_isSimple hsimpleHead, htail.eq_of_isSimple hsimpleTail]
  | .guarded inner _ _, .constant _ | .guarded inner _ _, .guarded _ _ => cases hsimple
termination_by sizeOf e

theorem LiftedFormal.of_guarded {inner condition e' : Expr} {constant : Bool}
    (h : LiftedFormal voc keep table defined outer (.guarded inner condition constant) e') :
    ∃ inner' condition',
      e' = .guarded inner' (wrap (mentioned condition outer) condition') constant ∧
      LiftedFormal voc keep table defined outer inner inner' ∧ (condition' = condition ∨
        Lifted voc keep table ((mentioned condition outer).map Prod.fst ++ defined)
          condition condition') := by
  cases h with
  | constant hinner => exact ⟨_, _, rfl, hinner, .inl rfl⟩
  | guarded hinner hlifted => exact ⟨_, _, rfl, hinner, .inr hlifted⟩

end

/-- All that the outer names stand for has a property. -/
def OuterAll (P : Expr → Prop) (outer : List (String × Expr)) : Prop :=
  ∀ p ∈ outer, P p.2

namespace OuterAll

variable {P : Expr → Prop} {outer : List (String × Expr)}

theorem outside (h : OuterAll P outer) (bound : List String) :
    OuterAll P (Lifting.outside bound outer) :=
  fun p hp => h p (List.mem_filter.1 hp).1

theorem mentioned (h : OuterAll P outer) (e : Expr) : OuterAll P (Lifting.mentioned e outer) :=
  fun p hp => h p (List.mem_filter.1 hp).1

theorem outerNames {captured params : List String} {name : String}
    (hparam : ∀ param ∈ params, P (.identifier param)) (hcall : P (call name params))
    (self : Option String) : OuterAll P (Lifting.outerNames captured params self name) := by
  intro p hp
  simp only [Lifting.outerNames, List.mem_append, List.mem_map, Option.mem_toList,
    Option.map_eq_some_iff] at hp
  rcases hp with ⟨q, hq, rfl⟩ | ⟨f, -, rfl⟩
  · exact hparam q.2 (List.of_mem_zip (List.mem_filter.1 hq).1).2
  · exact hcall

end OuterAll

/-- A name that is taken from around, or is that of the pattern itself, is given back to an expression
that mentions it. -/
theorem mem_mentioned {program locals captured params seen : List String} {self : Option String}
    {name x : String} {e : Expr} (hleading : IsLeading program locals captured params)
    (hx : self = some x ∨ (x ∈ captured ∧ x ∉ params)) (hseen : x ∉ seen)
    (he : x ∈ e.identifiers) :
    x ∈ (mentioned e (outside seen (outerNames captured params self name))).map Prod.fst := by
  suffices h : ∃ held, (x, held) ∈ outerNames captured params self name by
    obtain ⟨held, hheld⟩ := h
    exact List.mem_map.2 ⟨(x, held), by simp [mentioned, outside, hheld, hseen, he], rfl⟩
  rcases hx with rfl | ⟨hcaptured, hparam⟩
  · exact ⟨call name params, by simp [outerNames]⟩
  · obtain ⟨param, hmem⟩ : ∃ param, (x, param) ∈ captured.zip params := by
      obtain ⟨i, hi, rfl⟩ := List.mem_iff_getElem.1 hcaptured
      have hi' : i < params.length := hleading.length_eq ▸ hi
      refine ⟨params[i], List.mem_iff_getElem.2 ⟨i, ?_, List.getElem_zip⟩⟩
      rw [List.length_zip]
      omega
    have hne : x ≠ param := by
      rintro rfl
      exact hparam (List.of_mem_zip hmem).2
    exact ⟨.identifier param, by simp [outerNames, hmem, hne]⟩

/-- A lifted pattern with what came before it in the table. -/
def IsEntry (g : Guarding) (voc : Vocabulary) (before : LiftTable) (name : String)
    (clauses' : List Clause) : Prop :=
  ∃ defined self captured clauses,
    freeNames { defined, builtins := voc.builtins, self } clauses = .ok captured ∧
      LiftedClauses voc false before defined self name captured clauses clauses' ∧
        IsCodeOf g (.pattern clauses []) ∧ Expr.clausesIdentifiers clauses ⊆ voc.program

inductive IsTable (g : Guarding) (voc : Vocabulary) : LiftTable → Prop
  | nil : IsTable g voc []
  | snoc {before : LiftTable} {name : String} {clauses' : List Clause} :
    IsTable g voc before → IsEntry g voc before name clauses' →
      IsTable g voc (before ++ [(name, clauses')])

theorem IsTable.isEntry {g : Guarding} {voc : Vocabulary} {table before after : LiftTable}
    {name : String}
    {clauses' : List Clause} (h : IsTable g voc table)
    (htable : table = before ++ (name, clauses') :: after) : IsEntry g voc before name clauses' := by
  induction h generalizing after with
  | nil => simp at htable
  | snoc h hentry ih =>
    rcases List.eq_nil_or_concat after with rfl | ⟨after, last, rfl⟩
    · obtain ⟨rfl, hlast⟩ := List.append_inj' htable rfl
      cases hlast
      exact hentry
    · rw [List.concat_eq_append, ← List.cons_append, ← List.append_assoc] at htable
      exact ih (List.append_inj' htable rfl).1

namespace LiftState

variable {program builtins pending : List String} {s s' : LiftState}

/-- A vocabulary that fits a state: plain are at least the names that are taken for no pattern. -/
structure Fits (program builtins pending : List String) (s : LiftState) (voc : Vocabulary) :
    Prop where
  program_eq : voc.program = program
  builtins_eq : voc.builtins = builtins
  isPlain : ∀ x ∈ s.taken, x ∉ s.patternNames pending → voc.IsPlain x

structure Sound (g : Guarding) (program builtins pending : List String) (s : LiftState) : Prop
    extends s.NamesApart program pending where
  isTable : ∀ voc, s.Fits program builtins pending voc → IsTable g voc s.lifted

theorem Extends.fits {voc : Vocabulary} (h : s.Extends s')
    (hvoc : s'.Fits program builtins pending voc) : s.Fits program builtins pending voc where
  program_eq := hvoc.program_eq
  builtins_eq := hvoc.builtins_eq
  isPlain x hx hnot := by
    refine hvoc.isPlain x (h.taken hx) fun hmem => hnot ?_
    exact (List.mem_append.1 hmem).elim (fun hp => List.mem_append_left _ hp)
      fun ht => List.mem_append_right _ (h.fresh x ht hx)

end LiftState

namespace Lifting

variable {α β : Type} {g : Guarding} {program builtins pending : List String} {s s' : LiftState}

def Yields (g : Guarding) (program builtins pending : List String) (s : LiftState) (x : Lifting α)
    (P : α → LiftState → Prop) : Prop :=
  s.Sound g program builtins pending → ∀ a s', x s = .ok a s' →
    s.Extends s' ∧ s'.Sound g program builtins pending ∧ P a s'

theorem Yields.pure {P : α → LiftState → Prop} {a : α} (h : P a s) :
    Yields g program builtins pending s (pure a) P := by
  rintro hs _ _ ⟨⟩
  exact ⟨.refl s, hs, h⟩

/-- A step that makes what is related to the given things, in every vocabulary and table that come of
it. -/
abbrev Makes (g : Guarding) (program builtins pending : List String) (s : LiftState) (x : Lifting α)
    (R : Vocabulary → LiftTable → α → Prop) : Prop :=
  Yields g program builtins pending s x fun a s' =>
    ∀ voc table, s'.Fits program builtins pending voc → s'.lifted <+: table → R voc table a

namespace Makes

variable {x : Lifting α} {R R' : Vocabulary → LiftTable → α → Prop}
  {S : Vocabulary → LiftTable → β → Prop}

theorem pure {a : α} (h : ∀ voc table, s.Fits program builtins pending voc → s.lifted <+: table →
    R voc table a) : Makes g program builtins pending s (pure a) R :=
  Yields.pure h

theorem bind {f : α → Lifting β} (hx : Makes g program builtins pending s x R)
    (hf : ∀ a s₁, s.Extends s₁ → Makes g program builtins pending s₁ (f a) fun voc table b =>
      R voc table a → S voc table b) :
    Makes g program builtins pending s (x >>= f) S := by
  intro hs b s₂ h
  obtain ⟨a, s₁, ha, hb⟩ := exists_of_bind_eq_ok h
  obtain ⟨hext, hs₁, hR⟩ := hx hs a s₁ ha
  obtain ⟨hext', hs₂, hS⟩ := hf a s₁ hext hs₁ b s₂ hb
  refine ⟨hext.trans hext', hs₂, fun voc table hvoc htable => hS voc table hvoc htable ?_⟩
  exact hR voc table (hext'.fits hvoc) (hext'.lifted.trans htable)

theorem mono (hx : Makes g program builtins pending s x R)
    (h : ∀ voc table a, R voc table a → R' voc table a) :
    Makes g program builtins pending s x R' := by
  intro hs a s' ha
  obtain ⟨hext, hs', hR⟩ := hx hs a s' ha
  exact ⟨hext, hs', fun voc table hvoc htable => h voc table a (hR voc table hvoc htable)⟩

theorem map {f : α → β} (hx : Makes g program builtins pending s x R)
    (hf : ∀ voc table a, R voc table a → S voc table (f a)) :
    Makes g program builtins pending s (do return f (← x)) S :=
  hx.bind fun a _ _ => .pure fun voc table _ _ => hf voc table a

end Makes

theorem sound_of_taken (hs : s.Sound g program builtins pending) (htaken : s.taken ⊆ s'.taken)
    (hlifted : s'.lifted = s.lifted) :
    s.Extends s' ∧ s'.Sound g program builtins pending := by
  have hnames : s'.patternNames pending = s.patternNames pending := by
    rw [LiftState.patternNames, LiftState.tableNames, hlifted]
    rfl
  have hext : s.Extends s' := by
    refine ⟨htaken, hlifted ▸ List.prefix_refl _, fun name hn _ => ?_⟩
    rwa [LiftState.tableNames, hlifted] at hn
  refine ⟨hext, ⟨List.Subset.trans hs.program_subset htaken, ?_, ?_, ?_, ?_⟩, fun voc hvoc => ?_⟩
  · exact hnames ▸ List.Subset.trans hs.subset_taken htaken
  · exact hnames ▸ hs.not_mem_program
  · exact hnames ▸ hs.nodup
  · exact hnames ▸ hs.ne_discard
  · exact hlifted ▸ hs.isTable voc (hext.fits hvoc)

theorem leading_makes {locals captured : List String} (hcaptured : captured ⊆ program)
    (hnodup : captured.Nodup) (hdiscard : discard ∉ captured) :
    Makes g program builtins pending s (leading locals captured) fun voc _ params =>
      IsLeading voc.program locals captured params ∧ ∀ param ∈ params, voc.IsPlain param := by
  intro hs params s' h
  obtain ⟨hleading, hlifted, htaken, hparams, hnew⟩ := leading_apart h hs.program_subset
    (List.Subset.trans hcaptured hs.program_subset) hnodup hdiscard
  obtain ⟨hext, hs'⟩ := sound_of_taken hs htaken hlifted
  refine ⟨hext, hs', fun voc _ hvoc _ => ⟨hvoc.program_eq ▸ hleading, fun param hp => ?_⟩⟩
  refine hvoc.isPlain param (hparams hp) fun hmem => ?_
  rcases hnew param hp with hold | hold
  · exact hs'.not_mem_program param hmem (hcaptured hold)
  · rw [LiftState.patternNames, LiftState.tableNames, hlifted] at hmem
    exact hold (hs.subset_taken hmem)

theorem sound_of_fresh {stem name : String} (hs : s.Sound g program builtins pending)
    (h : fresh stem s = .ok name s') :
    s.Extends s' ∧ s'.Sound g program builtins (name :: pending) ∧ name ∉ s.taken := by
  obtain ⟨hnew, hne, htaken, hlifted⟩ := of_fresh_eq_ok h
  have hnames : s'.patternNames (name :: pending) = name :: s.patternNames pending := by
    rw [LiftState.patternNames, LiftState.tableNames, hlifted]
    rfl
  have hext : s.Extends s' := by
    refine ⟨htaken ▸ List.subset_cons_self _ _, hlifted ▸ List.prefix_refl _, fun n hn _ => ?_⟩
    rwa [LiftState.tableNames, hlifted] at hn
  refine ⟨hext, ⟨⟨List.Subset.trans hs.program_subset hext.taken, ?_, ?_, ?_, ?_⟩,
    fun voc hvoc => ?_⟩, hnew⟩
  · rw [hnames, htaken]
    exact List.cons_subset_cons name hs.subset_taken
  · rw [hnames]
    simpa using ⟨fun hp => hnew (hs.program_subset hp), hs.not_mem_program⟩
  · exact hnames ▸ List.nodup_cons.2 ⟨fun hmem => hnew (hs.subset_taken hmem), hs.nodup⟩
  · rw [hnames]
    simpa using ⟨hne.symm, hs.ne_discard⟩
  · refine hlifted ▸ hs.isTable voc ⟨hvoc.program_eq, hvoc.builtins_eq, fun x hx hnot => ?_⟩
    refine hvoc.isPlain x (hext.taken hx) ?_
    rw [hnames, List.mem_cons, not_or]
    exact ⟨fun hx' => hnew (hx' ▸ hx), hnot⟩

theorem sound_of_append {name : String} {clauses' : List Clause}
    (hs : s.Sound g program builtins (name :: pending))
    (hentry : ∀ voc, s.Fits program builtins (name :: pending) voc →
      IsEntry g voc s.lifted name clauses') :
    ({ s with lifted := s.lifted ++ [(name, clauses')] } : LiftState).Sound g program builtins
      pending ∧ ∀ voc, ({ s with lifted := s.lifted ++ [(name, clauses')] } : LiftState).Fits program
        builtins pending voc → s.Fits program builtins (name :: pending) voc := by
  have hperm : (({ s with lifted := s.lifted ++ [(name, clauses')] } : LiftState).patternNames
      pending).Perm (s.patternNames (name :: pending)) := by
    simp only [LiftState.patternNames, LiftState.tableNames, List.map_append, List.map_cons,
      List.map_nil, List.cons_append, ← List.append_assoc]
    exact List.perm_append_singleton _ _
  have hfits : ∀ voc, ({ s with lifted := s.lifted ++ [(name, clauses')] } : LiftState).Fits program
      builtins pending voc → s.Fits program builtins (name :: pending) voc := by
    intro voc hvoc
    refine ⟨hvoc.program_eq, hvoc.builtins_eq, fun x hx hnot => hvoc.isPlain x hx ?_⟩
    exact fun hmem => hnot (hperm.mem_iff.1 hmem)
  refine ⟨⟨⟨hs.program_subset, ?_, ?_, ?_, ?_⟩, fun voc hvoc => ?_⟩, hfits⟩
  · exact List.Subset.trans hperm.subset hs.subset_taken
  · exact fun n hn => hs.not_mem_program n (hperm.mem_iff.1 hn)
  · exact hperm.nodup_iff.2 hs.nodup
  · exact fun hn => hs.ne_discard (hperm.mem_iff.1 hn)
  · exact .snoc (hs.isTable voc (hfits voc hvoc)) (hentry voc (hfits voc hvoc))

/-- A pattern that is replaced had its name drawn, then its clauses lifted, and is called then. -/
theorem replace_cases {around : Surroundings} {clauses : List Clause}
    {lift : String → List String → Lifting (List Clause)} {s s' : LiftState} {e : Expr}
    (h : replace around clauses lift s = .ok e s') :
    ∃ captured name s₁ clauses' s₂, freeNames around clauses = .ok captured ∧
      fresh "lambda" s = .ok name s₁ ∧ lift name captured s₁ = .ok clauses' s₂ ∧
      e = call name captured ∧ s' = { s₂ with lifted := s₂.lifted ++ [(name, clauses')] } := by
  unfold replace at h
  cases hcaptured : freeNames around clauses with
  | error e =>
    rw [hcaptured] at h
    cases h
  | ok captured =>
    rw [hcaptured] at h
    obtain ⟨name, s₁, hname, h⟩ := exists_of_bind_eq_ok h
    obtain ⟨clauses', s₂, hclauses, h⟩ := exists_of_bind_eq_ok h
    cases h
    exact ⟨captured, name, s₁, clauses', s₂, rfl, hname, hclauses, rfl, rfl⟩

theorem replace_makes {defined : List String} {self : Option String} {clauses : List Clause}
    {lift : String → List String → Lifting (List Clause)}
    (hcode : IsCodeOf g (.pattern clauses [])) (hprogram : Expr.clausesIdentifiers clauses ⊆ program)
    (hlift : ∀ name captured s, freeNames { defined, builtins, self } clauses = .ok captured →
      Makes g program builtins (name :: pending) s (lift name captured) fun voc table clauses' =>
        LiftedClauses voc false table defined self name captured clauses clauses') :
    Makes g program builtins pending s (replace { defined, builtins, self } clauses lift)
      fun voc table e => LiftedPattern voc false table defined self clauses e := by
  intro hs e s' h
  obtain ⟨captured, name, s₁, clauses', s₂, hcaptured, hname, hclauses, rfl, rfl⟩ := replace_cases h
  obtain ⟨hext, hs₁, hnew⟩ := sound_of_fresh hs hname
  obtain ⟨hext', hs₂, hlifted⟩ := hlift name captured s₁ hcaptured hs₁ clauses' s₂ hclauses
  have hentry : ∀ voc, s₂.Fits program builtins (name :: pending) voc →
      IsEntry g voc s₂.lifted name clauses' := by
    intro voc hvoc
    refine ⟨_, _, captured, clauses, ?_, hlifted voc _ hvoc (List.prefix_refl _), hcode, ?_⟩
    · rw [hvoc.builtins_eq]
      exact hcaptured
    · rw [hvoc.program_eq]
      exact hprogram
  obtain ⟨hs', hfits⟩ := sound_of_append hs₂ hentry
  refine ⟨?_, hs', fun voc table hvoc htable => ?_⟩
  · have hlater := hext.trans hext'
    refine ⟨hlater.taken, hlater.lifted.trans (List.prefix_append _ _), fun n hn ht => ?_⟩
    rw [LiftState.tableNames, List.map_append, List.mem_append, List.map_singleton,
      List.mem_singleton] at hn
    rcases hn with hn | rfl
    · exact hlater.fresh n hn ht
    · exact absurd ht hnew
  · have hvoc' := hfits voc hvoc
    refine .lifted ?_ (hlifted voc s₂.lifted hvoc' (List.prefix_refl _)) htable
    rw [hvoc'.builtins_eq]
    exact hcaptured

/-- What a pattern takes from around it can be made leading formals of. -/
theorem captured_of_freeNames {around : Surroundings} {clauses : List Clause}
    {captured : List String} (h : freeNames around clauses = .ok captured)
    (hprogram : Expr.clausesIdentifiers clauses ⊆ program) :
    captured ⊆ program ∧ captured.Nodup ∧ discard ∉ captured := by
  obtain ⟨haccounts, hnodup⟩ := freeNames_accounts h
  refine ⟨fun x hx => ?_, hnodup, fun hx => ((haccounts.mem_iff discard).1 hx).2.1 rfl⟩
  exact hprogram (Expr.mem_identifiers_of_mem_clausesFree ((haccounts.mem_iff x).1 hx).1)

theorem bindings_of_isPattern_eq_false (builtins defined : List String) (name : String)
    (names : List String) {value : Expr} (values : List Expr) (h : value.isPattern = false) :
    bindings builtins defined (name :: names) (value :: values) = (do
      let value ← expr builtins defined value
      let (values, inner) ← bindings builtins (name :: defined) names values
      return (value :: values, inner)) := by
  cases value with
  | pattern => cases h
  | _ => rfl

theorem exists_eq_pattern {e : Expr} (h : e.isPattern) :
    ∃ clauses captured, e = .pattern clauses captured := by
  cases e with
  | pattern clauses captured => exact ⟨clauses, captured, rfl⟩
  | _ => cases h

theorem formal_of_isSimple {g : Guarding} (builtins defined : List String)
    (outer : List (String × Expr)) {e : Expr} (h : IsSimpleOf g e) :
    formal builtins defined outer e = pure e := by
  match e, h with
  | .cons head tail, .cons hhead htail =>
    rw [formal, formal_of_isSimple builtins defined outer hhead,
      formal_of_isSimple builtins defined outer htail]
    rfl
  | _, .identifier _ | _, .label _ | _, .text _ | _, .number _ | .list _, .list _ => rfl
termination_by sizeOf e

section

variable {voc : Vocabulary} {table : LiftTable}

theorem exists_clauses_of_isPattern {e : Expr} (hcode : IsCodeOf g e) (h : e.isPattern) :
    ∃ clauses, e = .pattern clauses [] ∧ ∃ arity, 0 < arity ∧ clauses ≠ [] ∧
      ∀ clause ∈ clauses, IsClauseOf g arity clause := by
  cases hcode with
  | @pattern _ arity clauses hpos hne hclauses => exact ⟨clauses, rfl, arity, hpos, hne, hclauses⟩
  | _ => cases h

theorem liftedFormal_of_isSimple {g : Guarding} {keep : Bool} {defined : List String}
    {outer : List (String × Expr)} {e : Expr} (h : IsSimpleOf g e) :
    LiftedFormal voc keep table defined outer e e := by
  match e, h with
  | _, .identifier name => exact .identifier name
  | _, .label name => exact .label name
  | _, .text value => exact .text value
  | _, .number value => exact .number value
  | .list items, .list _ => exact .list items
  | .cons head tail, .cons hhead htail =>
    exact .cons (liftedFormal_of_isSimple hhead) (liftedFormal_of_isSimple htail)
termination_by sizeOf e

theorem isLeading_nil (program locals : List String) : IsLeading program locals [] [] :=
  ⟨.nil, List.nodup_nil, by simp⟩

mutual

theorem lifted_keep {g : Guarding} {e : Expr} (hcode : IsCodeOf g e) (defined : List String) :
    Lifted voc true table defined e e := by
  match e, hcode with
  | _, .identifier name => exact .identifier name
  | _, .label name => exact .label name
  | _, .text value => exact .text value
  | _, .number value => exact .number value
  | .application items, .application hitems => exact .application (liftedItems_keep hitems defined)
  | .list items, .list hitems => exact .list (liftedItems_keep hitems defined)
  | .letIn names values body, .letIn hlength hvalues hbody =>
    obtain ⟨inner, h⟩ := liftedBindings_keep hlength hvalues defined
    exact .letIn h (lifted_keep hbody inner)
  | .pattern clauses _, .pattern _ _ hclauses =>
    exact .pattern (.kept (liftedClauses_keep hclauses defined))
termination_by sizeOf e

theorem liftedItems_keep {g : Guarding} {items : List Expr}
    (hcode : ∀ item ∈ items, IsCodeOf g item) (defined : List String) :
    LiftedItems voc true table defined items items := by
  match items with
  | [] => exact .nil
  | item :: items =>
    simp only [List.mem_cons, forall_eq_or_imp] at hcode
    exact .cons (lifted_keep hcode.1 defined) (liftedItems_keep hcode.2 defined)
termination_by sizeOf items

theorem liftedBindings_keep {g : Guarding} {names : List String} {values : List Expr}
    (hlength : names.length = values.length) (hcode : ∀ value ∈ values, IsCodeOf g value)
    (defined : List String) :
    ∃ inner, LiftedBindings voc true table defined names values values inner := by
  match names, values with
  | [], [] => exact ⟨defined, .nil⟩
  | name :: names, value :: values =>
    simp only [List.mem_cons, forall_eq_or_imp] at hcode
    obtain ⟨inner, h⟩ := liftedBindings_keep (Nat.succ.inj hlength) hcode.2 (name :: defined)
    refine ⟨inner, ?_⟩
    by_cases hpattern : value.isPattern
    · obtain ⟨clauses, rfl, arity, -, -, hclauses⟩ := exists_clauses_of_isPattern hcode.1 hpattern
      exact .pattern (.kept (liftedClauses_keep hclauses (name :: defined))) h
    · exact .value (by simpa using hpattern) (lifted_keep hcode.1 defined) h
termination_by sizeOf names + sizeOf values

theorem liftedClauses_keep {g : Guarding} {arity : Nat} {clauses : List Clause}
    (hcode : ∀ clause ∈ clauses, IsClauseOf g arity clause) (defined : List String) :
    LiftedClauses voc true table defined none discard [] clauses clauses := by
  match clauses with
  | [] => exact .nil
  | .mk formals body :: clauses =>
    simp only [List.mem_cons, forall_eq_or_imp] at hcode
    have hrow : ∀ formal ∈ formals, IsFormalOf g formal := hcode.1.isFormal_of_mem
    have hbody : IsCodeOf g body := hcode.1.isCode_body
    exact .cons (isLeading_nil _ _) (by simp) (liftedRow_keep hrow _ []) (lifted_keep hbody _)
      (liftedClauses_keep hcode.2 defined)
termination_by sizeOf clauses

theorem liftedRow_keep {g : Guarding} {formals : List Expr}
    (hcode : ∀ formal ∈ formals, IsFormalOf g formal) (defined bound : List String) :
    LiftedRow voc true table defined [] bound formals formals := by
  match formals with
  | [] => exact .nil
  | first :: rest =>
    simp only [List.mem_cons, forall_eq_or_imp] at hcode
    exact .cons (liftedFormal_keep hcode.1 defined) (liftedRow_keep hcode.2 defined _)
termination_by sizeOf formals

theorem liftedFormal_keep {g : Guarding} {e : Expr} (hcode : IsFormalOf g e)
    (defined : List String) :
    LiftedFormal voc true table defined [] e e := by
  have hguarded {inner condition : Expr} (constant : Bool)
      (hinner : LiftedFormal voc true table defined [] inner inner)
      (hcondition : Lifted voc true table defined condition condition) :
      LiftedFormal voc true table defined [] (.guarded inner condition constant)
        (.guarded inner condition constant) := by
    cases constant with
    | true => exact .constant hinner
    | false => exact .guarded hinner hcondition
  match g, e, hcode with
  | _, _, .simple h => exact liftedFormal_of_isSimple h
  | _, .guarded (.identifier name) condition constant, .guarded _ _ hcondition =>
    exact hguarded constant (.identifier name) (lifted_keep hcondition defined)
  | _, .cons head tail, .nestedCons hhead htail =>
    exact .cons (liftedFormal_keep hhead defined) (liftedFormal_keep htail defined)
  | _, .guarded inner condition constant, .nestedGuarded _ hinner hcondition =>
    exact hguarded constant (liftedFormal_keep hinner defined) (lifted_keep hcondition defined)
termination_by sizeOf e

end

end

theorem formal_guarded (builtins defined : List String) (outer : List (String × Expr))
    (inner condition : Expr) (constant : Bool) :
    formal builtins defined outer (.guarded inner condition constant) = (do
      let inner' ← formal builtins defined outer inner
      let condition' ← (if constant then pure condition
        else expr builtins ((mentioned condition outer).map Prod.fst ++ defined) condition :
          Lifting Expr)
      return .guarded inner' (wrap (mentioned condition outer) condition') constant) := by
  rw [formal]
  cases constant <;> rfl

theorem guarded_makes {defined : List String} {outer : List (String × Expr)}
    {inner condition : Expr} (constant : Bool)
    (hinner : Makes g program builtins pending s (formal builtins defined outer inner)
      fun voc table e' => LiftedFormal voc false table defined outer inner e')
    (hcondition : ∀ s₁, Makes g program builtins pending s₁
      (expr builtins ((mentioned condition outer).map Prod.fst ++ defined) condition)
      fun voc table e' => Lifted voc false table
        ((mentioned condition outer).map Prod.fst ++ defined) condition e') :
    Makes g program builtins pending s
      (formal builtins defined outer (.guarded inner condition constant))
      fun voc table e' =>
        LiftedFormal voc false table defined outer (.guarded inner condition constant) e' := by
  rw [formal_guarded]
  refine hinner.bind fun inner' s₁ _ => ?_
  cases constant with
  | true => exact .pure fun _ _ _ _ h => .constant h
  | false => exact (hcondition s₁).map fun _ _ _ h h' => .guarded h' h

mutual

theorem expr_makes {g : Guarding} {e : Expr} (hcode : IsCodeOf g e)
    (hprogram : e.identifiers ⊆ program) (defined pending : List String) (s : LiftState) :
    Makes g program builtins pending s (expr builtins defined e) fun voc table e' =>
      Lifted voc false table defined e e' := by
  match e, hcode with
  | _, .identifier name => exact .pure fun _ _ _ _ => .identifier name
  | _, .label name => exact .pure fun _ _ _ _ => .label name
  | _, .text value => exact .pure fun _ _ _ _ => .text value
  | _, .number value => exact .pure fun _ _ _ _ => .number value
  | .application items, .application hitems =>
    exact (exprs_makes hitems hprogram defined pending s).map fun _ _ _ h => .application h
  | .list items, .list hitems =>
    exact (exprs_makes hitems hprogram defined pending s).map fun _ _ _ h => .list h
  | .letIn names values body, .letIn hlength hvalues hbody =>
    rw [Expr.identifiers, List.append_subset] at hprogram
    refine (bindings_makes hlength hvalues hprogram.1 defined pending s).bind
      fun ⟨values', inner⟩ s₁ _ => ?_
    exact (expr_makes hbody hprogram.2 inner pending s₁).map fun _ _ _ h h' => .letIn h' h
  | .pattern clauses _, .pattern hpos hne hclauses =>
    rw [expr]
    refine (replace_makes (.pattern hpos hne hclauses) hprogram ?_).mono fun _ _ _ h =>
      .pattern h
    exact fun name captured s h => clauseList_makes hclauses hprogram
      (captured_of_freeNames h hprogram) name (name :: pending) s
termination_by sizeOf e

theorem exprs_makes {g : Guarding} {items : List Expr} (hcode : ∀ item ∈ items, IsCodeOf g item)
    (hprogram : Expr.itemsIdentifiers items ⊆ program) (defined pending : List String)
    (s : LiftState) :
    Makes g program builtins pending s (exprs builtins defined items) fun voc table items' =>
      LiftedItems voc false table defined items items' := by
  match items with
  | [] => exact .pure fun _ _ _ _ => .nil
  | item :: items =>
    rw [Expr.itemsIdentifiers, List.append_subset] at hprogram
    simp only [List.mem_cons, forall_eq_or_imp] at hcode
    refine (expr_makes hcode.1 hprogram.1 defined pending s).bind fun item' s₁ _ => ?_
    exact (exprs_makes hcode.2 hprogram.2 defined pending s₁).map fun _ _ _ h h' => .cons h' h
termination_by sizeOf items

theorem bindings_makes {g : Guarding} {names : List String} {values : List Expr}
    (hlength : names.length = values.length) (hcode : ∀ value ∈ values, IsCodeOf g value)
    (hprogram : Expr.bindingsIdentifiers names values ⊆ program) (defined pending : List String)
    (s : LiftState) :
    Makes g program builtins pending s (bindings builtins defined names values)
      fun voc table r => LiftedBindings voc false table defined names values r.1 r.2 := by
  match names, values with
  | [], [] => exact .pure fun _ _ _ _ => .nil
  | name :: names, value :: values =>
    rw [Expr.bindingsIdentifiers, List.cons_subset, List.append_subset] at hprogram
    simp only [List.mem_cons, forall_eq_or_imp] at hcode
    have hlength : names.length = values.length := Nat.succ.inj hlength
    have hrest (s₁ : LiftState) :=
      bindings_makes hlength hcode.2 hprogram.2.2 (name :: defined) pending s₁
    by_cases hpattern : value.isPattern
    · obtain ⟨clauses, rfl, arity, -, -, hclauses⟩ := exists_clauses_of_isPattern hcode.1 hpattern
      rw [bindings]
      refine (replace_makes hcode.1 hprogram.2.1 ?_).bind fun value' s₁ _ => ?_
      · exact fun lifted captured s h => clauseList_makes hclauses hprogram.2.1
          (captured_of_freeNames h hprogram.2.1) lifted (lifted :: pending) s
      · exact (hrest s₁).map fun _ _ _ h h' => .pattern h' h
    · rw [Bool.not_eq_true] at hpattern
      rw [bindings_of_isPattern_eq_false _ _ _ _ _ hpattern]
      refine (expr_makes hcode.1 hprogram.2.1 defined pending s).bind fun value' s₁ _ => ?_
      exact (hrest s₁).map fun _ _ _ h h' => .value hpattern h' h
termination_by sizeOf names + sizeOf values

theorem clauseList_makes {g : Guarding} {arity : Nat} {clauses : List Clause}
    {defined captured : List String} {self : Option String}
    (hcode : ∀ clause ∈ clauses, IsClauseOf g arity clause)
    (hprogram : Expr.clausesIdentifiers clauses ⊆ program)
    (hcaptured : captured ⊆ program ∧ captured.Nodup ∧ discard ∉ captured) (name : String)
    (pending : List String) (s : LiftState) :
    Makes g program builtins pending s
      (clauseList builtins defined self name captured clauses) fun voc table clauses' =>
        LiftedClauses voc false table defined self name captured clauses clauses' := by
  match clauses with
  | [] => exact .pure fun _ _ _ _ => .nil
  | .mk formals body :: clauses =>
    rw [Expr.clausesIdentifiers, List.append_subset, List.append_subset] at hprogram
    simp only [List.mem_cons, forall_eq_or_imp] at hcode
    have hrow : ∀ formal ∈ formals, IsFormalOf g formal := hcode.1.isFormal_of_mem
    have hbody : IsCodeOf g body := hcode.1.isCode_body
    refine (leading_makes hcaptured.1 hcaptured.2.1 hcaptured.2.2).bind fun params s₁ _ => ?_
    refine (row_makes hrow hprogram.1.1 _ _ [] pending s₁).bind fun row' s₂ _ => ?_
    refine (expr_makes hbody hprogram.1.2 _ pending s₂).bind fun body' s₃ _ => ?_
    refine (clauseList_makes hcode.2 hprogram.2 hcaptured name pending s₃).map ?_
    exact fun _ _ _ hclauses hbody hrow hleading =>
      .cons hleading.1 hleading.2 hrow hbody hclauses
termination_by sizeOf clauses

theorem row_makes {g : Guarding} {formals : List Expr}
    (hcode : ∀ formal ∈ formals, IsFormalOf g formal)
    (hprogram : Expr.itemsIdentifiers formals ⊆ program) (defined : List String)
    (outer : List (String × Expr)) (bound pending : List String) (s : LiftState) :
    Makes g program builtins pending s (row builtins defined outer bound formals)
      fun voc table row' => LiftedRow voc false table defined outer bound formals row' := by
  match formals with
  | [] => exact .pure fun _ _ _ _ => .nil
  | first :: rest =>
    rw [Expr.itemsIdentifiers, List.append_subset] at hprogram
    simp only [List.mem_cons, forall_eq_or_imp] at hcode
    refine (formal_makes hcode.1 hprogram.1 defined _ pending s).bind fun first' s₁ _ => ?_
    exact (row_makes hcode.2 hprogram.2 defined outer _ pending s₁).map fun _ _ _ h h' => .cons h' h
termination_by sizeOf formals

theorem formal_makes {g : Guarding} {e : Expr} (hcode : IsFormalOf g e)
    (hprogram : e.identifiers ⊆ program) (defined : List String)
    (outer : List (String × Expr)) (pending : List String)
    (s : LiftState) :
    Makes g program builtins pending s (formal builtins defined outer e)
      fun voc table e' => LiftedFormal voc false table defined outer e e' := by
  match g, e, hcode with
  | _, _, .simple h =>
    rw [formal_of_isSimple builtins defined outer h]
    exact .pure fun _ _ _ _ => liftedFormal_of_isSimple h
  | _, .guarded (.identifier name) condition constant, .guarded _ _ hcondition =>
    rw [Expr.identifiers, List.append_subset] at hprogram
    exact guarded_makes constant (formal_makes (.simple (.identifier name)) hprogram.1 defined outer
      pending s) fun s₁ => expr_makes hcondition hprogram.2 _ pending s₁
  | _, .cons head tail, .nestedCons hhead htail =>
    rw [Expr.identifiers, List.append_subset] at hprogram
    refine (formal_makes hhead hprogram.1 defined outer pending s).bind fun head' s₁ _ => ?_
    exact (formal_makes htail hprogram.2 defined outer pending s₁).map fun _ _ _ h h' => .cons h' h
  | _, .guarded inner condition constant, .nestedGuarded _ hinner hcondition =>
    rw [Expr.identifiers, List.append_subset] at hprogram
    exact guarded_makes constant (formal_makes hinner hprogram.1 defined outer pending s)
      fun s₁ => expr_makes hcondition hprogram.2 _ pending s₁
termination_by sizeOf e

end

end Lifting

/-- What lifting makes of a program: a table, and what is left of the program. -/
structure LiftsTo (g : Guarding) (voc : Vocabulary) (table : LiftTable) (e body : Expr) : Prop where
  program_eq : voc.program = e.identifiers
  isTable : IsTable g voc table
  lifted : Lifted voc false table [] e body
  nodup : (table.map Prod.fst).Nodup
  apart : ∀ name ∈ table.map Prod.fst, name ∉ voc.program ∧ ¬ voc.IsPlain name ∧ name ≠ discard

theorem exists_of_lift {e l : Expr} (h : lift e = .ok l) :
    ∃ body s, expr Builtin.names [] e { taken := e.identifiers } = .ok body s ∧
      l = wrap (s.lifted.map fun (name, clauses) => (name, .pattern clauses [])) body := by
  unfold lift liftWith at h
  cases hr : expr Builtin.names [] e { taken := e.identifiers } with
  | error err s =>
    rw [hr] at h
    cases h
  | ok body s =>
    rw [hr] at h
    cases h
    exact ⟨body, s, rfl, rfl⟩

theorem liftsTo_of_lift {g : Guarding} {e l : Expr} (hcode : IsCodeOf g e) (h : lift e = .ok l) :
    ∃ voc table body, voc.builtins = Builtin.names ∧ LiftsTo g voc table e body ∧
      l = wrap (table.map fun (name, clauses) => (name, .pattern clauses [])) body := by
  obtain ⟨body, s, hr, rfl⟩ := exists_of_lift h
  have hstart : ({ taken := e.identifiers } : LiftState).Sound g e.identifiers Builtin.names [] :=
    ⟨⟨List.Subset.refl _, by simp [LiftState.patternNames, LiftState.tableNames],
      by simp [LiftState.patternNames, LiftState.tableNames],
      by simp [LiftState.patternNames, LiftState.tableNames],
      by simp [LiftState.patternNames, LiftState.tableNames]⟩, fun _ _ => .nil⟩
  obtain ⟨-, hs, hlifted⟩ := expr_makes hcode (List.Subset.refl _) [] [] _ hstart body s hr
  have hvoc : s.Fits e.identifiers Builtin.names []
      ⟨e.identifiers, Builtin.names, fun x => x ∉ s.tableNames⟩ := ⟨rfl, rfl, fun _ _ h => h⟩
  refine ⟨_, s.lifted, body, rfl, ⟨rfl, hs.isTable _ hvoc, hlifted _ _ hvoc (List.prefix_refl _),
    hs.nodup, fun name hn => ⟨hs.not_mem_program name hn, fun hp => hp hn, ?_⟩⟩, rfl⟩
  exact fun hname => hs.ne_discard (hname ▸ hn)

/-- What is computed from a text and from what it is lifted to has both of them at hand. -/
theorem exists_parse_lift {α : Type} {source : String} {f : Expr → Expr → Option α} {a : α}
    (h : ((parse source).toOption.bind fun p => (lift p).toOption.bind (f p)) = some a) :
    ∃ p l, parse source = .ok p ∧ lift p = .ok l ∧ f p l = some a := by
  obtain ⟨p, hp, h⟩ := Option.bind_eq_some_iff.1 h
  obtain ⟨l, hl, h⟩ := Option.bind_eq_some_iff.1 h
  exact ⟨p, l, eq_ok_of_toOption_eq_some hp, eq_ok_of_toOption_eq_some hl, h⟩

end ClauseLang
