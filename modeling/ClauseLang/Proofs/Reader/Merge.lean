import ClauseLang.Proofs.Expr.Code

/-!
Printing expressions that are read as others. A `letIn` whose body is a `letIn` is printed as one
`letIn` would be, and read as one. Nothing else is lost if the names of an expression can be written.
-/

namespace ClauseLang

open Scan

namespace Expr

/-- Names bound around an expression. If it binds more itself, all are bound at once. -/
def joinLet (names : List String) (values : List Expr) : Expr → Expr
  | .letIn inner held body => .letIn (names ++ inner) (values ++ held) body
  | body => .letIn names values body

mutual

/-- The expression with every `letIn` made one with its body, if that is a `letIn`. -/
def mergeLets : Expr → Expr
  | .application items => .application (mergeItems items)
  | .list items => .list (mergeItems items)
  | .cons head tail => .cons head.mergeLets tail.mergeLets
  | .letIn names values body => joinLet names (mergeItems values) body.mergeLets
  | .guarded inner condition constant => .guarded inner.mergeLets condition.mergeLets constant
  | .pattern clauses captured => .pattern (mergeClauses clauses) captured
  | .identifier name => .identifier name
  | .label name => .label name
  | .text value => .text value
  | .number value => .number value
  | .builtin op => .builtin op

def mergeItems : List Expr → List Expr
  | [] => []
  | item :: items => item.mergeLets :: mergeItems items

def mergeClauses : List Clause → List Clause
  | [] => []
  | .mk row body :: clauses => .mk (mergeItems row) body.mergeLets :: mergeClauses clauses

end

example : mergeLets (.letIn ["x"] [.number 1] (.letIn ["y"] [.identifier "x"] (.identifier "y"))) =
    .letIn ["x", "y"] [.number 1, .identifier "x"] (.identifier "y") := rfl

theorem length_mergeItems (items : List Expr) : (mergeItems items).length = items.length := by
  induction items with
  | nil => rfl
  | cons item items ih => rw [mergeItems, List.length_cons, List.length_cons, ih]

end Expr

def IsBinder (x : String) : Prop :=
  (Lexeme.ident x).Proper

theorem isBinder_discard : IsBinder discard :=
  ⟨by decide, by decide⟩

inductive IsLiteral : Expr → Prop
  | label {name : String} : name.toList ≠ [] → name.toList.all isIdentRest → IsLiteral (.label name)
  | text (value : String) : IsLiteral (.text value)
  | number (value : Int64) : IsLiteral (.number value)

mutual

/-- Names and labels can be written, what is bound is an identifier, and a `letIn` binds
something. -/
inductive IsReadable : Expr → Prop
  | identifier {name : String} : (nameLexeme name).Proper → IsReadable (.identifier name)
  | literal {e : Expr} : IsLiteral e → IsReadable e
  | application {items : List Expr} :
    (∀ item ∈ items, IsReadable item) → IsReadable (.application items)
  | list {items : List Expr} : (∀ item ∈ items, IsReadable item) → IsReadable (.list items)
  | letIn {names : List String} {values : List Expr} {body : Expr} :
    names ≠ [] → (∀ name ∈ names, IsBinder name) → (∀ value ∈ values, IsReadable value) →
      IsReadable body → IsReadable (.letIn names values body)
  | pattern {clauses : List Clause} {captured : List Env} :
    (∀ clause ∈ clauses, IsReadableClause clause) → IsReadable (.pattern clauses captured)

inductive IsReadableFormal : Expr → Prop
  | identifier {name : String} : IsBinder name → IsReadableFormal (.identifier name)
  | literal {e : Expr} : IsLiteral e → IsReadableFormal e
  | list {items : List Expr} : (∀ item ∈ items, IsReadable item) → IsReadableFormal (.list items)
  | cons {head tail : Expr} :
    IsReadableFormal head → IsReadableFormal tail → IsReadableFormal (.cons head tail)
  | guarded {name : String} {condition : Expr} (constant : Bool) : IsBinder name →
    IsReadable condition → IsReadableFormal (.guarded (.identifier name) condition constant)

inductive IsReadableClause : Clause → Prop
  | mk {row : List Expr} {body : Expr} : (∀ formal ∈ row, IsReadableFormal formal) →
    IsReadable body → IsReadableClause (.mk row body)

end

theorem IsBinder.nameLexeme_eq {x : String} (h : IsBinder x) : nameLexeme x = .ident x :=
  nameLexeme_of_isIdent h.1

theorem IsBinder.isReadable {x : String} (h : IsBinder x) : IsReadable (.identifier x) :=
  .identifier (h.nameLexeme_eq ▸ h)

namespace Reader

open ClauseLang.Expr

/-- The first expression can be printed, and the lexemes of what is printed are a phrase for the
second. -/
structure ReadsAs (P : Phrase Expr) (e e' : Expr) : Prop where
  printable : e.IsPrintable
  derives (rest : List Lexeme) : P (e.spell rest) e' rest

section

variable {P : Phrase Expr}

theorem Restored.readsAs {e : Expr} (h : Restored P e) : ReadsAs P e e :=
  ⟨h.printable, h.derives⟩

theorem readsAs_of_isLiteral {e : Expr} (h : IsLiteral e)
    (hP : ∀ {l e rest}, Literal l e → P (l :: rest) e rest) : ReadsAs P e e.mergeLets := by
  cases h with
  | label hne hall => exact (label_restored hP hne hall).readsAs
  | text value =>
    refine ⟨trivial, fun rest => ?_⟩
    have hd : P (_ :: rest) _ rest := hP (.string (String.ofList (Source.quote value.toList)))
    rwa [unquote_quote] at hd
  | number value => exact ⟨trivial, fun rest => hP (.integer (readWord?_numeral value))⟩

theorem readsAs_of_isBinder {x : String} (hx : IsBinder x)
    (hP : ∀ rest, P (.ident x :: rest) (.identifier x) rest) :
    ReadsAs P (.identifier x) (.identifier x) :=
  (restored_ident hx hP).readsAs

theorem readsAs_items {items : List Expr} (h : ∀ item ∈ items, ReadsAs P item item.mergeLets) :
    ItemsPrintable items ∧ ∀ rest, Many P (spellItems items rest) (mergeItems items) rest := by
  induction items with
  | nil => exact ⟨trivial, fun _ => .nil⟩
  | cons item items ih =>
    simp only [List.mem_cons, forall_eq_or_imp] at h
    obtain ⟨hprintable, hmany⟩ := ih h.2
    exact ⟨⟨h.1.printable, hprintable⟩, fun rest => .cons (h.1.derives _) (hmany rest)⟩

/-- Bindings are read one by one, each in front of what is read after it. -/
theorem derives_bindings {names : List String} {values : List Expr} {body : Expr}
    {ts rest : List Lexeme} (hne : names ≠ []) (hlength : names.length = values.length)
    (hvalues : ∀ value ∈ values, ReadsAs Derives value value.mergeLets)
    (hbody : Derives ts body rest) :
    Derives (spellBindings names values ts) (joinLet names (mergeItems values) body) rest := by
  induction names generalizing values with
  | nil => exact absurd rfl hne
  | cons name names ih =>
    cases values with
    | nil => cases hlength
    | cons value values =>
      simp only [List.mem_cons, forall_eq_or_imp] at hvalues
      rw [spellBindings, mergeItems]
      cases names with
      | nil =>
        obtain rfl : values = [] := List.length_eq_zero_iff.1 (Nat.succ.inj hlength).symm
        have hone : bindFirst name value.mergeLets body =
            joinLet [name] [value.mergeLets] body := by
          cases body <;> rfl
        rw [mergeItems, ← hone]
        exact derives_iff_level.2 (.letIn name (hvalues.1.derives _) hbody)
      | cons next names =>
        have hjoin : bindFirst name value.mergeLets (joinLet (next :: names) (mergeItems values) body) =
            joinLet (name :: next :: names) (value.mergeLets :: mergeItems values) body := by
          cases body <;> rfl
        rw [← hjoin]
        exact derives_iff_level.2 (.letIn name (hvalues.1.derives _)
          (ih (by simp) (Nat.succ.inj hlength) hvalues.2))

structure ReadsClause (arity : Nat) (row : List Expr) (body : Expr) : Prop where
  length_row : row.length = arity
  printable_row : ItemsPrintable row
  printable_body : body.IsPrintable
  plain (rest : List Lexeme) : Plain Derives (spellItems row (.arrow :: body.spell rest))
    (.mk (mergeItems row) body.mergeLets) rest

theorem readsAs_clauses {arity : Nat} {clauses : List Clause}
    (h : ∀ clause ∈ clauses, ReadsClause arity clause.row clause.body) :
    ClausesPrintable clauses ∧
      ∀ rest, Others Derives arity (spellClauses clauses rest) (mergeClauses clauses) rest := by
  induction clauses with
  | nil => exact ⟨trivial, fun _ => .nil⟩
  | cons clause clauses ih =>
    obtain ⟨row, body⟩ := clause
    simp only [List.mem_cons, forall_eq_or_imp] at h
    obtain ⟨hclause, hclauses⟩ := h
    obtain ⟨hprintable, hothers⟩ := ih hclauses
    refine ⟨⟨hclause.printable_row, hclause.printable_body, hprintable⟩, fun rest => ?_⟩
    have hlength : (Clause.mk (mergeItems row) body.mergeLets).row.length = arity :=
      (length_mergeItems row).trans hclause.length_row
    exact .plain (hclause.plain _) hlength (hothers rest)

end

mutual

/-- What is printed for readable code is read as the code with its `letIn`s merged. -/
theorem readsAs_of_isReadable {e : Expr} (hcode : IsCode e) (h : IsReadable e) :
    ReadsAs Derives e e.mergeLets := by
  have hliteral : ∀ {l e rest}, Literal l e → Derives (l :: rest) e rest :=
    fun h => derives_iff_level.2 (.literal h)
  match e, h with
  | .identifier name, .identifier hname =>
    refine ⟨?_, fun rest => derives_iff_level.2 ?_⟩
    · rw [Expr.IsPrintable]
      unfold nameLexeme at hname ⊢
      split <;> simp_all [Lexeme.Printable]
    · rw [spell, nameLexeme]
      split
      · exact .operator name
      · exact .ident name
  | e, .literal h => exact readsAs_of_isLiteral h hliteral
  | .application items, .application h =>
    cases hcode with
    | application hcode =>
      obtain ⟨hprintable, hmany⟩ := readsAs_items fun item hi =>
        readsAs_of_isReadable (hcode item hi) (h item hi)
      exact ⟨hprintable, fun rest => derives_iff_level.2 (.application (hmany _))⟩
  | .list items, .list h =>
    cases hcode with
    | list hcode =>
      obtain ⟨hprintable, hmany⟩ := readsAs_items fun item hi =>
        readsAs_of_isReadable (hcode item hi) (h item hi)
      exact ⟨hprintable, fun rest => derives_iff_level.2 (.list (hmany _))⟩
  | .letIn names values body, .letIn hne hnames hvalues hbody =>
    cases hcode with
    | letIn hlength hcode hcodeBody =>
      have hvalues' : ∀ value ∈ values, ReadsAs Derives value value.mergeLets :=
        fun value hv => readsAs_of_isReadable (hcode value hv) (hvalues value hv)
      have hbody' := readsAs_of_isReadable hcodeBody hbody
      refine ⟨⟨hnames, (readsAs_items hvalues').1, hbody'.printable⟩, fun rest => ?_⟩
      exact derives_bindings hne hlength hvalues' (hbody'.derives rest)
  | .pattern clauses _, .pattern h =>
    cases hcode with
    | @pattern _ arity _ hpos hne hcode =>
      have hclauses : ∀ clause ∈ clauses, ReadsClause arity clause.row clause.body :=
        fun clause hc => readsClause_of_isReadable hpos (hcode clause hc) (h clause hc)
      refine ⟨(readsAs_clauses hclauses).1, fun rest => derives_iff_level.2 ?_⟩
      match clauses with
      | [] => exact absurd rfl hne
      | .mk row body :: clauses =>
        simp only [List.mem_cons, forall_eq_or_imp] at hclauses
        obtain ⟨hclause, hclauses⟩ := hclauses
        have hlength : (mergeItems row).length = arity :=
          (length_mergeItems row).trans hclause.length_row
        refine .pattern (hclause.plain _) ?_
        rw [Clause.row, hlength]
        exact (readsAs_clauses hclauses).2 _
termination_by sizeOf e

theorem readsAs_of_isSimple {e : Expr} (hcode : IsSimple e) (h : IsReadableFormal e) :
    ReadsAs (Simple Derives) e e.mergeLets := by
  match e, h with
  | .identifier name, .identifier hname => exact readsAs_of_isBinder hname fun _ => .name name
  | e, .literal h => exact readsAs_of_isLiteral h .literal
  | .list items, .list h =>
    cases hcode with
    | list hcode =>
      obtain ⟨hprintable, hmany⟩ := readsAs_items fun item hi =>
        readsAs_of_isReadable (hcode item hi) (h item hi)
      exact ⟨hprintable, fun rest => .list (hmany _)⟩
  | .cons head tail, .cons hhead htail =>
    cases hcode with
    | cons hcodeHead hcodeTail =>
      have hhead' := readsAs_of_isSimple hcodeHead hhead
      have htail' := readsAs_of_isSimple hcodeTail htail
      exact ⟨⟨hhead'.printable, htail'.printable⟩,
        fun rest => .cons (hhead'.derives _) (htail'.derives _)⟩
termination_by sizeOf e

theorem readsAs_of_isFormal {e : Expr} (hcode : IsFormal e) (h : IsReadableFormal e) :
    ReadsAs (Formal Derives) e e.mergeLets := by
  match e, hcode with
  | e, .simple hcode =>
    have hsimple := readsAs_of_isSimple hcode h
    exact ⟨hsimple.printable, fun rest => .simple (hsimple.derives rest)⟩
  | .guarded (.identifier name) condition constant, .guarded _ _ hcode =>
    cases h with
    | literal h => cases h
    | guarded _ hname h =>
      have hcondition := readsAs_of_isReadable hcode h
      have hprintable := (readsAs_of_isBinder hname (P := Simple Derives) fun _ => .name name).printable
      refine ⟨⟨hprintable, hcondition.printable⟩, fun rest => ?_⟩
      rw [spell, spell, hname.nameLexeme_eq]
      cases constant with
      | true => exact .constant name (hcondition.derives rest)
      | false => exact .guarded name (hcondition.derives rest)
termination_by sizeOf e + 1

theorem readsClause_of_isReadable {arity : Nat} {clause : Clause} (hpos : 0 < arity)
    (hcode : IsClause arity clause) (h : IsReadableClause clause) :
    ReadsClause arity clause.row clause.body := by
  match clause, h with
  | .mk row body, .mk hrow hbody =>
    have hlength := hcode.length_row
    have hformals : ∀ formal ∈ row, ReadsAs (Formal Derives) formal formal.mergeLets := by
      intro formal hf
      have hsize := List.sizeOf_lt_of_mem hf
      exact readsAs_of_isFormal (hcode.isFormal_of_mem formal hf) (hrow formal hf)
    have hbody' : ReadsAs Derives body body.mergeLets :=
      readsAs_of_isReadable hcode.isCode_body hbody
    obtain ⟨hprintable, hmany⟩ := readsAs_items hformals
    refine ⟨hlength, hprintable, hbody'.printable, fun rest =>
      ⟨.of_many (hmany _) ?_, hbody'.derives rest⟩⟩
    rw [length_mergeItems]
    exact hlength.symm ▸ hpos
termination_by sizeOf clause

end

section

variable {P : Phrase Expr} {ts rest : List Lexeme}

/-- Of proper lexemes every phrase leaves proper ones, and stands for something with the property. -/
def Leaves {α : Type} (R : Phrase α) (Q : α → Prop) : Prop :=
  ∀ {ts a rest}, R ts a rest → AllProper ts → AllProper rest ∧ Q a

theorem Literal.isLiteral {l : Lexeme} {e : Expr} (h : Literal l e) (hl : l.Proper) :
    IsLiteral e := by
  cases h with
  | label text =>
    obtain ⟨name, htext, hne, hall⟩ := hl
    rw [htext, List.dropWhile_cons_of_pos (by rfl), dropWhile_dot hall]
    exact .label (by simpa using hne) (by simpa using hall)
  | string text => exact .text _
  | integer => exact .number _

theorem Many.leaves {α : Type} {R : Phrase α} {Q : α → Prop} {as : List α}
    (h : Many R ts as rest) (hR : Leaves R Q) (hts : AllProper ts) :
    AllProper rest ∧ ∀ a ∈ as, Q a := by
  induction h with
  | nil => exact ⟨hts, by simp⟩
  | cons h _ ih =>
    obtain ⟨hus, ha⟩ := hR h hts
    obtain ⟨hrest, has⟩ := ih hus
    exact ⟨hrest, by simpa using ⟨ha, has⟩⟩

theorem Simple.leaves (hP : Leaves P IsReadable) : Leaves (Simple P) IsReadableFormal := by
  intro ts e rest h hts
  induction h with
  | name x => exact ⟨hts.tail, .identifier hts.head⟩
  | literal h => exact ⟨hts.tail, .literal (h.isLiteral hts.head)⟩
  | cons _ _ ih₁ ih₂ =>
    obtain ⟨hus, hhead⟩ := ih₁ hts.tail
    obtain ⟨hrest, htail⟩ := ih₂ hus.tail
    exact ⟨hrest.tail, .cons hhead htail⟩
  | list h =>
    obtain ⟨hrest, hitems⟩ := h.leaves hP hts.tail
    exact ⟨hrest.tail, .list hitems⟩

theorem Formal.leaves (hP : Leaves P IsReadable) : Leaves (Formal P) IsReadableFormal := by
  intro ts e rest h hts
  cases h with
  | simple h => exact Simple.leaves hP h hts
  | guarded x h =>
    obtain ⟨hrest, he⟩ := hP h hts.tail.tail
    exact ⟨hrest, .guarded false hts.head he⟩
  | constant x h =>
    obtain ⟨hrest, he⟩ := hP h hts.tail.tail
    exact ⟨hrest, .guarded true hts.head he⟩

theorem Row.leaves (hP : Leaves P IsReadable) :
    Leaves (Row P) fun row => ∀ formal ∈ row, IsReadableFormal formal := by
  intro ts row rest h hts
  cases h with
  | mk h hs =>
    obtain ⟨hus, hformal⟩ := Formal.leaves hP h hts
    obtain ⟨hrest, hrow⟩ := hs.leaves (Formal.leaves hP) hus
    exact ⟨hrest, by simpa using ⟨hformal, hrow⟩⟩

theorem Plain.leaves (hP : Leaves P IsReadable) : Leaves (Plain P) IsReadableClause := by
  intro ts clause rest h hts
  cases h with
  | mk hr hb =>
    obtain ⟨hus, hrow⟩ := Row.leaves hP hr hts
    obtain ⟨hrest, hbody⟩ := hP hb hus.tail
    exact ⟨hrest, .mk hrow hbody⟩

theorem isReadableClause_openRow (arity : Nat) {body : Expr} (h : IsReadable body) :
    IsReadableClause (.mk (openRow arity) body) := by
  refine .mk (fun formal hf => ?_) h
  rw [List.eq_of_mem_replicate hf]
  exact .identifier isBinder_discard

theorem Others.leaves (hP : Leaves P IsReadable) (arity : Nat) :
    Leaves (Others P arity) fun clauses => ∀ clause ∈ clauses, IsReadableClause clause := by
  intro ts clauses rest h hts
  induction h with
  | nil => exact ⟨hts, by simp⟩
  | plain h _ _ ih =>
    obtain ⟨hus, hclause⟩ := Plain.leaves hP h hts
    obtain ⟨hrest, hclauses⟩ := ih hus
    exact ⟨hrest, by simpa using ⟨hclause, hclauses⟩⟩
  | default h _ ih =>
    obtain ⟨hus, hbody⟩ := hP h hts.tail
    obtain ⟨hrest, hclauses⟩ := ih hus
    exact ⟨hrest, by simpa using ⟨isReadableClause_openRow _ hbody, hclauses⟩⟩

theorem isReadable_bindFirst {x : String} {value body : Expr} (hx : IsBinder x)
    (hv : IsReadable value) (hb : IsReadable body) : IsReadable (bindFirst x value body) := by
  have hone : IsReadable (.letIn [x] [value] body) :=
    .letIn (by simp) (by simpa using hx) (by simpa using hv) hb
  cases hb with
  | letIn _ hnames hvs hb =>
    exact .letIn (by simp) (by simpa using ⟨hx, hnames⟩) (by simpa using ⟨hv, hvs⟩) hb
  | literal h => cases h <;> exact hone
  | _ => exact hone

theorem Level.leaves (hP : Leaves P IsReadable) : Leaves (Level P) IsReadable := by
  intro ts e rest h hts
  cases h with
  | ident x => exact ⟨hts.tail, IsBinder.isReadable hts.head⟩
  | operator x =>
    have hname : nameLexeme x = .operator x := if_pos hts.head
    exact ⟨hts.tail, .identifier (hname ▸ hts.head)⟩
  | literal h => exact ⟨hts.tail, .literal (h.isLiteral hts.head)⟩
  | letIn x hv hb =>
    obtain ⟨hus, hvalue⟩ := hP hv hts.tail.tail.tail
    obtain ⟨hrest, hbody⟩ := hP hb hus
    exact ⟨hrest, isReadable_bindFirst hts.tail.head hvalue hbody⟩
  | application h =>
    obtain ⟨hrest, hitems⟩ := h.leaves hP hts.tail
    exact ⟨hrest.tail, .application hitems⟩
  | list h =>
    obtain ⟨hrest, hitems⟩ := h.leaves hP hts.tail
    exact ⟨hrest.tail, .list hitems⟩
  | @test _ _ row h =>
    obtain ⟨hrest, hrow⟩ := Row.leaves hP h hts.tail
    have htrue : IsReadable .truthy := .literal (.label (by decide) (by decide))
    have hfalse : IsReadable .falsy := .literal (.label (by decide) (by decide))
    have htest : IsReadableClause (.mk row .truthy) := .mk hrow htrue
    exact ⟨hrest.tail, .pattern (by simpa using ⟨htest, isReadableClause_openRow _ hfalse⟩)⟩
  | pattern h hs =>
    obtain ⟨hus, hclause⟩ := Plain.leaves hP h hts.tail
    obtain ⟨hrest, hclauses⟩ := Others.leaves hP _ hs hus
    exact ⟨hrest.tail, .pattern (by simpa using ⟨hclause, hclauses⟩)⟩

theorem Derives.leaves : Leaves Derives IsReadable := by
  intro ts e rest h
  exact Derives.induction (motive := fun ts e rest => AllProper ts → AllProper rest ∧ IsReadable e)
    (Level.leaves fun h hts => h.2 hts) h

end

end Reader

open Reader

theorem isReadable_of_parse {source : String} {e : Expr} (h : parse source = .ok e) :
    IsReadable e := by
  obtain ⟨tokens, hscan, hd⟩ := parse_eq_ok_iff.1 h
  exact (Derives.leaves hd (allProper_of_scan hscan)).2

/-- Readable code is read as it was printed, but with its `letIn`s merged. -/
theorem parse_render_of_isReadable {e : Expr} (hcode : IsCode e) (h : IsReadable e) :
    parse e.render = .ok e.mergeLets := by
  obtain ⟨hprintable, hderives⟩ := readsAs_of_isReadable hcode h
  exact parse_render_of_derives hprintable (hderives [])

end ClauseLang
