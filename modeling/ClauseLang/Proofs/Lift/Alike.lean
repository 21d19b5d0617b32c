import ClauseLang.Proofs.Lift.Shape
import ClauseLang.Proofs.Machine.Data
import ClauseLang.Proofs.Machine.Until
import ClauseLang.Proofs.Scope.Lookup

/-!
Values of a program and of its lifted form. Literals are the same, and closures go on alike: what a
clause of the one finds in its scope, a clause of the other finds in its leading formals, or among the
lifted patterns.
-/

namespace ClauseLang

open Lifting

/-- A program names a builtin that tests for equality. -/
def Vocabulary.Tests (voc : Vocabulary) : Prop :=
  "==" ∈ voc.program ∨ "!=" ∈ voc.program

def rootValue (x : String) : Option Expr :=
  (Env.withBuiltins 0).get? x

/-- A scope of lifted patterns, each of which sees itself and the ones before. -/
inductive IsTop : LiftTable → Env → Prop
  | root (mark : Nat) : IsTop [] (.withBuiltins mark)
  | snoc {before : LiftTable} {env : Env} (mark : Nat) (name : String) (clauses : List Clause) :
    IsTop before env → IsTop (before ++ [(name, clauses)]) (env.extendRecursive mark name clauses)

/-- The own name of a pattern, if what is lifted has to get it back. A pattern that is kept finds its
name around it. -/
def selfOutside (keep : Bool) (self : Option String) : Option String :=
  if keep then none else self

/-- The leading formal for a captured name. Any other name stands for itself. -/
def paramOf (captured params : List String) (x : String) : String :=
  ((captured.zip params).find? (·.1 = x)).elim x Prod.snd

/-- A table whose names are all different and are no names of the program. -/
structure TableApart (voc : Vocabulary) (table : LiftTable) : Prop where
  nodup : (table.map Prod.fst).Nodup
  apart : ∀ name ∈ table.map Prod.fst, name ∉ voc.program ∧ ¬ voc.IsPlain name ∧ name ≠ discard

/-- A pattern of the program with what became of it, each with the scope in which it is evaluated. A
pattern that is kept captures nothing. -/
structure Site where
  keep : Bool
  table : LiftTable
  defined : List String
  self : Option String
  name : String
  captured : List String
  clauses : List Clause
  clauses' : List Clause
  env : Env
  env' : Env

namespace Site

/-- What the old names stand for behind the given leading formals. -/
def outer (s : Site) (params : List String) : List (String × Expr) :=
  outerNames s.captured params (selfOutside s.keep s.self) s.name

def inner (s : Site) (locals params : List String) : List String :=
  locals ++ params ++ s.defined

def entries (s : Site) : LiftTable :=
  s.table ++ [(s.name, s.clauses')]

structure Sound (voc : Vocabulary) (s : Site) : Prop where
  lifted : LiftedClauses voc s.keep s.table s.defined (selfOutside s.keep s.self) s.name s.captured
    s.clauses s.clauses'
  code : IsCodeOf .timely (.pattern s.clauses [])
  program : Expr.clausesIdentifiers s.clauses ⊆ voc.program
  self_eq : ∀ f, s.self = some f → f ≠ discard → s.env.get? f = some (.closeOver s.clauses s.env)
  captured_nil : s.keep = true → s.captured = []
  captured_nodup : s.captured.Nodup
  captured_free : s.captured ⊆ Expr.clausesFree s.clauses
  captured_bound : ∀ x ∈ s.captured, (s.env.get? x).isSome ∧ s.self ≠ some x
  foreseen : s.keep = false → ∀ x ∈ Expr.clausesFree s.clauses, s.self ≠ some x → x ∉ s.captured →
    s.env.get? x = rootValue x ∧ (x = discard ∨ x ∈ voc.builtins)
  apart : s.keep = false → TableApart voc s.entries
  top : s.keep = false → IsTop s.entries s.env'
  kept_self : s.keep = true → ∀ f, s.self = some f → f ≠ discard →
    s.env'.get? f = some (.closeOver s.clauses' s.env')

/-- The scope of a clause that was lifted, behind its leading formals. -/
structure Behind (voc : Vocabulary) (s : Site) (locals params : List String) (start : Env) :
    Prop where
  leading : IsLeading voc.program locals s.captured params
  plain : ∀ param ∈ params, voc.IsPlain param
  get?_eq : ∀ x ∉ params, start.get? x = s.env'.get? x

end Site

mutual

/-- Values that cannot be told apart but by tests for equality of closures. -/
inductive Alike (voc : Vocabulary) : Expr → Expr → Prop
  | number (n : Int64) : Alike voc (.number n) (.number n)
  | text (s : String) : Alike voc (.text s) (.text s)
  | label (name : String) : Alike voc (.label name) (.label name)
  | list {xs ys : List Expr} : List.Forall₂ (Alike voc) xs ys → Alike voc (.list xs) (.list ys)
  | unary (op : UnaryOp) : Alike voc (.builtin (.unary op)) (.builtin (.unary op))
  | binary {op : BinaryOp} : (op.isTest → voc.Tests) →
    Alike voc (.builtin (.binary op)) (.builtin (.binary op))
  | waiting {op : BinaryOp} {left left' : Expr} : (op.isTest → voc.Tests) → Alike voc left left' →
    Alike voc (.builtin (.waiting op left)) (.builtin (.waiting op left'))
  | closure {stages stages' : List (Clause × Env)} : stages ≠ [] →
    List.Forall₂ (AlikeStage voc) stages stages' → Alike voc (.ofStages stages) (.ofStages stages')

/-- Clauses of two closures, the first of which has already matched the formals `done`. -/
inductive AlikeStage (voc : Vocabulary) : Clause × Env → Clause × Env → Prop
  | mk {s : Site} {params : List String} {start env env' : Env} {done row row' : List Expr}
    {body body' : Expr} :
    s.Sound voc → s.Behind voc (Expr.rowNames (done ++ row)) params start →
    .mk (done ++ row) body ∈ s.clauses →
    LiftedRow voc s.keep s.table (s.inner (Expr.rowNames (done ++ row)) params) (s.outer params)
      (Expr.rowNames done) row row' →
    Lifted voc s.keep s.table
      ((mentioned body (outside (Expr.rowNames (done ++ row)) (s.outer params))).map Prod.fst ++
        s.inner (Expr.rowNames (done ++ row)) params) body body' →
    (∀ x ∈ Expr.clausesFree s.clauses, s.self ≠ some x →
      OptionRel (Alike voc) (s.env.get? x) (start.get? (paramOf s.captured params x))) →
    (∀ x ∈ Expr.rowNames done, (env.get? x).isSome) →
    (∀ x ∈ Expr.rowNames done, OptionRel (Alike voc) (env.get? x) (env'.get? x)) →
    (∀ x ∉ Expr.rowNames done, env.get? x = s.env.get? x ∧ env'.get? x = start.get? x) →
      AlikeStage voc (.mk row body, env)
        (.mk row' (wrap (mentioned body (outside (Expr.rowNames (done ++ row)) (s.outer params)))
          body'), env')

end

section

variable {voc : Vocabulary} {a b : Expr}

theorem Alike.sameData (h : Alike voc a b) : SameData (Alike voc) a b := by
  cases h with
  | number n => exact .number n
  | text s => exact .text s
  | label name => exact .label name
  | list h => exact .list h
  | unary | binary | waiting | closure => exact .other rfl rfl

theorem Alike.dataRel (voc : Vocabulary) : DataRel (Alike voc) where
  sameData := Alike.sameData
  number := .number
  text := .text
  label := .label
  list := .list

theorem Alike.falsy (voc : Vocabulary) : Alike voc .falsy .falsy :=
  .label _

mutual

theorem Alike.eq_of_hasClosure_eq_false {v v' : Expr} (h : Alike voc v v')
    (hv : v.hasClosure = false) : v = v' := by
  cases h with
  | number | text | label | unary | binary => rfl
  | list hitems => rw [eq_of_itemsHaveClosure_eq_false hitems hv]
  | waiting _ hleft => rw [hleft.eq_of_hasClosure_eq_false hv]
  | closure => cases hv
termination_by sizeOf v

theorem eq_of_itemsHaveClosure_eq_false {items items' : List Expr}
    (h : List.Forall₂ (Alike voc) items items') (hitems : Expr.itemsHaveClosure items = false) :
    items = items' := by
  match items, h with
  | [], .nil => rfl
  | item :: items, .cons hitem hrest =>
    rw [Expr.itemsHaveClosure, Bool.or_eq_false_iff] at hitems
    rw [hitem.eq_of_hasClosure_eq_false hitems.1, eq_of_itemsHaveClosure_eq_false hrest hitems.2]
termination_by sizeOf items

end

end

section

variable {x : String}

theorem rootValue_eq (mark : Nat) : (Env.withBuiltins mark).get? x = rootValue x := by
  unfold rootValue Env.get? Env.withBuiltins
  split
  · rfl
  · rw [Env.find?, Env.find?, List.find?_map, Option.map_map, Option.map_map]
    rfl

theorem exists_of_rootValue {v : Expr} (h : rootValue x = some v) :
    ∃ op ∈ Builtin.table, op.name = x ∧ v = .builtin op := by
  unfold rootValue Env.get? Env.withBuiltins at h
  split at h
  · cases h
  · rw [Env.find?, List.find?_map, Option.map_map, Option.map_eq_some_iff] at h
    obtain ⟨op, hop, rfl⟩ := h
    have hfound := List.find?_some hop
    exact ⟨op, List.mem_of_find?_eq_some hop, of_decide_eq_true hfound, rfl⟩

theorem rootValue_alike {voc : Vocabulary} (hx : x ∈ voc.program) :
    OptionRel (Alike voc) (rootValue x) (rootValue x) := by
  cases hv : rootValue x with
  | none => exact .none
  | some v =>
    obtain ⟨op, hop, hname, rfl⟩ := exists_of_rootValue hv
    subst hname
    refine .some ?_
    rcases Builtin.binary_or_unary hop with ⟨op, rfl⟩ | ⟨op, rfl⟩
    · refine .binary fun htest => ?_
      cases op with
      | equal => exact .inl hx
      | notEqual => exact .inr hx
      | _ => cases htest
    · exact .unary op

theorem isSome_rootValue (h : x ∈ Builtin.names) : (rootValue x).isSome := by
  have hall : ∀ y ∈ Builtin.names, (rootValue y).isSome := by decide +kernel
  exact hall x h

end

section

variable {voc : Vocabulary} {table before after : LiftTable} {env : Env} {x name : String}
  {clauses : List Clause}

theorem TableApart.of_append (h : TableApart voc (before ++ after)) : TableApart voc before where
  nodup := by
    have hnodup := h.nodup
    rw [List.map_append] at hnodup
    exact hnodup.of_append_left
  apart name hn := h.apart name (by simp only [List.map_append, List.mem_append]; exact .inl hn)

theorem IsTop.get?_of_not_mem (h : IsTop table env) (hx : x ∉ table.map Prod.fst) :
    env.get? x = rootValue x := by
  by_cases hdiscard : x = discard
  · rw [hdiscard, Env.get?_discard]
    rfl
  · induction h with
    | root mark => exact rootValue_eq mark
    | snoc mark name clauses _ ih =>
      simp only [List.map_append, List.map_cons, List.map_nil, List.mem_append, List.mem_singleton,
        not_or] at hx
      rw [Env.get?_extendRecursive _ _ _ hdiscard, if_neg (Ne.symm hx.2), ih hx.1]

theorem IsTop.get?_last (h : IsTop (before ++ [(name, clauses)]) env) (hname : name ≠ discard) :
    env.get? name = some (.closeOver clauses env) := by
  generalize htable : before ++ [(name, clauses)] = table at h
  cases h with
  | root => simp at htable
  | snoc mark last lastClauses h =>
    obtain ⟨rfl, hlast⟩ := List.append_inj' htable rfl
    cases hlast
    rw [Env.get?_extendRecursive _ _ _ hname, if_pos rfl]

theorem IsTop.get?_of_eq (h : IsTop table env) (happart : TableApart voc table)
    (htable : table = before ++ (name, clauses) :: after) :
    ∃ top, IsTop (before ++ [(name, clauses)]) top ∧
      env.get? name = some (.closeOver clauses top) := by
  induction h generalizing after with
  | root => simp at htable
  | @snoc earlier env mark last lastClauses h ih =>
    have hname : name ∈ (earlier ++ [(last, lastClauses)]).map Prod.fst := by
      rw [htable]
      simp
    have hne := (happart.apart name hname).2.2
    rcases List.eq_nil_or_concat after with rfl | ⟨after, entry, rfl⟩
    · obtain ⟨rfl, hlast⟩ := List.append_inj' htable rfl
      cases hlast
      exact ⟨_, .snoc mark _ _ h, (IsTop.snoc mark _ _ h).get?_last hne⟩
    · rw [List.concat_eq_append, ← List.cons_append, ← List.append_assoc] at htable
      obtain ⟨hearlier, hentry⟩ := List.append_inj' htable rfl
      cases hentry
      obtain ⟨top, htop, hget⟩ := ih happart.of_append hearlier
      refine ⟨top, htop, ?_⟩
      have hnodup := happart.nodup
      rw [hearlier] at hnodup
      have hlast : last ≠ name := by
        rintro rfl
        simp [List.nodup_append] at hnodup
      rw [Env.get?_extendRecursive _ _ _ hne, if_neg hlast, hget]

end

section

variable {captured params locals program : List String} {x : String}

theorem paramOf_of_not_mem (h : x ∉ captured) : paramOf captured params x = x := by
  have hnone : (captured.zip params).find? (·.1 = x) = none := by
    rw [List.find?_eq_none]
    rintro ⟨c, p⟩ hmem hc
    obtain rfl : c = x := by simpa using hc
    exact h (List.of_mem_zip hmem).1
  rw [paramOf, hnone]
  rfl

theorem mem_zip_paramOf (hlength : params.length = captured.length) (h : x ∈ captured) :
    (x, paramOf captured params x) ∈ captured.zip params := by
  obtain ⟨i, hi, rfl⟩ := List.mem_iff_getElem.1 h
  have hi' : i < (captured.zip params).length := by
    rw [List.length_zip]
    omega
  have hmem : (captured[i], params[i]) ∈ captured.zip params :=
    List.mem_iff_getElem.2 ⟨i, hi', List.getElem_zip⟩
  cases hfind : (captured.zip params).find? (·.1 = captured[i]) with
  | none => simpa using List.find?_eq_none.1 hfind _ hmem
  | some q =>
    have hq : q.1 = captured[i] := by simpa using List.find?_some hfind
    rw [paramOf, hfind]
    exact hq ▸ List.mem_of_find?_eq_some hfind

theorem paramOf_of_mem_zip {param : String} (hlength : params.length = captured.length)
    (hnodup : captured.Nodup) (h : (x, param) ∈ captured.zip params) :
    paramOf captured params x = param := by
  have hfst : ((captured.zip params).map Prod.fst).Nodup := by
    rwa [List.map_fst_zip (Nat.le_of_eq hlength.symm)]
  cases hfind : (captured.zip params).find? (·.1 = x) with
  | none => simpa using List.find?_eq_none.1 hfind _ h
  | some q =>
    have hq : q.1 = x := by simpa using List.find?_some hfind
    have hsame := List.inj_on_of_nodup_map hfst (List.mem_of_find?_eq_some hfind) h hq
    rw [paramOf, hfind, hsame]
    rfl

theorem mem_params_paramOf (hlength : params.length = captured.length) (h : x ∈ captured) :
    paramOf captured params x ∈ params :=
  (List.of_mem_zip (mem_zip_paramOf hlength h)).2

theorem Lifting.IsLeading.renames_paramOf (h : IsLeading program locals captured params)
    (hx : x ∈ captured) :
    if x ∈ locals then paramOf captured params x ∉ program
    else paramOf captured params x = x :=
  (List.forall₂_iff_zip.1 h.renames).2 (mem_zip_paramOf h.length_eq hx)

/-- A leading formal has the value that the name that it stands for was given. -/
theorem Lifting.IsLeading.exists_heldFor {R : String → Expr → Prop} {values : List Expr}
    (h : IsLeading program locals captured params) (hvalues : List.Forall₂ R captured values)
    (hx : x ∈ captured) :
    ∃ v, R x v ∧ heldFor (paramOf captured params x) (params.zip values) = some v := by
  obtain ⟨i, hi, hi', hix⟩ : ∃ (i : Nat) (hi : i < captured.length) (hi' : i < params.length),
      (captured[i], params[i]) = (x, paramOf captured params x) := by
    obtain ⟨i, hi, hix⟩ := List.mem_iff_getElem.1 (mem_zip_paramOf h.length_eq hx)
    rw [List.length_zip] at hi
    exact ⟨i, by omega, by omega, by rw [← hix, List.getElem_zip]⟩
  obtain ⟨rfl, hparam⟩ := Prod.mk.inj hix
  have hlength := h.length_eq.trans hvalues.length_eq
  refine ⟨values[i], hvalues.get hi (by omega), heldFor_of_mem ?_ ?_⟩
  · rw [List.map_fst_zip (by omega)]
    exact h.nodup
  · rw [← hparam]
    exact List.mem_iff_getElem.2 ⟨i, by rw [List.length_zip]; omega, List.getElem_zip⟩

/-- A program name among the leading formals is one that the row does not bind. -/
theorem Lifting.IsLeading.mem_captured (h : IsLeading program locals captured params)
    (hprogram : x ∈ program) (hx : x ∈ params) : x ∈ captured ∧ x ∉ locals := by
  obtain ⟨i, hi, rfl⟩ := List.mem_iff_getElem.1 hx
  have hi' : i < captured.length := h.length_eq ▸ hi
  have hrename := (List.forall₂_iff_zip.1 h.renames).2
    (List.mem_iff_getElem.2 ⟨i, by rw [List.length_zip]; omega, List.getElem_zip⟩ :
      (captured[i], params[i]) ∈ captured.zip params)
  split at hrename
  · exact absurd hprogram hrename
  · exact hrename ▸ ⟨List.getElem_mem hi', ‹_›⟩

end

end ClauseLang
