import ClauseLang.Proofs.Machine.Data
import ClauseLang.Reader.Grammar

/-!
Programs that bind one name at a time, and what the reader makes of them. Values of the one and of the
other look the same when they are printed, and tests for equality take them alike.
-/

namespace ClauseLang

mutual

/-- The first expression binds one name at a time. The second is the same with the bindings in each row
joined, as the reader joins them. -/
inductive Merges : Expr → Expr → Prop
  | identifier (name : String) : Merges (.identifier name) (.identifier name)
  | label (name : String) : Merges (.label name) (.label name)
  | text (value : String) : Merges (.text value) (.text value)
  | number (value : Int64) : Merges (.number value) (.number value)
  | application {items items' : List Expr} :
    List.Forall₂ Merges items items' → Merges (.application items) (.application items')
  | list {items items' : List Expr} :
    List.Forall₂ Merges items items' → Merges (.list items) (.list items')
  | cons {head head' tail tail' : Expr} :
    Merges head head' → Merges tail tail' → Merges (.cons head tail) (.cons head' tail')
  | letIn {value value' body body' : Expr} (name : String) :
    Merges value value' → Merges body body' →
      Merges (.letIn [name] [value] body) (Reader.bindFirst name value' body')
  | guarded {inner inner' condition condition' : Expr} (constant : Bool) :
    Merges inner inner' → Merges condition condition' →
      Merges (.guarded inner condition constant) (.guarded inner' condition' constant)
  | pattern {clauses clauses' : List Clause} {captured captured' : List Env} :
    List.Forall₂ MergesClause clauses clauses' → List.Forall₂ MergesEnv captured captured' →
      Merges (.pattern clauses captured) (.pattern clauses' captured')
  | unary (op : UnaryOp) : Merges (.builtin (.unary op)) (.builtin (.unary op))
  | binary (op : BinaryOp) : Merges (.builtin (.binary op)) (.builtin (.binary op))
  | waiting {left left' : Expr} (op : BinaryOp) :
    Merges left left' → Merges (.builtin (.waiting op left)) (.builtin (.waiting op left'))

inductive MergesClause : Clause → Clause → Prop
  | mk {row row' : List Expr} {body body' : Expr} :
    List.Forall₂ Merges row row' → Merges body body' → MergesClause (.mk row body) (.mk row' body')

inductive MergesBinding : Binding → Binding → Prop
  | value {held held' : Expr} (name : String) :
    Merges held held' → MergesBinding (.value name held) (.value name held')
  | recursive {clauses clauses' : List Clause} (name : String) :
    List.Forall₂ MergesClause clauses clauses' →
      MergesBinding (.recursive name clauses) (.recursive name clauses')

inductive MergesEnv : Env → Env → Prop
  | root {bindings bindings' : List Binding} (mark : Nat) :
    List.Forall₂ MergesBinding bindings bindings' →
      MergesEnv (.root mark bindings) (.root mark bindings')
  | child {bindings bindings' : List Binding} {parent parent' : Env} (mark : Nat) :
    List.Forall₂ MergesBinding bindings bindings' → MergesEnv parent parent' →
      MergesEnv (.child mark bindings parent) (.child mark bindings' parent')

end

namespace Reader

variable {name name' : String} {value value' body body' : Expr}

theorem bindFirst_eq (name : String) (value body : Expr) :
    (∃ names values rest, body = .letIn names values rest ∧
      bindFirst name value body = .letIn (name :: names) (value :: values) rest) ∨
      (∀ names values rest, body ≠ .letIn names values rest) ∧
        bindFirst name value body = .letIn [name] [value] body := by
  cases body with
  | letIn names values rest => exact .inl ⟨names, values, rest, rfl, rfl⟩
  | _ => exact .inr ⟨nofun, rfl⟩

/-- Joining bindings does not show. -/
theorem write_bindFirst (level : Nat) (name : String) (value body : Expr) (rest : List Char) :
    (bindFirst name value body).write level rest =
      (Expr.letIn [name] [value] body).write level rest := by
  cases body <;> simp only [bindFirst, Expr.write, Expr.writeBindings]

theorem spansLines_bindFirst (name : String) (value body : Expr) :
    (bindFirst name value body).spansLines := by
  cases body <;> simp [bindFirst, Expr.spansLines]

end Reader

section

variable {e e' f f' : Expr} {items items' : List Expr} {clauses clauses' : List Clause}

theorem Merges.names_ne_nil {names : List String} {values : List Expr} {body : Expr}
    (h : Merges e (.letIn names values body)) : names ≠ [] := by
  generalize hlet : Expr.letIn names values body = e' at h
  cases h with
  | @letIn value value' rest rest' name _ _ =>
    rcases Reader.bindFirst_eq name value' rest' with ⟨_, _, _, _, h⟩ | ⟨_, h⟩ <;>
      (rw [h] at hlet; cases hlet; exact List.cons_ne_nil _ _)
  | _ => cases hlet

theorem Merges.sameData (h : Merges e e') : SameData Merges e e' := by
  cases h with
  | number n => exact .number n
  | text s => exact .text s
  | label name => exact .label name
  | list h => exact .list h
  | @letIn value value' body body' name =>
    rcases Reader.bindFirst_eq name value' body' with ⟨_, _, _, _, h⟩ | ⟨_, h⟩ <;>
      (rw [h]; exact .other rfl rfl)
  | _ => exact .other rfl rfl

theorem merges_dataRel : DataRel Merges where
  sameData := Merges.sameData
  number := .number
  text := .text
  label := .label
  list := .list

theorem Merges.falsy : Merges .falsy .falsy :=
  .label _

theorem MergesClause.row {clause clause' : Clause} (h : MergesClause clause clause') :
    List.Forall₂ Merges clause.row clause'.row := by
  cases h with
  | mk hrow _ => exact hrow

theorem MergesClause.body {clause clause' : Clause} (h : MergesClause clause clause') :
    Merges clause.body clause'.body := by
  cases h with
  | mk _ hbody => exact hbody

/-! ### Printing -/

mutual

theorem Merges.spansLines_eq {e e' : Expr} (h : Merges e e') : e.spansLines = e'.spansLines := by
  cases h with
  | identifier | label | text | number | unary | binary => rfl
  | application hitems | list hitems => exact itemsSpanLines_eq hitems
  | cons hhead htail =>
    rw [Expr.spansLines, Expr.spansLines, hhead.spansLines_eq, htail.spansLines_eq]
  | letIn name _ _ =>
    rw [Reader.spansLines_bindFirst]
    rfl
  | guarded _ hinner hcondition =>
    rw [Expr.spansLines, Expr.spansLines, hinner.spansLines_eq, hcondition.spansLines_eq]
  | pattern hclauses _ =>
    rw [Expr.spansLines, Expr.spansLines, clausesSpanLines_eq hclauses, hclauses.length_eq]
  | waiting _ hleft => exact hleft.spansLines_eq
termination_by sizeOf e

theorem itemsSpanLines_eq {items items' : List Expr} (h : List.Forall₂ Merges items items') :
    Expr.itemsSpanLines items = Expr.itemsSpanLines items' := by
  match items, h with
  | [], .nil => rfl
  | item :: items, .cons hitem hitems =>
    rw [Expr.itemsSpanLines, Expr.itemsSpanLines, hitem.spansLines_eq, itemsSpanLines_eq hitems]
termination_by sizeOf items

theorem clausesSpanLines_eq {clauses clauses' : List Clause}
    (h : List.Forall₂ MergesClause clauses clauses') :
    Expr.clausesSpanLines clauses = Expr.clausesSpanLines clauses' := by
  match clauses, h with
  | [], .nil => rfl
  | _ :: clauses, .cons (.mk hrow hbody) hclauses =>
    rw [Expr.clausesSpanLines, Expr.clausesSpanLines, itemsSpanLines_eq hrow, hbody.spansLines_eq,
      clausesSpanLines_eq hclauses]
termination_by sizeOf clauses

end

theorem fitsLine_eq (h : List.Forall₂ MergesClause clauses clauses') :
    Expr.fitsLine clauses = Expr.fitsLine clauses' := by
  match h with
  | .nil => rfl
  | .cons (.mk _ hbody) .nil => exact congrArg (!·) hbody.spansLines_eq
  | .cons _ (.cons _ _) => rfl

mutual

theorem Merges.write_eq {e e' : Expr} (h : Merges e e') (level : Nat) (rest : List Char) :
    e.write level rest = e'.write level rest := by
  cases h with
  | identifier | label | text | number | unary | binary => rfl
  | application hitems | list hitems => rw [Expr.write, Expr.write, writeItems_eq hitems]
  | cons hhead htail => rw [Expr.write, Expr.write, htail.write_eq, hhead.write_eq]
  | letIn name hvalue hbody =>
    rw [Reader.write_bindFirst]
    simp only [Expr.write, Expr.writeBindings, hvalue.write_eq level, hbody.write_eq level]
  | guarded constant hinner hcondition =>
    rw [Expr.write, Expr.write, hcondition.write_eq, hinner.write_eq]
  | pattern hclauses _ =>
    rw [Expr.write, Expr.write, fitsLine_eq hclauses, writeClauses_eq hclauses,
      writeClauses_eq hclauses]
  | waiting op hleft =>
    rw [Expr.write, Expr.write, Expr.writeBuiltin, Expr.writeBuiltin, hleft.write_eq]
termination_by sizeOf e

theorem writeItems_eq {items items' : List Expr} (h : List.Forall₂ Merges items items')
    (level : Nat) (rest : List Char) :
    Expr.writeItems level items rest = Expr.writeItems level items' rest := by
  match items, h with
  | [], .nil => rfl
  | [item], .cons hitem .nil => rw [Expr.writeItems, Expr.writeItems, hitem.write_eq]
  | item :: next :: items, .cons hitem (.cons hnext hitems) =>
    have ih := writeItems_eq (.cons hnext hitems) level rest
    simp only [Expr.writeItems, hitem.write_eq, ih]
termination_by sizeOf items

theorem writeRow_eq {row row' : List Expr} (h : List.Forall₂ Merges row row') (level : Nat)
    (rest : List Char) : Expr.writeRow level row rest = Expr.writeRow level row' rest := by
  match row, h with
  | [], .nil => rfl
  | formal :: row, .cons hformal hrow =>
    rw [Expr.writeRow, Expr.writeRow, writeRow_eq hrow, hformal.write_eq]
termination_by sizeOf row

theorem writeClauses_eq {clauses clauses' : List Clause}
    (h : List.Forall₂ MergesClause clauses clauses') (level : Nat) (lead rest : List Char) :
    Expr.writeClauses level lead clauses rest = Expr.writeClauses level lead clauses' rest := by
  match clauses, h with
  | [], .nil => rfl
  | _ :: clauses, .cons (.mk hrow hbody) hclauses =>
    rw [Expr.writeClauses, Expr.writeClauses, writeClauses_eq hclauses, hbody.write_eq,
      writeRow_eq hrow]
termination_by sizeOf clauses

end

theorem Merges.render_eq (h : Merges e e') : e.render = e'.render := by
  rw [Expr.render, Expr.render, h.write_eq]

theorem Merges.name_eq {op op' : Builtin} (h : Merges (.builtin op) (.builtin op')) :
    op.name = op'.name := by
  cases h with
  | unary | binary => rfl
  | waiting op hleft =>
    rw [Builtin.name, Builtin.name, Expr.writeBuiltin, Expr.writeBuiltin, hleft.write_eq]

/-! ### Equality -/

theorem MergesEnv.mark_eq {env env' : Env} (h : MergesEnv env env') : env.mark = env'.mark := by
  cases h <;> rfl

theorem map_mark_eq {envs envs' : List Env} (h : List.Forall₂ MergesEnv envs envs') :
    envs.map Env.mark = envs'.map Env.mark := by
  induction h with
  | nil => rfl
  | cons henv _ ih => rw [List.map_cons, List.map_cons, henv.mark_eq, ih]

/-- Tests for equality do not see where one row of bindings ends and its body begins. -/
theorem equal_bindFirst {b b' : Expr} (he : Merges e b) (hf : Merges f b') (name name' : String)
    (value value' : Expr) :
    (Reader.bindFirst name value b).equal (Reader.bindFirst name' value' b') =
      (name == name' && value.equal value' && b.equal b') := by
  rcases Reader.bindFirst_eq name value b with ⟨names, values, rest, rfl, h⟩ | ⟨hb, h⟩ <;>
    rcases Reader.bindFirst_eq name' value' b' with ⟨names', values', rest', rfl, h'⟩ | ⟨hb', h'⟩ <;>
      rw [h, h', Expr.equal]
  · simp only [Expr.equal, Expr.equalItems, List.cons_beq_cons]
    ac_rfl
  · have hnames : (names == []) = false := by simpa using he.names_ne_nil
    have hother : (Expr.letIn names values rest).equal b' = false := by
      cases b' with
      | letIn names' values' rest' => exact absurd rfl (hb' names' values' rest')
      | _ => rfl
    simp only [List.cons_beq_cons, hnames, hother, Bool.and_false, Bool.false_and]
  · have hnames : ([] == names') = false := by
      cases names' with
      | nil => exact absurd rfl hf.names_ne_nil
      | cons => rfl
    have hother : b.equal (.letIn names' values' rest') = false := by
      cases b with
      | letIn names values rest => exact absurd rfl (hb names values rest)
      | _ => rfl
    simp only [List.cons_beq_cons, hnames, hother, Bool.and_false, Bool.false_and]
  · simp [Expr.equalItems]

theorem equal_letIn_one (name name' : String) (value value' body body' : Expr) :
    (Expr.letIn [name] [value] body).equal (.letIn [name'] [value'] body') =
      (name == name' && value.equal value' && body.equal body') := by
  simp [Expr.equal, Expr.equalItems]

/-- A row of bindings is never equal to anything else. -/
theorem equal_bindFirst_of_ne {name : String} {value body : Expr}
    (h : ∀ names values rest, e ≠ .letIn names values rest) :
    (Reader.bindFirst name value body).equal e = false ∧
      e.equal (Reader.bindFirst name value body) = false := by
  rcases Reader.bindFirst_eq name value body with ⟨_, _, _, _, hfirst⟩ | ⟨_, hfirst⟩ <;>
    rw [hfirst] <;> cases e with
    | letIn names values rest => exact absurd rfl (h names values rest)
    | _ => exact ⟨rfl, rfl⟩

theorem Merges.exists_builtin {op : Builtin} (h : Merges (.builtin op) e') :
    ∃ op', e' = .builtin op' ∧ op.name = op'.name := by
  cases h with
  | unary op => exact ⟨_, rfl, rfl⟩
  | binary op => exact ⟨_, rfl, rfl⟩
  | waiting op hleft => exact ⟨_, rfl, (Merges.waiting op hleft).name_eq⟩

theorem equal_builtin_eq {op op' : Builtin} (hname : op.name = op'.name) (h : Merges f f') :
    (Expr.builtin op).equal f = (Expr.builtin op').equal f' := by
  cases f with
  | builtin other =>
    obtain ⟨other', rfl, hother⟩ := h.exists_builtin
    rw [Expr.equal, Expr.equal, hname, hother]
  | letIn =>
    cases h
    rw [(equal_bindFirst_of_ne (by simp)).2]
    rfl
  | _ =>
    cases h
    rfl

mutual

/-- A test for equality comes to the same on either side. -/
theorem Merges.equal_eq {e e' f f' : Expr} (he : Merges e e') (hf : Merges f f') :
    e.equal f = e'.equal f' := by
  cases he with
  | identifier | label | text | number =>
    cases hf with
    | letIn =>
      rw [(equal_bindFirst_of_ne (by simp)).2]
      rfl
    | _ => rfl
  | application hitems =>
    cases hf with
    | application hitems' => exact equalItems_eq hitems hitems'
    | letIn =>
      rw [(equal_bindFirst_of_ne (by simp)).2]
      rfl
    | _ => rfl
  | list hitems =>
    cases hf with
    | list hitems' => exact equalItems_eq hitems hitems'
    | letIn =>
      rw [(equal_bindFirst_of_ne (by simp)).2]
      rfl
    | _ => rfl
  | cons hhead htail =>
    cases hf with
    | cons hhead' htail' =>
      rw [Expr.equal, Expr.equal, hhead.equal_eq hhead', htail.equal_eq htail']
    | letIn =>
      rw [(equal_bindFirst_of_ne (by simp)).2]
      rfl
    | _ => rfl
  | letIn name hvalue hbody =>
    cases hf with
    | letIn name' hvalue' hbody' =>
      rw [equal_letIn_one, equal_bindFirst hbody hbody', hvalue.equal_eq hvalue',
        hbody.equal_eq hbody']
    | _ =>
      rw [(equal_bindFirst_of_ne (by simp)).1]
      rfl
  | guarded constant hinner hcondition =>
    cases hf with
    | guarded constant' hinner' hcondition' =>
      rw [Expr.equal, Expr.equal, hinner.equal_eq hinner', hcondition.equal_eq hcondition']
    | letIn =>
      rw [(equal_bindFirst_of_ne (by simp)).2]
      rfl
    | _ => rfl
  | pattern hclauses hcaptured =>
    cases hf with
    | pattern hclauses' hcaptured' =>
      rw [Expr.equal, Expr.equal, equalClauses_eq hclauses hclauses', map_mark_eq hcaptured,
        map_mark_eq hcaptured']
    | letIn =>
      rw [(equal_bindFirst_of_ne (by simp)).2]
      rfl
    | _ => rfl
  | unary | binary => exact equal_builtin_eq rfl hf
  | waiting op hleft => exact equal_builtin_eq (Merges.waiting op hleft).name_eq hf
termination_by sizeOf e

theorem equalItems_eq {xs xs' ys ys' : List Expr} (hx : List.Forall₂ Merges xs xs')
    (hy : List.Forall₂ Merges ys ys') : Expr.equalItems xs ys = Expr.equalItems xs' ys' := by
  match xs, hx with
  | [], .nil => cases hy <;> rfl
  | x :: xs, .cons hhead htail =>
    cases hy with
    | nil => rfl
    | cons hhead' htail' =>
      rw [Expr.equalItems, Expr.equalItems, hhead.equal_eq hhead', equalItems_eq htail htail']
termination_by sizeOf xs

theorem equalClauses_eq {xs xs' ys ys' : List Clause} (hx : List.Forall₂ MergesClause xs xs')
    (hy : List.Forall₂ MergesClause ys ys') :
    Expr.equalClauses xs ys = Expr.equalClauses xs' ys' := by
  match xs, hx with
  | [], .nil => cases hy <;> rfl
  | _ :: xs, .cons (.mk hrow hbody) htail =>
    cases hy with
    | nil => rfl
    | cons hhead' htail' =>
      obtain ⟨hrow', hbody'⟩ := hhead'
      rw [Expr.equalClauses, Expr.equalClauses, equalItems_eq hrow hrow', hbody.equal_eq hbody',
        equalClauses_eq htail htail']
termination_by sizeOf xs

end

/-! ### Scopes -/

theorem MergesBinding.name_eq {b b' : Binding} (h : MergesBinding b b') : b.name = b'.name := by
  cases h <;> rfl

theorem forall₂_replicate {α : Type} {R : α → α → Prop} {a b : α} (h : R a b) (n : Nat) :
    List.Forall₂ R (List.replicate n a) (List.replicate n b) := by
  induction n with
  | zero => exact .nil
  | succ n ih => exact .cons h ih

theorem merges_closeOver {env env' : Env} (h : List.Forall₂ MergesClause clauses clauses')
    (henv : MergesEnv env env') : Merges (.closeOver clauses env) (.closeOver clauses' env') := by
  refine .pattern h ?_
  rw [h.length_eq]
  exact forall₂_replicate henv _

theorem MergesBinding.resolve {b b' : Binding} {env env' : Env} (h : MergesBinding b b')
    (henv : MergesEnv env env') : Merges (b.resolve env) (b'.resolve env') := by
  cases h with
  | value _ hheld => exact hheld
  | recursive _ hclauses => exact merges_closeOver hclauses henv

theorem merges_find? {bindings bindings' : List Binding}
    (h : List.Forall₂ MergesBinding bindings bindings') (name : String) :
    OptionRel MergesBinding (bindings.find? (·.name = name)) (bindings'.find? (·.name = name)) := by
  induction h with
  | nil => exact .none
  | @cons b b' _ _ hb _ ih =>
    rw [List.find?_cons, List.find?_cons, ← hb.name_eq]
    split
    · exact .some hb
    · exact ih

theorem MergesEnv.find? {env env' : Env} (h : MergesEnv env env') (name : String) :
    OptionRel Merges (env.find? name) (env'.find? name) := by
  cases h with
  | @root bindings bindings' mark hbindings =>
    rw [Env.find?, Env.find?]
    have hfound := merges_find? hbindings name
    generalize bindings.find? _ = b? at hfound
    generalize bindings'.find? _ = b'? at hfound
    cases hfound with
    | none => exact .none
    | some hb => exact .some (hb.resolve (.root mark hbindings))
  | @child bindings bindings' parent parent' mark hbindings hparent =>
    rw [Env.find?, Env.find?]
    have hfound := merges_find? hbindings name
    generalize bindings.find? _ = b? at hfound
    generalize bindings'.find? _ = b'? at hfound
    cases hfound with
    | none => exact hparent.find? name
    | some hb => exact .some (hb.resolve (.child mark hbindings hparent))
termination_by sizeOf env

theorem MergesEnv.get? {env env' : Env} (h : MergesEnv env env') (name : String) :
    OptionRel Merges (env.get? name) (env'.get? name) := by
  unfold Env.get?
  split
  · exact .none
  · exact h.find? name

/-- Named values of which the second ones are the first ones as the reader joins them. -/
def MergesNamed (p p' : String × Expr) : Prop :=
  p.1 = p'.1 ∧ Merges p.2 p'.2

theorem merges_setBinding {held held' : Expr} (hheld : Merges held held')
    {frame frame' : List Binding} (h : List.Forall₂ MergesBinding frame frame') (name : String) :
    List.Forall₂ MergesBinding (setBinding name held frame) (setBinding name held' frame') := by
  induction h with
  | nil => exact .cons (.value name hheld) .nil
  | cons hb hrest ih =>
    rw [setBinding, setBinding, ← hb.name_eq]
    split
    · exact .cons (.value name hheld) hrest
    · exact .cons hb ih

theorem merges_frameOf {values values' : List (String × Expr)}
    (h : List.Forall₂ MergesNamed values values') :
    List.Forall₂ MergesBinding (frameOf values) (frameOf values') := by
  refine List.rel_foldl (R := MergesNamed) ?_ .nil h
  rintro frame frame' hframe ⟨name, held⟩ ⟨_, held'⟩ ⟨rfl, hheld⟩
  dsimp only
  split
  · exact hframe
  · exact merges_setBinding hheld hframe name

theorem MergesEnv.extend {env env' : Env} (h : MergesEnv env env') (mark : Nat)
    {values values' : List (String × Expr)} (hvalues : List.Forall₂ MergesNamed values values') :
    MergesEnv (env.extend mark values) (env'.extend mark values') := by
  unfold Env.extend
  have hframe := merges_frameOf hvalues
  generalize frameOf values = frame at hframe
  generalize frameOf values' = frame' at hframe
  cases hframe with
  | nil => exact h
  | cons hb hrest => exact .child mark (.cons hb hrest) h

theorem MergesEnv.extendRecursive {env env' : Env} (h : MergesEnv env env') (mark : Nat)
    (name : String) (hclauses : List.Forall₂ MergesClause clauses clauses') :
    MergesEnv (env.extendRecursive mark name clauses) (env'.extendRecursive mark name clauses') := by
  unfold Env.extendRecursive
  split
  · exact h
  · exact .child mark (.cons (.recursive name hclauses) .nil) h

theorem mergesEnv_withBuiltins (mark : Nat) : MergesEnv (.withBuiltins mark) (.withBuiltins mark) := by
  refine .root mark (List.forall₂_map_left_iff.2 (List.forall₂_map_right_iff.2 ?_))
  refine List.forall₂_same.2 fun op hop => .value _ ?_
  rcases List.mem_append.1 hop with hop | hop
  · obtain ⟨op, -, rfl⟩ := List.mem_map.1 hop
    exact .binary op
  · obtain ⟨op, -, rfl⟩ := List.mem_map.1 hop
    exact .unary op

/-- A cons takes related values apart in the same way. -/
theorem Merges.split? (he : Merges e e') (hf : Merges f f') :
    OptionRel (fun p p' => Merges p.1 p'.1 ∧ Merges p.2 p'.2) (split? e f) (split? e' f') := by
  have hwidth (value : String) : splitText? e value = splitText? e' value := by
    cases he with
    | @letIn _ value' _ body' name =>
      rcases Reader.bindFirst_eq name value' body' with ⟨_, _, _, _, h⟩ | ⟨_, h⟩ <;>
        (rw [h]; rfl)
    | _ => rfl
  cases hf with
  | list hitems =>
    cases hitems with
    | nil => exact .none
    | cons hfirst hrest => exact .some ⟨hfirst, .list hrest⟩
  | text value =>
    rw [ClauseLang.split?, ClauseLang.split?, hwidth]
    cases splitText? e' value with
    | none => exact .none
    | some parts => exact .some ⟨.text _, .text _⟩
  | @letIn _ value' _ body' name =>
    rcases Reader.bindFirst_eq name value' body' with ⟨_, _, _, _, h⟩ | ⟨_, h⟩ <;>
      (rw [h]; exact .none)
  | _ => exact .none

end

end ClauseLang
