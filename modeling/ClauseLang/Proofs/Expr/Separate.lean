import ClauseLang.Proofs.Expr.Bare
import Mathlib.Data.List.Nodup

/-!
What the printed form of a value tells. Its text shows where it ends, and two values that are printed
alike are equal, unless they are closures or list closures: which scopes a closure is over is not
printed. The names of builtins that have got an operand are made of such texts.
-/

namespace ClauseLang

open Scan ClauseLang.Expr

/-! ### Values -/

/-- A value that programs come to: labels are words, builtins are those that every program can name,
and the code of closures is written down. The closures are over the given scopes. -/
inductive Genuine (scopes : Set Env) : Expr → Prop
  | label {name : String} : (Expr.label name).IsBare → Genuine scopes (.label name)
  | text (value : String) : Genuine scopes (.text value)
  | number (value : Int64) : Genuine scopes (.number value)
  | unary (op : UnaryOp) : Genuine scopes (.builtin (.unary op))
  | binary (op : BinaryOp) : Genuine scopes (.builtin (.binary op))
  | waiting (op : BinaryOp) {left : Expr} :
    Genuine scopes left → Genuine scopes (.builtin (.waiting op left))
  | list {items : List Expr} : (∀ item ∈ items, Genuine scopes item) → Genuine scopes (.list items)
  | closure {clauses : List Clause} {captured : List Env} :
    (∀ clause ∈ clauses, clause.IsBare) → (∀ env ∈ captured, env ∈ scopes) →
      Genuine scopes (.pattern clauses captured)

theorem Genuine.mono {scopes scopes' : Set Env} (hle : scopes ≤ scopes') {v : Expr}
    (h : Genuine scopes v) : Genuine scopes' v := by
  induction h with
  | label h => exact .label h
  | text value => exact .text value
  | number value => exact .number value
  | unary op => exact .unary op
  | binary op => exact .binary op
  | waiting op _ ih => exact .waiting op ih
  | list _ ih => exact .list ih
  | closure hclauses hcaptured => exact .closure hclauses fun env henv => hle (hcaptured env henv)

namespace Expr

mutual

/-- The value is a closure, or a list with one in it. What a builtin has got does not count. -/
def listsClosure : Expr → Bool
  | .pattern _ _ => true
  | .list items => itemsListClosure items
  | _ => false

def itemsListClosure : List Expr → Bool
  | [] => false
  | item :: items => item.listsClosure || itemsListClosure items

end

end Expr

/-! ### Printing in front of a text -/

mutual

theorem write_append (level : Nat) (e : Expr) (cs ds : List Char) :
    e.write level (cs ++ ds) = e.write level cs ++ ds := by
  match e with
  | .application items | .list items =>
    rw [write, write, List.cons_append, ← writeItems_append, List.cons_append]
  | .identifier _ | .label _ | .text _ | .number _ => simp only [write, List.append_assoc,
      List.cons_append]
  | .cons head tail =>
    simp only [write, List.cons_append, ← write_append]
  | .letIn names values body =>
    simp only [write, ← writeBindings_append, ← write_append]
  | .guarded inner condition constant =>
    simp only [write, ← write_append, List.append_assoc]
  | .pattern clauses captured =>
    simp only [write]
    split <;> simp only [List.cons_append, ← writeClauses_append, List.append_assoc]
  | .builtin op => simp only [write, List.cons_append, ← writeBuiltin_append]

theorem writeItems_append (level : Nat) (items : List Expr) (cs ds : List Char) :
    writeItems level items (cs ++ ds) = writeItems level items cs ++ ds := by
  match items with
  | [] => rfl
  | [item] => exact write_append level item cs ds
  | item :: next :: items =>
    simp only [writeItems, ← write_append, List.cons_append,
      writeItems_append level (next :: items) cs ds]

theorem writeBindings_append (level : Nat) (names : List String) (values : List Expr)
    (cs ds : List Char) : writeBindings level names values (cs ++ ds) =
      writeBindings level names values cs ++ ds := by
  match names, values with
  | name :: names, value :: values =>
    simp only [writeBindings, List.cons_append, List.append_assoc, ← write_append,
      ← writeBindings_append level names values cs ds]
  | [], _ => rw [writeBindings, writeBindings] <;> simp
  | _ :: _, [] => rw [writeBindings, writeBindings] <;> simp

theorem writeRow_append (level : Nat) (row : List Expr) (cs ds : List Char) :
    writeRow level row (cs ++ ds) = writeRow level row cs ++ ds := by
  match row with
  | [] => rfl
  | formal :: row =>
    simp only [writeRow, ← write_append, List.cons_append, writeRow_append level row cs ds]

theorem writeClauses_append (level : Nat) (lead : List Char) (clauses : List Clause)
    (cs ds : List Char) : writeClauses level lead clauses (cs ++ ds) =
      writeClauses level lead clauses cs ++ ds := by
  match clauses with
  | [] => rfl
  | .mk row body :: clauses =>
    simp only [writeClauses, List.append_assoc, ← writeRow_append, List.cons_append,
      ← write_append, writeClauses_append level lead clauses cs ds]

theorem writeBuiltin_append (op : Builtin) (cs ds : List Char) :
    writeBuiltin op (cs ++ ds) = writeBuiltin op cs ++ ds := by
  match op with
  | .unary _ | .binary _ | .host _ => simp only [writeBuiltin, List.append_assoc]
  | .waiting _ left => simp only [writeBuiltin, write_append 0 left, List.append_assoc,
      List.cons_append]

end

/-! ### Braces -/

/-- The text behind the brace that ends what a text begins within, when `depth` braces are still open
there. The first `inside` characters belong to a string. -/
def behindBrace : Nat → Nat → List Char → List Char
  | _, _, [] => []
  | inside + 1, depth, _ :: cs => behindBrace inside depth cs
  | 0, depth, c :: cs =>
    if c = '"' then behindBrace ((quotedRest? cs).getD 0) depth cs
    else if c = '{' then behindBrace 0 (depth + 1) cs
    else if c = '}' then if depth = 0 then cs else behindBrace 0 (depth - 1) cs
    else behindBrace 0 depth cs

/-- A character that neither is a brace nor begins a string. -/
def isPlain (c : Char) : Bool :=
  c != '"' && c != '{' && c != '}'

section

variable {c : Char} {w : List Char}

theorem behindBrace_inside (depth : Nat) (w cs : List Char) :
    behindBrace w.length depth (w ++ cs) = behindBrace 0 depth cs := by
  induction w with
  | nil => rfl
  | cons c w ih => exact ih

theorem behindBrace_quote (value : List Char) (depth : Nat) (cs : List Char) :
    behindBrace 0 depth (Source.quote value ++ cs) = behindBrace 0 depth cs := by
  have hrest := quotedRest?_flatMap_escape value cs
  have hinside := behindBrace_inside depth (value.flatMap Source.escape ++ ['"']) cs
  rw [List.length_append, List.append_assoc] at hinside
  rw [Source.quote, List.cons_append, List.cons_append, behindBrace, if_pos rfl, List.append_assoc,
    List.singleton_append, hrest]
  exact hinside

theorem behindBrace_opening (depth : Nat) (cs : List Char) :
    behindBrace 0 depth ('{' :: cs) = behindBrace 0 (depth + 1) cs :=
  rfl

theorem behindBrace_closing (depth : Nat) (cs : List Char) :
    behindBrace 0 (depth + 1) ('}' :: cs) = behindBrace 0 depth cs :=
  rfl

theorem behindBrace_plain (h : isPlain c) (depth : Nat) (cs : List Char) :
    behindBrace 0 depth (c :: cs) = behindBrace 0 depth cs := by
  simp only [isPlain, bne_iff_ne, ne_eq, Bool.and_eq_true] at h
  rw [behindBrace, if_neg h.1.1, if_neg h.1.2, if_neg h.2]

theorem behindBrace_word (h : ∀ c ∈ w, isPlain c) (depth : Nat) (cs : List Char) :
    behindBrace 0 depth (w ++ cs) = behindBrace 0 depth cs := by
  induction w with
  | nil => rfl
  | cons c w ih =>
    rw [List.forall_mem_cons] at h
    rw [List.cons_append, behindBrace_plain h.1, ih h.2]

theorem isPlain_of_isIdentRest (h : isIdentRest c) : isPlain c := by
  rw [isPlain, Bool.and_eq_true, Bool.and_eq_true, bne_iff_ne, bne_iff_ne, bne_iff_ne]
  refine ⟨⟨?_, ?_⟩, ?_⟩ <;> rintro rfl <;> revert h <;> decide

theorem isPlain_of_ident {x : String} (h : (Lexeme.ident x).Proper) : ∀ c ∈ x.toList, isPlain c :=
  fun _ hc => isPlain_of_isIdentRest (isIdentRest_of_isIdent h.1 hc)

theorem isPlain_of_name {x : String} (h : (nameLexeme x).Printable) :
    ∀ c ∈ x.toList, isPlain c := by
  rw [nameLexeme] at h
  split at h
  next hoperator =>
    have hall : operators.all fun word => word.all isPlain := by decide +kernel
    rw [List.all_eq_true] at hall
    exact List.all_eq_true.1 (hall _ hoperator)
  · exact isPlain_of_ident h

theorem of_mem_numeral {n : Int} (h : c ∈ Source.numeral n) : c = '-' ∨ isIdentRest c := by
  obtain ⟨digits, -, hdigits, hn⟩ := numeral_cases n
  rw [List.all_eq_true] at hdigits
  have hdigit : c ∈ digits → isIdentRest c := fun hc => by
    rw [isIdentRest, Char.isAlphanum, hdigits c hc, Bool.or_true, Bool.true_or]
  rcases hn with hn | hn <;> rw [hn] at h
  · exact .inr (hdigit h)
  · exact (List.mem_cons.1 h).imp_right hdigit

theorem isPlain_of_mem_numeral {n : Int} : ∀ c ∈ Source.numeral n, isPlain c := by
  intro c hc
  rcases of_mem_numeral hc with rfl | hc
  · rfl
  · exact isPlain_of_isIdentRest hc

theorem isPlain_of_mem_space : ∀ c ∈ [' '], isPlain c :=
  List.forall_mem_singleton.2 rfl

theorem isPlain_of_mem_newline (level : Nat) : ∀ c ∈ newline level, isPlain c := by
  rw [newline, List.forall_mem_cons]
  exact ⟨rfl, fun c hc => by rw [List.eq_of_mem_replicate hc]; rfl⟩

end

mutual

/-- In what is printed for code every brace is closed again. -/
theorem behindBrace_write (level : Nat) {e : Expr} (he : e.IsPrintable) (depth : Nat)
    (cs : List Char) : behindBrace 0 depth (e.write level cs) = behindBrace 0 depth cs := by
  match e with
  | .application items =>
    rw [IsPrintable] at he
    rw [write, behindBrace_plain rfl, behindBrace_writeItems level he, behindBrace_plain rfl]
  | .list items =>
    rw [IsPrintable] at he
    rw [write, behindBrace_plain rfl, behindBrace_writeItems level he, behindBrace_plain rfl]
  | .identifier name =>
    rw [IsPrintable] at he
    rw [write, behindBrace_word (isPlain_of_name he)]
  | .label name =>
    rw [IsPrintable, List.all_eq_true] at he
    rw [write, behindBrace_plain rfl,
      behindBrace_word fun c hc => isPlain_of_isIdentRest (he.2 c hc)]
  | .text value => rw [write, behindBrace_quote]
  | .number value => rw [write, behindBrace_word isPlain_of_mem_numeral]
  | .cons head tail =>
    rw [IsPrintable] at he
    rw [write, behindBrace_plain rfl, behindBrace_write level he.1, behindBrace_plain rfl,
      behindBrace_plain rfl, behindBrace_plain rfl, behindBrace_write level he.2,
      behindBrace_plain rfl]
  | .letIn names values body =>
    rw [IsPrintable] at he
    rw [write, behindBrace_writeBindings level he.1 he.2.1, behindBrace_write level he.2.2]
  | .guarded inner condition constant =>
    rw [IsPrintable] at he
    have hcolon : ∀ c ∈ (if constant then [' ', ':', ':', ' '] else [' ', ':', ' ']),
        isPlain c := by
      cases constant <;> exact List.all_eq_true.1 rfl
    rw [write, behindBrace_write level he.1, behindBrace_word hcolon,
      behindBrace_write level he.2]
  | .pattern clauses captured =>
    rw [IsPrintable] at he
    rw [write]
    split
    · rw [behindBrace_opening, behindBrace_writeClauses level isPlain_of_mem_space he,
        behindBrace_plain rfl, behindBrace_closing]
    · rw [behindBrace_opening,
        behindBrace_writeClauses (level + 1) (isPlain_of_mem_newline (level + 1)) he,
        behindBrace_word (isPlain_of_mem_newline level), behindBrace_closing]
  | .builtin op => exact (he : False).elim

theorem behindBrace_writeItems (level : Nat) {items : List Expr} (he : ItemsPrintable items)
    (depth : Nat) (cs : List Char) :
    behindBrace 0 depth (writeItems level items cs) = behindBrace 0 depth cs := by
  match items with
  | [] => rfl
  | [item] =>
    rw [ItemsPrintable] at he
    rw [writeItems, behindBrace_write level he.1]
  | item :: next :: items =>
    rw [ItemsPrintable] at he
    rw [writeItems, behindBrace_write level he.1, behindBrace_plain rfl,
      behindBrace_writeItems level he.2]
    simp

theorem behindBrace_writeBindings (level : Nat) {names : List String} {values : List Expr}
    (hn : ∀ name ∈ names, (Lexeme.ident name).Proper) (he : ItemsPrintable values) (depth : Nat)
    (cs : List Char) :
    behindBrace 0 depth (writeBindings level names values cs) = behindBrace 0 depth cs := by
  match names, values with
  | name :: names, value :: values =>
    rw [ItemsPrintable] at he
    rw [List.forall_mem_cons] at hn
    rw [writeBindings, behindBrace_plain rfl, behindBrace_plain rfl, behindBrace_plain rfl,
      behindBrace_plain rfl, behindBrace_word (isPlain_of_ident hn.1), behindBrace_plain rfl,
      behindBrace_plain rfl, behindBrace_plain rfl, behindBrace_write level he.1,
      behindBrace_word (isPlain_of_mem_newline level),
      behindBrace_writeBindings level hn.2 he.2]
  | [], _ | _ :: _, [] =>
    rw [writeBindings]
    simp

theorem behindBrace_writeRow (level : Nat) {row : List Expr} (he : ItemsPrintable row)
    (depth : Nat) (cs : List Char) :
    behindBrace 0 depth (writeRow level row cs) = behindBrace 0 depth cs := by
  match row with
  | [] => rfl
  | formal :: row =>
    rw [ItemsPrintable] at he
    rw [writeRow, behindBrace_write level he.1, behindBrace_plain rfl,
      behindBrace_writeRow level he.2]

theorem behindBrace_writeClauses (level : Nat) {lead : List Char}
    (hlead : ∀ c ∈ lead, isPlain c) {clauses : List Clause} (he : ClausesPrintable clauses)
    (depth : Nat) (cs : List Char) :
    behindBrace 0 depth (writeClauses level lead clauses cs) = behindBrace 0 depth cs := by
  match clauses with
  | [] => rfl
  | .mk row body :: clauses =>
    rw [ClausesPrintable] at he
    rw [writeClauses, behindBrace_word hlead, behindBrace_writeRow level he.1,
      behindBrace_plain rfl, behindBrace_plain rfl, behindBrace_plain rfl,
      behindBrace_write level he.2.1, behindBrace_writeClauses level hlead he.2.2]

end

/-! ### Where a printed form ends -/

/-- What may stand behind a value in what is printed: a blank, or the end of a list or a builtin. -/
def isStop (c : Char) : Bool :=
  c == ' ' || c == ']' || c == '>'

def Stops (cs : List Char) : Prop :=
  ∀ c ∈ cs.head?, isStop c

theorem stops_nil : Stops [] :=
  fun _ h => nomatch h

theorem stops_cons {c : Char} (h : isStop c) (cs : List Char) : Stops (c :: cs) := by
  rintro _ ⟨⟩
  exact h

section

variable {c : Char} {w w' rest rest' : List Char}

theorem word_unique (hw : ∀ c ∈ w, isStop c = false) (hw' : ∀ c ∈ w', isStop c = false)
    (hrest : Stops rest) (hrest' : Stops rest') (h : w ++ rest = w' ++ rest') :
    w = w' ∧ rest = rest' := by
  have hend : ∀ {c : Char} {w rest rest' : List Char}, isStop c = false → Stops rest →
      rest ≠ c :: (w ++ rest') := by
    rintro c w rest rest' hc hrest rfl
    rw [hrest c rfl] at hc
    cases hc
  induction w generalizing w' with
  | nil =>
    cases w' with
    | nil => exact ⟨rfl, h⟩
    | cons c w' => exact absurd h (hend (hw' c List.mem_cons_self) hrest)
  | cons c w ih =>
    cases w' with
    | nil => exact absurd h.symm (hend (hw c List.mem_cons_self) hrest')
    | cons c' w' =>
      rw [List.forall_mem_cons] at hw hw'
      rw [List.cons_append, List.cons_append, List.cons.injEq] at h
      obtain ⟨rfl, hrest⟩ := ih hw.2 hw'.2 h.2
      exact ⟨by rw [h.1], hrest⟩

theorem quote_unique {value value' : List Char}
    (h : Source.quote value ++ rest = Source.quote value' ++ rest') :
    value = value' ∧ rest = rest' := by
  simp only [Source.quote, List.cons_append, List.append_assoc, List.nil_append, List.cons.injEq,
    true_and] at h
  have hlength := quotedRest?_flatMap_escape value rest
  rw [h, quotedRest?_flatMap_escape, Option.some.injEq, Nat.add_right_cancel_iff] at hlength
  obtain ⟨hvalue, hrest⟩ := List.append_inj h hlength.symm
  rw [← Source.unescape_flatMap_escape value, hvalue, Source.unescape_flatMap_escape]
  exact ⟨rfl, List.cons_injective hrest⟩

theorem not_isStop_of_isIdentRest (h : isIdentRest c) : isStop c = false := by
  rw [isStop, Bool.or_eq_false_iff, Bool.or_eq_false_iff, beq_eq_false_iff_ne,
    beq_eq_false_iff_ne, beq_eq_false_iff_ne]
  refine ⟨⟨?_, ?_⟩, ?_⟩ <;> rintro rfl <;> revert h <;> decide

theorem not_isStop_of_mem_numeral {n : Int} : ∀ c ∈ Source.numeral n, isStop c = false := by
  intro c hc
  rcases of_mem_numeral hc with rfl | hc
  · rfl
  · exact not_isStop_of_isIdentRest hc

theorem writeBuiltin_eq (op : Builtin) (cs : List Char) :
    writeBuiltin op cs = op.name.toList ++ cs := by
  rw [Builtin.name, String.toList_ofList, ← writeBuiltin_append, List.nil_append]

theorem native_unique {op op' : Builtin} (hop : op ∈ Builtin.table) (hop' : op' ∈ Builtin.table)
    (hrest : Stops rest) (hrest' : Stops rest')
    (h : writeBuiltin op rest = writeBuiltin op' rest') : op = op' ∧ rest = rest' := by
  -- Only the first character of a name may be a stop.
  have hname : ∀ op ∈ Builtin.table, ∃ c w, op.name.toList = c :: w ∧
      ∀ c ∈ w, isStop c = false := by
    have hall : Builtin.table.all fun op =>
        !op.name.toList.isEmpty && op.name.toList.tail.all (!isStop ·) := by decide +kernel
    rw [List.all_eq_true] at hall
    intro op hop
    obtain ⟨hne, htail⟩ := Bool.and_eq_true_iff.1 (hall op hop)
    rw [Bool.not_eq_true', List.isEmpty_eq_false_iff] at hne
    obtain ⟨c, w, hcw⟩ := List.exists_cons_of_ne_nil hne
    rw [hcw, List.tail_cons, List.all_eq_true] at htail
    exact ⟨c, w, hcw, fun c hc => Bool.not_eq_true' _ ▸ htail c hc⟩
  have hnodup : (Builtin.table.map (·.name)).Nodup := by decide
  obtain ⟨c, w, hcw, hw⟩ := hname op hop
  obtain ⟨c', w', hcw', hw'⟩ := hname op' hop'
  rw [writeBuiltin_eq, writeBuiltin_eq, hcw, hcw', List.cons_append, List.cons_append,
    List.cons.injEq] at h
  obtain ⟨rfl, hrest⟩ := word_unique hw hw' hrest hrest' h.2
  refine ⟨List.inj_on_of_nodup_map hnodup hop hop' (String.toList_inj.1 ?_), hrest⟩
  rw [hcw, hcw', h.1]

theorem unary_mem_table (op : UnaryOp) : .unary op ∈ Builtin.table := by
  cases op <;> simp [Builtin.table]

theorem binary_mem_table (op : BinaryOp) : .binary op ∈ Builtin.table := by
  cases op <;> simp [Builtin.table]

theorem Genuine.builtin_cases {scopes : Set Env} {op : Builtin}
    (h : Genuine scopes (.builtin op)) :
    op ∈ Builtin.table ∨ ∃ binary left, op = .waiting binary left := by
  cases h with
  | unary op => exact .inl (unary_mem_table op)
  | binary op => exact .inl (binary_mem_table op)
  | waiting op _ => exact .inr ⟨op, _, rfl⟩

/-- Two builtins with one name are the same, or wait with operands that are printed alike. -/
theorem builtin_unique {scopes scopes' : Set Env} {op op' : Builtin}
    (hop : Genuine scopes (.builtin op)) (hop' : Genuine scopes' (.builtin op'))
    (hrest : ∀ c ∈ rest.head?, c = '>') (hrest' : ∀ c ∈ rest'.head?, c = '>')
    (h : writeBuiltin op rest = writeBuiltin op' rest') :
    (op = op' ∧ rest = rest') ∨ ∃ binary left left', op = .waiting binary left ∧
      op' = .waiting binary left' ∧ left.write 0 rest = left'.write 0 rest' := by
  have hclose : ∀ {rest : List Char}, (∀ c ∈ rest.head?, c = '>') → Stops rest :=
    fun hrest c hc => by rw [hrest c hc]; rfl
  -- A builtin that waits shows its name with a blank behind it.
  have hblank : ∀ {rest cs : List Char}, (∀ c ∈ rest.head?, c = '>') → rest ≠ ' ' :: cs := by
    rintro _ cs hrest rfl
    exact absurd (hrest ' ' rfl) (by decide)
  rcases hop.builtin_cases with hop | ⟨binary, left, rfl⟩ <;>
    rcases hop'.builtin_cases with hop' | ⟨binary', left', rfl⟩
  · exact .inl (native_unique hop hop' (hclose hrest) (hclose hrest') h)
  · have hname : writeBuiltin op rest =
        writeBuiltin (.binary binary') (' ' :: left'.write 0 rest') := h
    exact absurd (native_unique hop (binary_mem_table binary') (hclose hrest) (stops_cons rfl _)
      hname).2 (hblank hrest)
  · have hname : writeBuiltin (.binary binary) (' ' :: left.write 0 rest) =
        writeBuiltin op' rest' := h
    exact absurd (native_unique (binary_mem_table binary) hop' (stops_cons rfl _) (hclose hrest')
      hname).2.symm (hblank hrest')
  · have hname : writeBuiltin (.binary binary) (' ' :: left.write 0 rest) =
        writeBuiltin (.binary binary') (' ' :: left'.write 0 rest') := h
    obtain ⟨hbinary, hleft⟩ := native_unique (binary_mem_table binary) (binary_mem_table binary')
      (stops_cons rfl _) (stops_cons rfl _) hname
    cases hbinary
    exact .inr ⟨binary, left, left', rfl, rfl, List.cons_injective hleft⟩

end

/-! ### Which value a printed form belongs to -/

/-- What a printed form begins with tells the kind of the value. -/
def kindAt : Char → String
  | '.' => "label"
  | '"' => "string"
  | '[' => "list"
  | '{' => "pattern"
  | '<' => "builtin"
  | _ => "number"

theorem exists_write_eq_cons {scopes : Set Env} {v : Expr} (hv : Genuine scopes v)
    (cs : List Char) : ∃ c ds, v.write 0 cs = c :: ds ∧ kindAt c = v.kind ∧ c ≠ ']' := by
  cases hv with
  | label => exact ⟨_, _, rfl, rfl, by decide⟩
  | text => exact ⟨_, _, rfl, rfl, by decide⟩
  | number value =>
    obtain ⟨digits, hne, hdigits, hn⟩ := numeral_cases value.toInt
    rw [write]
    rcases hn with hn | hn <;> rw [hn]
    · obtain ⟨c, digits, rfl⟩ := List.exists_cons_of_ne_nil hne
      rw [List.all_cons, Bool.and_eq_true] at hdigits
      refine ⟨c, _, rfl, ?_, ?_⟩
      · unfold kindAt
        split <;> first | rfl | exact absurd hdigits.1 (by decide)
      · rintro rfl
        exact absurd hdigits.1 (by decide)
    · exact ⟨_, _, rfl, rfl, by decide⟩
  | unary | binary | waiting => exact ⟨_, _, rfl, rfl, by decide⟩
  | list => exact ⟨_, _, rfl, rfl, by decide⟩
  | closure =>
    rw [write]
    split <;> exact ⟨_, _, rfl, rfl, by decide⟩

section

variable {scopes scopes' : Set Env} {v v' : Expr} {rest rest' : List Char}

theorem kind_eq_of_write_eq (hv : Genuine scopes v) (hv' : Genuine scopes' v')
    (h : v.write 0 rest = v'.write 0 rest') : v.kind = v'.kind := by
  obtain ⟨c, cs, hc, hkind, -⟩ := exists_write_eq_cons hv rest
  obtain ⟨c', cs', hc', hkind', -⟩ := exists_write_eq_cons hv' rest'
  rw [hc, hc', List.cons.injEq] at h
  rw [← hkind, ← hkind', h.1]

/-- The printed form of a value shows where it ends, and which value it is if it lists no closure. -/
def Separates (v : Expr) : Prop :=
  ∀ {scopes : Set Env} {v' : Expr} {rest rest' : List Char}, Genuine scopes v' → Stops rest →
    Stops rest' → v.write 0 rest = v'.write 0 rest' →
      rest = rest' ∧ (v.listsClosure = false → v.equal v')

theorem items_separate {items items' : List Expr} (hitems : ∀ item ∈ items, Genuine scopes item)
    (ih : ∀ item ∈ items, Separates item) (hitems' : ∀ item ∈ items', Genuine scopes' item)
    (h : writeItems 0 items (']' :: rest) = writeItems 0 items' (']' :: rest')) :
    rest = rest' ∧ (itemsListClosure items = false → equalItems items items') := by
  -- No value begins with the end of a list.
  have hend : ∀ {scopes : Set Env} {item : Expr} {items : List Expr} {rest rest' : List Char},
      Genuine scopes item → writeItems 0 (item :: items) rest ≠ ']' :: rest' := by
    intro scopes item items rest rest' hitem h
    have hwrite : ∃ cs, writeItems 0 (item :: items) rest = item.write 0 cs := by
      cases items <;> exact ⟨_, rfl⟩
    obtain ⟨cs, hcs⟩ := hwrite
    obtain ⟨c, ds, hc, -, hne⟩ := exists_write_eq_cons hitem cs
    rw [hcs, hc, List.cons.injEq] at h
    exact hne h.1
  induction items generalizing items' with
  | nil =>
    cases items' with
    | nil => exact ⟨List.cons_injective h, fun _ => rfl⟩
    | cons item' items' => exact absurd h.symm (hend (hitems' item' List.mem_cons_self))
  | cons item items ih' =>
    cases items' with
    | nil => exact absurd h (hend (hitems item List.mem_cons_self))
    | cons item' items' =>
      rw [List.forall_mem_cons] at hitems hitems' ih
      have hstop (cs : List Char) : Stops (']' :: cs) := stops_cons rfl cs
      have hblank (cs : List Char) : Stops (' ' :: cs) := stops_cons rfl cs
      rw [itemsListClosure, Bool.or_eq_false_iff, equalItems, Bool.and_eq_true]
      cases items with
      | nil =>
        cases items' with
        | nil =>
          obtain ⟨hrest, hequal⟩ := ih.1 hitems'.1 (hstop _) (hstop _) h
          exact ⟨List.cons_injective hrest, fun hclosure => ⟨hequal hclosure.1, rfl⟩⟩
        | cons => cases (ih.1 hitems'.1 (hstop _) (hblank _) h).1
      | cons next items =>
        cases items' with
        | nil => cases (ih.1 hitems'.1 (hblank _) (hstop _) h).1
        | cons next' items' =>
          obtain ⟨hnext, hequal⟩ := ih.1 hitems'.1 (hblank _) (hblank _) h
          obtain ⟨hrest, hequals⟩ := ih' hitems.2 ih.2 hitems'.2 (List.cons_injective hnext)
          exact ⟨hrest, fun hclosure => ⟨hequal hclosure.1, hequals hclosure.2⟩⟩

theorem builtin_separates {op : Builtin} (hop : Genuine scopes (.builtin op))
    (ih : ∀ binary left, op = .waiting binary left → Separates left) :
    Separates (.builtin op) := by
  intro scopes' v' rest rest' hv' hrest hrest' h
  have hkind := kind_eq_of_write_eq hop hv' h
  obtain ⟨op', rfl⟩ : ∃ op', v' = .builtin op' := by
    cases hv' with
    | unary | binary | waiting => exact ⟨_, rfl⟩
    | _ => simp [kind] at hkind
  have hname : writeBuiltin op ('>' :: rest) = writeBuiltin op' ('>' :: rest') :=
    List.cons_injective h
  have hends : rest = rest' := by
    have hclose (cs : List Char) : ∀ c ∈ ('>' :: cs).head?, c = '>' := by simp
    rcases builtin_unique hop hv' (hclose _) (hclose _) hname with
      ⟨-, hends⟩ | ⟨binary, left, left', rfl, rfl, hleft⟩
    · exact List.cons_injective hends
    · cases hv' with
      | waiting _ hleft' =>
        exact List.cons_injective (ih binary left rfl hleft' (stops_cons rfl _) (stops_cons rfl _)
          hleft).1
  refine ⟨hends, fun _ => ?_⟩
  rw [hends, writeBuiltin_eq, writeBuiltin_eq, List.append_cancel_right_eq, String.toList_inj]
    at hname
  rw [equal, beq_iff_eq, hname]

theorem behindBrace_closure {clauses : List Clause} {captured : List Env}
    (hv : Genuine scopes (.pattern clauses captured)) (rest : List Char) :
    behindBrace 0 0 ((Expr.pattern clauses captured).write 0 rest).tail = rest := by
  cases hv with
  | closure hclauses _ =>
    have hprintable : ClausesPrintable clauses := (bareClauses_iff.2 hclauses).1
    rw [write]
    split
    · rw [List.tail_cons, behindBrace_writeClauses 0 isPlain_of_mem_space hprintable,
        behindBrace_plain rfl]
      rfl
    · rw [List.tail_cons, behindBrace_writeClauses 1 (isPlain_of_mem_newline 1) hprintable,
        behindBrace_word (isPlain_of_mem_newline 0)]
      rfl

theorem closure_separates {clauses : List Clause} {captured : List Env}
    (hv : Genuine scopes (.pattern clauses captured)) : Separates (.pattern clauses captured) := by
  intro scopes' v' rest rest' hv' _ _ h
  have hkind := kind_eq_of_write_eq hv hv' h
  obtain ⟨clauses', captured', rfl⟩ : ∃ clauses' captured', v' = .pattern clauses' captured' := by
    cases hv' with
    | closure => exact ⟨_, _, rfl⟩
    | _ => simp [kind] at hkind
  refine ⟨?_, fun hclosure => ?_⟩
  · rw [← behindBrace_closure hv rest, h, behindBrace_closure hv' rest']
  · cases hclosure

theorem Genuine.separates (hv : Genuine scopes v) : Separates v := by
  induction hv with
  | @label name hname =>
    intro scopes' v' rest rest' hv' hrest hrest' h
    have hkind := kind_eq_of_write_eq (@label scopes name hname) hv' h
    have hword : ∀ {name : String}, (Expr.label name).IsBare →
        ∀ c ∈ name.toList, isStop c = false := by
      rintro name ⟨hprintable, -⟩ c hc
      rw [IsPrintable, List.all_eq_true] at hprintable
      exact not_isStop_of_isIdentRest (hprintable.2 c hc)
    cases hv' with
    | label hname' =>
      obtain ⟨hnames, hends⟩ := word_unique (hword hname) (hword hname') hrest hrest'
        (List.cons_injective h)
      rw [String.toList_inj.1 hnames]
      exact ⟨hends, fun _ => equal_refl _⟩
    | _ => simp [kind] at hkind
  | text value =>
    intro scopes' v' rest rest' hv' _ _ h
    have hkind := kind_eq_of_write_eq (@text scopes value) hv' h
    cases hv' with
    | text value' =>
      obtain ⟨hvalues, hends⟩ := quote_unique h
      rw [String.toList_inj.1 hvalues]
      exact ⟨hends, fun _ => equal_refl _⟩
    | _ => simp [kind] at hkind
  | number value =>
    intro scopes' v' rest rest' hv' hrest hrest' h
    have hkind := kind_eq_of_write_eq (@number scopes value) hv' h
    cases hv' with
    | number value' =>
      obtain ⟨hnumerals, hends⟩ := word_unique not_isStop_of_mem_numeral not_isStop_of_mem_numeral
        hrest hrest' h
      have hvalues := congrArg Source.numeralValue hnumerals
      rw [Reader.numeralValue_numeral, Reader.numeralValue_numeral, Int64.toInt_inj] at hvalues
      rw [hvalues]
      exact ⟨hends, fun _ => equal_refl _⟩
    | _ => simp [kind] at hkind
  | @list items hitems ih =>
    intro scopes' v' rest rest' hv' _ _ h
    have hkind := kind_eq_of_write_eq (list hitems) hv' h
    cases hv' with
    | list hitems' => exact items_separate hitems ih hitems' (List.cons_injective h)
    | _ => simp [kind] at hkind
  | closure hclauses hcaptured => exact closure_separates (.closure hclauses hcaptured)
  | unary op =>
    refine builtin_separates (@unary scopes op) fun _ _ h => ?_
    cases h
  | binary op =>
    refine builtin_separates (@binary scopes op) fun _ _ h => ?_
    cases h
  | waiting op hleft ih =>
    refine builtin_separates (.waiting op hleft) fun _ _ h => ?_
    cases h
    exact ih

/-- Values that are printed alike are equal, as far as printing shows everything. -/
theorem equal_of_render_eq (hv : Genuine scopes v) (hv' : Genuine scopes' v')
    (hclosure : v.listsClosure = false) (h : v.render = v'.render) : v.equal v' := by
  rw [render, render, String.ofList_inj] at h
  exact (hv.separates hv' stops_nil stops_nil h).2 hclosure

end

end ClauseLang
