import ClauseLang.Source.Position
import Mathlib.Data.List.Basic

namespace ClauseLang

namespace Position

def step (here : Position) (c : Char) : Position :=
  if c = '\n' then ⟨here.line + 1, 0⟩ else ⟨here.line, here.column + c.utf8Size⟩

theorem step_newline (here : Position) : here.step '\n' = ⟨here.line + 1, 0⟩ :=
  rfl

theorem step_of_ne (here : Position) {c : Char} (hc : c ≠ '\n') :
    here.step c = ⟨here.line, here.column + c.utf8Size⟩ :=
  if_neg hc

def after (here : Position) (cs : List Char) : Position :=
  cs.foldl step here

theorem after_append (here : Position) (cs ds : List Char) :
    here.after (cs ++ ds) = (here.after cs).after ds :=
  List.foldl_append

end Position

namespace Source

/-- The position at which the character with the given index stands. -/
def positionAt (cs : List Char) (i : Nat) : Position :=
  Position.after ⟨0, 0⟩ (cs.take i)

section

variable {c : Char} {cs ds : List Char}

theorem byteLength_nil : byteLength [] = 0 :=
  rfl

theorem byteLength_cons (c : Char) (cs : List Char) :
    byteLength (c :: cs) = c.utf8Size + byteLength cs := by
  have hfold (cs : List Char) (n : Nat) :
      cs.foldl (fun n c => n + c.utf8Size) n = n + byteLength cs := by
    induction cs generalizing n with
    | nil => rfl
    | cons c cs ih =>
      rw [byteLength, List.foldl_cons, List.foldl_cons, ih, ih]
      omega
  rw [byteLength, List.foldl_cons, hfold, Nat.zero_add]

theorem byteLength_append (cs ds : List Char) :
    byteLength (cs ++ ds) = byteLength cs + byteLength ds := by
  induction cs with
  | nil => rw [List.nil_append, byteLength_nil, Nat.zero_add]
  | cons c cs ih => rw [List.cons_append, byteLength_cons, byteLength_cons, ih, Nat.add_assoc]

theorem byteLength_pos (h : cs ≠ []) : 0 < byteLength cs := by
  obtain ⟨c, cs, rfl⟩ := List.exists_cons_of_ne_nil h
  rw [byteLength_cons]
  exact Nat.add_pos_left c.utf8Size_pos _

theorem dropBytes?_append (cs ds : List Char) :
    dropBytes? (byteLength cs) (cs ++ ds) = some ds := by
  induction cs with
  | nil => rw [byteLength_nil, List.nil_append, dropBytes?]
  | cons c cs ih =>
    have hc := c.utf8Size_pos
    obtain ⟨n, hn⟩ : ∃ n, c.utf8Size + byteLength cs = n + 1 :=
      ⟨c.utf8Size + byteLength cs - 1, by omega⟩
    rw [byteLength_cons, hn, List.cons_append, dropBytes?, if_pos (by omega), ← hn,
      Nat.add_sub_cancel_left, ih]

/-- Text without a line end leads to a later column of the same line. -/
theorem after_eq (here : Position) (h : '\n' ∉ cs) :
    here.after cs = ⟨here.line, here.column + byteLength cs⟩ := by
  induction cs generalizing here with
  | nil => rfl
  | cons c cs ih =>
    simp only [List.mem_cons, not_or] at h
    rw [Position.after, List.foldl_cons, here.step_of_ne (Ne.symm h.1)]
    exact (ih _ h.2).trans (by rw [byteLength_cons, Nat.add_assoc])

theorem lines_cons (hc : c ≠ '\n') (hcr : c = '\r' → cs.head? ≠ some '\n') :
    lines (c :: cs) = match lines cs with
      | [] => [[c]]
      | line :: rest => (c :: line) :: rest := by
  refine lines.eq_4 c cs hc ?_
  rintro ds hr rfl
  exact hcr hr rfl

theorem head?_append_ne_newline (hne : cs ≠ []) (hnl : '\n' ∉ cs) :
    (cs ++ ds).head? ≠ some '\n' := by
  obtain ⟨c, cs, rfl⟩ := List.exists_cons_of_ne_nil hne
  intro h
  exact hnl (List.mem_cons.2 (.inl (Option.some.inj h).symm))

/-- A line end, with the text before it back to the line end before, makes a line. -/
theorem exists_lines_append_newline (hnl : '\n' ∉ cs) :
    ∃ line, ∀ ds, lines (cs ++ '\n' :: ds) = line :: lines ds := by
  induction cs with
  | nil => exact ⟨[], fun _ => rfl⟩
  | cons c cs ih =>
    simp only [List.mem_cons, not_or] at hnl
    by_cases hcr : c = '\r' ∧ cs = []
    · obtain ⟨rfl, rfl⟩ := hcr
      exact ⟨[], fun _ => rfl⟩
    · obtain ⟨line, hline⟩ := ih hnl.2
      refine ⟨c :: line, fun ds => ?_⟩
      rw [List.cons_append, lines_cons (Ne.symm hnl.1), hline]
      exact fun hr => head?_append_ne_newline (fun hnil => hcr ⟨hr, hnil⟩) hnl.2

/-- A line goes on for as long as no line end comes. -/
theorem exists_lines_append (hne : cs ≠ []) (hnl : '\n' ∉ cs) (hcr : cs.getLast? ≠ some '\r') :
    ∃ rest later, lines (cs ++ ds) = (cs ++ rest) :: later := by
  induction cs with
  | nil => exact absurd rfl hne
  | cons c cs ih =>
    simp only [List.mem_cons, not_or] at hnl
    by_cases hnil : cs = []
    · subst hnil
      have hc : c ≠ '\r' := fun h => hcr (by rw [h]; rfl)
      rw [List.singleton_append, lines_cons (Ne.symm hnl.1) fun h => absurd h hc]
      cases lines ds with
      | nil => exact ⟨[], [], rfl⟩
      | cons line later => exact ⟨line, later, rfl⟩
    · rw [List.getLast?_cons_of_ne_nil hnil] at hcr
      obtain ⟨rest, later, hlines⟩ := ih hnil hnl.2 hcr
      refine ⟨rest, later, ?_⟩
      rw [List.cons_append, lines_cons (Ne.symm hnl.1) fun _ => head?_append_ne_newline hnil hnl.2,
        hlines]
      rfl

/-- The line that a stretch of text is on, with its number and the column where the stretch begins. -/
theorem exists_line {part : List Char} (hne : part ≠ []) (hnl : '\n' ∉ part)
    (hcr : part.getLast? ≠ some '\r') (cs ds : List Char) (number : Nat) :
    ∃ earlier before rest later,
      lines (cs ++ part ++ ds) = earlier ++ (before ++ part ++ rest) :: later ∧
        Position.after ⟨number, 0⟩ cs = ⟨number + earlier.length, byteLength before⟩ := by
  by_cases hcs : '\n' ∈ cs
  · obtain ⟨us, vs, hsplit, hus⟩ := List.eq_append_cons_of_mem hcs
    have hlength : vs.length < cs.length := by
      rw [hsplit, List.length_append, List.length_cons]
      omega
    obtain ⟨line, hline⟩ := exists_lines_append_newline hus
    obtain ⟨earlier, before, rest, later, hlines, hafter⟩ :=
      exists_line hne hnl hcr vs ds (number + 1)
    refine ⟨line :: earlier, before, rest, later, ?_, ?_⟩
    · rw [hsplit, List.append_assoc, List.append_assoc, List.cons_append, hline, ← List.append_assoc,
        hlines]
      rfl
    · have hstep : Position.after ⟨number, 0⟩ cs = Position.after ⟨number + 1, 0⟩ vs := by
        rw [hsplit, Position.after_append, after_eq _ hus]
        rfl
      rw [hstep, hafter, List.length_cons, Nat.add_assoc, Nat.add_comm 1]
  · have hlast : (cs ++ part).getLast? ≠ some '\r' := by
      rwa [List.getLast?_append_of_ne_nil _ hne]
    obtain ⟨rest, later, hlines⟩ := exists_lines_append
      (List.append_ne_nil_of_right_ne_nil cs hne) (by simp [hcs, hnl]) hlast
    exact ⟨[], cs, rest, later, hlines, by rw [after_eq _ hcs, Nat.zero_add]; rfl⟩
termination_by cs.length

end

end Source

namespace Span

open Source

variable {span : Span}

/-- The span is a stretch of one line of its text: a character begins at its first column, and one
ends at its last. -/
def OnLine (span : Span) : Prop :=
  ∃ earlier before part rest later,
    lines span.source.toList = earlier ++ (before ++ part ++ rest) :: later ∧ part ≠ [] ∧
      span.start = ⟨earlier.length, byteLength before⟩ ∧
      span.stop = ⟨earlier.length, byteLength (before ++ part)⟩

theorem fits_of_eq {before part rest : List Char} {number : Nat}
    (hstart : span.start = ⟨number, byteLength before⟩)
    (hstop : span.stop = ⟨number, byteLength (before ++ part)⟩) :
    span.fits (before ++ (part ++ rest)) := by
  have hle : byteLength before ≤ byteLength (before ++ part) := by
    rw [byteLength_append]
    exact Nat.le_add_right _ _
  have hrest : dropBytes? (byteLength (before ++ part) - byteLength before) (part ++ rest) =
      some rest := by
    rw [byteLength_append, Nat.add_sub_cancel_left, dropBytes?_append]
  rw [fits, hstart, hstop, dropBytes?_append]
  simp [hle, hrest]

theorem OnLine.isSome_excerpt? (h : span.OnLine) (note : String) : (span.excerpt? note).isSome := by
  obtain ⟨earlier, before, part, rest, later, hlines, hpart, hstart, hstop⟩ := h
  have hbefore : ∃ line, span.lineBefore? (lines span.source.toList) = some line := by
    rw [lineBefore?, hstart, hlines]
    dsimp only
    split
    · exact ⟨_, rfl⟩
    · next hne =>
      rw [List.getElem?_append_left (by omega)]
      exact ⟨_, List.getElem?_eq_getElem (by omega)⟩
  have hfirst : (lines span.source.toList)[span.start.line]? = some (before ++ part ++ rest) := by
    rw [hstart, hlines, List.getElem?_append_right (Nat.le_refl _), Nat.sub_self]
    rfl
  have hafter : span.linesAfter? (lines span.source.toList) = some [] := by
    rw [linesAfter?, hstart, hstop, if_pos (Nat.le_refl _)]
  have hcolumn : 0 < span.stop.column := by
    rw [hstop, byteLength_append]
    exact Nat.add_pos_right _ (byteLength_pos hpart)
  obtain ⟨line, hline⟩ := hbefore
  have hfits : span.fits (before ++ (part ++ rest)) := fits_of_eq hstart hstop
  simp [excerpt?, hline, hfirst, hafter, hfits, hcolumn]

end Span

end ClauseLang
