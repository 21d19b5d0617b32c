import ClauseLang.Reader.State

/-!
The error found furthest. However the cursor is moved between the errors, what is remembered is about
the furthest place that any of them was recorded at. It says what the first error at that place said,
and expects what any error there expected.
-/

namespace ClauseLang

/-- The error with what the later ones expected besides, in the order in which they did. -/
def ParseError.joined (first : ParseError) (later : List ParseError) : ParseError :=
  { first with expected :=
      first.expected ++ ((later.flatMap (·.expected)).removeAll first.expected).eraseDups }

theorem ParseError.joined_nil (first : ParseError) : first.joined [] = first := by
  rw [joined, List.flatMap_nil]
  exact congrArg (fun expected => { first with expected }) (List.append_nil _)

namespace ReadState

inductive Move where
  | advance
  | restore (index : Nat)
  | record (e : ParseError)

namespace Move

def apply : Move → ReadState → ReadState
  | .advance, s => s.advance
  | .restore index, s => s.restore index
  | .record e, s => s.record e

/-- The error that is recorded, if one is, with the place of the cursor. -/
def recorded : Move → ReadState → List (Nat × ParseError)
  | .record e, s => [(s.index, e)]
  | .advance, _ | .restore _, _ => []

end Move

def after (s : ReadState) (moves : List Move) : ReadState :=
  moves.foldl (fun s move => move.apply s) s

/-- The errors that are recorded by some moves, each with the place of the cursor at the time. -/
def records : ReadState → List Move → List (Nat × ParseError)
  | _, [] => []
  | s, move :: moves => move.recorded s ++ records (move.apply s) moves

def errorsAt (place : Nat) (log : List (Nat × ParseError)) : List ParseError :=
  (log.filter (·.1 = place)).map Prod.snd

/-- What is remembered of the errors on record. -/
inductive SumsUp : List (Nat × ParseError) → Option (Nat × ParseError) → Prop
  | nothing : SumsUp [] none
  | joined {log : List (Nat × ParseError)} {place : Nat} {first : ParseError}
      {later : List ParseError} :
    (∀ p ∈ log, p.1 ≤ place) → errorsAt place log = first :: later →
      SumsUp log (some (place, first.joined later))

theorem mergeExpected_eq (known new : List String) :
    mergeExpected known new = known ++ (new.removeAll known).eraseDups := by
  induction new generalizing known with
  | nil => exact (List.append_nil known).symm
  | cons what new ih =>
    have hstep : mergeExpected known (what :: new) =
        mergeExpected (if what ∈ known then known else known ++ [what]) new := rfl
    rw [hstep, ih]
    by_cases h : what ∈ known
    · have hskip : (what :: new).removeAll known = new.removeAll known := by
        simp [List.removeAll, h]
      rw [if_pos h, hskip]
    · have htake : (what :: new).removeAll known = what :: new.removeAll known := by
        simp [List.removeAll, h]
      have hrest : (new.removeAll known).filter (fun x => !x == what) =
          new.removeAll (known ++ [what]) := by
        rw [List.removeAll, List.removeAll, List.filter_filter]
        refine List.filter_congr fun x _ => ?_
        by_cases hx : x ∈ known <;> simp [hx, Bool.beq_eq_decide_eq]
      rw [if_neg h, htake, List.eraseDups_cons, hrest, List.append_assoc, List.singleton_append]

theorem joined_append_singleton (first e : ParseError) (later : List ParseError) :
    { first.joined later with
      expected := mergeExpected (first.joined later).expected e.expected } =
      first.joined (later ++ [e]) := by
  have hrest (known new more : List String) :
      new.removeAll (known ++ (more.removeAll known).eraseDups) =
        (new.removeAll known).removeAll (more.removeAll known) := by
    simp only [List.removeAll, List.filter_filter]
    refine List.filter_congr fun x _ => ?_
    by_cases hx : x ∈ known <;> simp [hx]
  have hsplit (known new more : List String) :
      (more ++ new).removeAll known = more.removeAll known ++ new.removeAll known :=
    List.filter_append ..
  unfold ParseError.joined
  dsimp only
  rw [mergeExpected_eq, hrest, List.flatMap_append, List.flatMap_singleton, hsplit,
    List.eraseDups_append, List.append_assoc]

theorem errorsAt_append_singleton (place : Nat) (log : List (Nat × ParseError)) (p : Nat × ParseError) :
    errorsAt place (log ++ [p]) = errorsAt place log ++ if p.1 = place then [p.2] else [] := by
  rw [errorsAt, errorsAt, List.filter_append, List.map_append]
  by_cases h : p.1 = place <;> simp [h]

theorem errorsAt_eq_nil {place : Nat} {log : List (Nat × ParseError)} (h : ∀ p ∈ log, p.1 < place) :
    errorsAt place log = [] := by
  rw [errorsAt, List.map_eq_nil_iff, List.filter_eq_nil_iff]
  exact fun p hp => by simp [Nat.ne_of_lt (h p hp)]

/-- Recording an error behind the known one replaces it, one at its place is joined to it, and one
before it is forgotten. -/
theorem SumsUp.record {s : ReadState} {log : List (Nat × ParseError)} (h : SumsUp log s.furthest)
    (e : ParseError) : SumsUp (log ++ [(s.index, e)]) (s.record e).furthest := by
  have hfirst (hlt : ∀ p ∈ log, p.1 < s.index) :
      SumsUp (log ++ [(s.index, e)]) (some (s.index, e)) := by
    have hat : errorsAt s.index (log ++ [(s.index, e)]) = [e] := by
      rw [errorsAt_append_singleton, errorsAt_eq_nil hlt, if_pos rfl, List.nil_append]
    have hsum := SumsUp.joined (List.forall_mem_append.2
      ⟨fun p hp => Nat.le_of_lt (hlt p hp), List.forall_mem_singleton.2 (Nat.le_refl _)⟩) hat
    rwa [e.joined_nil] at hsum
  unfold ReadState.record
  cases hknown : s.furthest with
  | none =>
    rw [hknown] at h
    cases h
    exact hfirst (by simp)
  | some known =>
    rw [hknown] at h
    obtain _ | @⟨_, place, first, later, hle, hat⟩ := h
    dsimp only
    split
    next hplace =>
      subst hplace
      rw [joined_append_singleton]
      refine .joined (List.forall_mem_append.2
        ⟨hle, List.forall_mem_singleton.2 (Nat.le_refl _)⟩) ?_
      rw [errorsAt_append_singleton, hat, if_pos rfl]
      rfl
    next hplace =>
      split
      next hlt =>
        rw [hknown]
        refine .joined (List.forall_mem_append.2
          ⟨hle, List.forall_mem_singleton.2 (Nat.le_of_lt hlt)⟩) ?_
        rw [errorsAt_append_singleton, hat, if_neg (Ne.symm hplace), List.append_nil]
      next hlt => exact hfirst fun p hp => Nat.lt_of_le_of_lt (hle p hp) (by omega)

theorem furthest_advance (s : ReadState) : s.advance.furthest = s.furthest := by
  unfold ReadState.advance
  split <;> rfl

/-- What a move does to the memory is only by the error that it records. -/
theorem SumsUp.apply {s : ReadState} {log : List (Nat × ParseError)} (h : SumsUp log s.furthest)
    (move : Move) : SumsUp (log ++ move.recorded s) (move.apply s).furthest := by
  cases move with
  | advance =>
    rw [Move.recorded, Move.apply, List.append_nil, furthest_advance]
    exact h
  | restore index =>
    rw [Move.recorded, List.append_nil]
    exact h
  | record e => exact h.record e

theorem SumsUp.after {s : ReadState} {log : List (Nat × ParseError)} (h : SumsUp log s.furthest)
    (moves : List Move) : SumsUp (log ++ s.records moves) (s.after moves).furthest := by
  induction moves generalizing s log with
  | nil => rwa [records, List.append_nil]
  | cons move moves ih =>
    rw [records, ← List.append_assoc]
    exact ih (h.apply move)

/-- There is nothing to remember as long as no error was recorded. After that, the remembered error is
at the greatest of the places where errors were recorded, and joins all those at that place. -/
theorem furthest_after (tokens : List Token) (moves : List Move) :
    let s := ofTokens tokens
    let log := s.records moves
    ((s.after moves).furthest = none ↔ log = []) ∧
      (log = [] ∨ ∃ place first later, place ∈ log.map Prod.fst ∧
        (∀ i ∈ log.map Prod.fst, i ≤ place) ∧ errorsAt place log = first :: later ∧
        (s.after moves).furthest = some (place, first.joined later)) := by
  intro s log
  have hsum : SumsUp log (s.after moves).furthest := @SumsUp.after s [] .nothing moves
  generalize (s.after moves).furthest = furthest at hsum ⊢
  clear_value log
  cases hsum with
  | nothing => exact ⟨by simp, .inl rfl⟩
  | @joined _ place first later hle hat =>
    have hmem : place ∈ log.map Prod.fst := by
      obtain ⟨p, hp, -⟩ := List.mem_map.1 (hat ▸ List.mem_cons_self : first ∈ errorsAt place log)
      obtain ⟨hp, hplace⟩ := List.mem_filter.1 hp
      exact List.mem_map.2 ⟨p, hp, of_decide_eq_true hplace⟩
    refine ⟨?_, .inr ⟨place, first, later, hmem, ?_, hat, rfl⟩⟩
    · simp only [reduceCtorEq, false_iff]
      exact fun h => by simp [h] at hmem
    · simpa using hle

end ReadState

end ClauseLang
