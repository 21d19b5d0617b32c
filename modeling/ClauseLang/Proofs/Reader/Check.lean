import ClauseLang.Proofs.Reader.Place

/-!
Errors of the check on clauses. They stand for themselves, expect nothing, and are not remembered:
where a reader reports one, the lexemes lead through clause bodies and bindings to braces that are
flawed.
-/

namespace ClauseLang

/-- The error found furthest is none of the check on clauses. -/
def ReadState.Unchecked (s : ReadState) : Prop :=
  ∀ known ∈ s.furthest, known.2.problem.isCheck = false

namespace ReadState

variable {s : ReadState} {e : ParseError}

theorem Unchecked.record (h : s.Unchecked) (he : e.problem.isCheck = false) :
    (s.record e).Unchecked := by
  have hnew : Unchecked { s with furthest := some (s.index, e) } := by
    rintro _ ⟨rfl⟩
    exact he
  unfold ReadState.record
  split
  · exact hnew
  next index known hknown =>
    split
    · rintro _ ⟨rfl⟩
      exact h (index, known) hknown
    · split
      · exact h
      · exact hnew

theorem Unchecked.advance (h : s.Unchecked) : s.advance.Unchecked := by
  unfold ReadState.advance
  split <;> exact h

theorem problem_errorHere (problem : Problem) : (s.errorHere problem).problem = problem := by
  unfold errorHere
  split <;> rfl

end ReadState

namespace Reader

variable {α β : Type}

/-- The errors of the reader: what one of the check says holds of the lexemes that were read. -/
def Raises (p : Reader α) (X : Problem → List Lexeme → Prop) : Prop :=
  ∀ s : ReadState, s.Unchecked → match p s with
    | .ok _ s' => s'.Unchecked
    | .error e s' =>
      s'.Unchecked ∧ (e.problem.isCheck → e.expected = [] ∧ X e.problem s.ahead)

/-- The reader does not check clauses. -/
def Mild (p : Reader α) : Prop :=
  Raises p fun _ _ => False

namespace Raises

variable {p q : Reader α} {X Y : Problem → List Lexeme → Prop} {P : Phrase α}

theorem ok (h : Raises p X) {s s' : ReadState} {a : α} (hs : s.Unchecked)
    (hp : p s = .ok a s') : s'.Unchecked := by
  have := h s hs
  rwa [hp] at this

theorem error (h : Raises p X) {s s' : ReadState} {e : ParseError} (hs : s.Unchecked)
    (hp : p s = .error e s') :
    s'.Unchecked ∧ (e.problem.isCheck → e.expected = [] ∧ X e.problem s.ahead) := by
  have := h s hs
  rwa [hp] at this

theorem mono (h : Raises p X) (hXY : ∀ problem ts, X problem ts → Y problem ts) : Raises p Y := by
  intro s hs
  cases hp : p s with
  | ok a s' => exact h.ok hs hp
  | error e s' =>
    obtain ⟨hu, he⟩ := h.error hs hp
    exact ⟨hu, fun hcheck => ⟨(he hcheck).1, hXY _ _ (he hcheck).2⟩⟩

theorem pure (a : α) : Raises (pure a) X :=
  fun _ hs => hs

theorem bind {f : α → Reader β} {Y : α → Problem → List Lexeme → Prop} (hp : Raises p X)
    (hs : Sound p P) (hf : ∀ a, Raises (f a) (Y a)) :
    Raises (p >>= f) fun problem ts => X problem ts ∨ ∃ a us, P ts a us ∧ Y a problem us := by
  intro s hu
  cases h : p s with
  | error e s' =>
    obtain ⟨hu', he⟩ := hp.error hu h
    rw [bind_eq_error h]
    exact ⟨hu', fun hcheck => ⟨(he hcheck).1, .inl (he hcheck).2⟩⟩
  | ok a s' =>
    have hu' := hp.ok hu h
    rw [bind_eq_ok h]
    cases h' : f a s' with
    | ok b s'' => exact (hf a).ok hu' h'
    | error e s'' =>
      obtain ⟨hu'', he⟩ := (hf a).error hu' h'
      exact ⟨hu'', fun hcheck => ⟨(he hcheck).1, .inr ⟨a, s'.ahead, (hs.ok h).2, (he hcheck).2⟩⟩⟩

theorem attempt (h : Raises p X) : Raises (Reader.attempt p) Y := by
  intro s hu
  cases hp : p s with
  | ok a s' =>
    rw [attempt_eq_ok hp]
    exact h.ok hu hp
  | error e s' =>
    rw [attempt_eq_none hp]
    exact (h.error hu hp).1

/-- What is done with a result at the end has no errors. -/
theorem bind_pure (h : Raises p X) (f : α → β) :
    Raises (p >>= fun a => Pure.pure (f a)) X := by
  intro s hu
  cases hp : p s with
  | ok a s' =>
    rw [bind_eq_ok hp]
    exact h.ok hu hp
  | error e s' =>
    rw [bind_eq_error hp]
    exact h.error hu hp

/-- Where the errors come from does not matter. -/
theorem bind_const {c : Prop} {f : α → Reader β} (hp : Raises p fun _ _ => c)
    (hf : ∀ a, Raises (f a) fun _ _ => c) : Raises (p >>= f) fun _ _ => c := by
  intro s hu
  cases h : p s with
  | error e s' =>
    rw [bind_eq_error h]
    exact hp.error hu h
  | ok a s' =>
    rw [bind_eq_ok h]
    exact hf a s' (hp.ok hu h)

theorem within {f : Nat → Reader α} (h : ∀ n, Raises (f n) X) : Raises (Reader.within f) X :=
  fun s => h (s.remaining + 1) s

theorem refuse {e : ParseError} (he : e.expected = []) :
    Raises (Reader.refuse e : Reader α) fun problem _ => problem = e.problem :=
  fun _ hu => ⟨hu, fun _ => ⟨he, rfl⟩⟩

theorem stuck : Raises (Reader.stuck : Reader α) X := by
  intro s hu
  refine ⟨hu, fun hcheck => ?_⟩
  rw [ReadState.problem_errorHere] at hcheck
  cases hcheck

end Raises

namespace Mild

variable {p q : Reader α} {X : Problem → List Lexeme → Prop} {P : Phrase α}

theorem raises (h : Mild p) : Raises p X :=
  h.mono fun _ _ => False.elim

theorem bind {f : α → Reader β} (hp : Mild p) (hf : ∀ a, Mild (f a)) : Mild (p >>= f) :=
  Raises.bind_const hp hf

theorem refuse {e : ParseError} (he : e.problem.isCheck = false) :
    Mild (Reader.refuse e : Reader α) := by
  intro s hu
  refine ⟨hu, fun hcheck => ?_⟩
  rw [he] at hcheck
  cases hcheck

theorem named (name : String) (h : Mild p) : Mild (Reader.named name p) := by
  intro s hu
  unfold Reader.named
  cases hp : p s with
  | ok a s' => exact h.ok hu hp
  | error e s' =>
    obtain ⟨hu', he⟩ := h.error hu hp
    have hproblem : e.problem.isCheck = false := by
      rw [← Bool.not_eq_true]
      exact fun hcheck => (he hcheck).2
    exact ⟨hu'.record hproblem, fun hcheck => absurd hcheck (by simp [hproblem])⟩

theorem accept (read : Token → Option α) (expected : String) :
    Mild (Reader.accept read expected) := by
  have hfails (s : ReadState) (hu : s.Unchecked) (problem : Problem)
      (hproblem : problem.isCheck = false) :
      let e := { s.errorHere problem with expected := [expected] }
      (s.record e).Unchecked ∧ (e.problem.isCheck → e.expected = [] ∧ False) := by
    intro e
    have he : e.problem.isCheck = false := by
      rw [← hproblem, ← ReadState.problem_errorHere (s := s) problem]
    exact ⟨hu.record he, fun hcheck => absurd hcheck (by simp [he])⟩
  intro s hu
  unfold Reader.accept
  cases s.peek? with
  | none => exact hfails s hu _ rfl
  | some token =>
    dsimp only
    cases read token with
    | none => exact hfails s hu _ rfl
    | some a => exact hu.advance

theorem word (l : Lexeme) : Mild (Reader.word l) :=
  accept _ _

theorem nextLexeme? : Mild Reader.nextLexeme? :=
  fun _ hu => hu

/-- The errors after a part without errors of its own. -/
theorem bind_raises {f : α → Reader β} {Y : α → Problem → List Lexeme → Prop} (hp : Mild p)
    (hs : Sound p P) (hf : ∀ a, Raises (f a) (Y a)) :
    Raises (p >>= f) fun problem ts => ∃ a us, P ts a us ∧ Y a problem us :=
  (Raises.bind hp hs hf).mono fun _ _ h => h.resolve_left False.elim

end Mild

/-! ### Where the check has no part -/

theorem raises_accept_bind {read : Token → Option α} {f : α → Reader β} {c : Prop} (expected : String)
    (hf : ∀ token a, read token = some a → Raises (f a) fun _ _ => c) :
    Raises (accept read expected >>= f) fun _ _ => c := by
  intro s hu
  have hsound := Sound.accept read expected s
  have hmild := Mild.accept read expected s hu
  cases h : accept read expected s with
  | error e s' =>
    rw [h] at hmild
    rw [bind_eq_error h]
    exact ⟨hmild.1, fun hcheck => absurd (hmild.2 hcheck).2 id⟩
  | ok a s' =>
    rw [h] at hsound hmild
    rw [bind_eq_ok h]
    obtain ⟨-, token, ha, -⟩ := hsound
    exact hf token a ha s' hmild

/-- An attempt keeps errors of the check to itself. -/
theorem raises_compositional :
    Compositional (fun _ _ _ => True) (fun _ => True) fun b _ _ {_} p _ => Raises p fun _ _ => b where
  left_trans _ _ := trivial
  mono _ h := h
  open_of h := h.mono fun _ _ _ => rfl
  pure a := .pure a
  nextLexeme? := Mild.nextLexeme?.raises
  stuck := .stuck
  refuse_integer _ := (Mild.refuse rfl).raises
  refuse_check _ := (Raises.refuse rfl).mono fun _ _ _ => rfl
  defaultFirst _ hu := ⟨hu, fun _ => ⟨rfl, rfl⟩⟩
  accept_bind expected hf :=
    raises_accept_bind expected fun token a ha => hf token a 0 trivial ha trivial
  bind hp hf := hp.bind_const fun a => hf a 0 trivial
  attempt_bind hp hsome hnone := hp.attempt.bind_const fun r => by
    cases r with
    | none => exact hnone
    | some a => exact hsome a 0 trivial
  named name hp := (Mild.named name (hp.mono fun _ _ h => Bool.false_ne_true h)).raises
  within h := .within h

theorem Mild.of_compositional {p : Reader α} (h : Raises p fun _ _ => false) : Mild p :=
  h.mono fun _ _ h => Bool.false_ne_true h

theorem atom_mild : Mild atom :=
  .of_compositional (raises_compositional.atom (n := 0))

section

variable {expr : Reader Expr} {X : Problem → List Lexeme → Prop} (h : Raises expr X)
include h

theorem application_mild : Mild (application expr) :=
  .of_compositional (raises_compositional.application (n := 0) (q := expr)
    fun _ _ => h.mono fun _ _ _ => rfl)

theorem list_mild : Mild (list expr) :=
  .of_compositional (raises_compositional.list (n := 0) (q := expr)
    fun _ _ => h.mono fun _ _ _ => rfl)

theorem row_mild : Mild (named "match" (many1 (formal expr))) :=
  .of_compositional (raises_compositional.row (n := 0) (q := expr)
    fun _ _ => h.mono fun _ _ _ => rfl)

end

/-! ### Where a row ends -/

theorem manyWithin_stops {p : Reader α} {P : Phrase α} (hs : Sound p P) (hc : Consumes P)
    {n : Nat} {s s' : ReadState} {as : List α} (h : manyWithin p n s = .ok as s')
    (hn : s.ahead.length < n) : ∃ t e t', t.ahead = s'.ahead ∧ p t = .error e t' := by
  induction n generalizing s as with
  | zero => omega
  | succ n ih =>
    rw [manyWithin] at h
    cases hp : p s with
    | error e t =>
      rw [bind_eq_ok (attempt_eq_none hp)] at h
      cases h
      exact ⟨s, e, t, (ReadState.ahead_restore (hs.error hp)).symm, hp⟩
    | ok a t =>
      rw [bind_eq_ok (attempt_eq_ok hp)] at h
      dsimp only at h
      have hlt := hc (hs.ok hp).2
      cases hm : manyWithin p n t with
      | error e u =>
        rw [bind_eq_error hm] at h
        cases h
      | ok bs u =>
        rw [bind_eq_ok hm] at h
        cases h
        exact ih hm (by omega)

theorem many_stops {p : Reader α} {P : Phrase α} (hs : Sound p P) (hc : Consumes P) :
    Sound (many p) fun ts as rest =>
      Many P ts as rest ∧ ∃ t e t', t.ahead = rest ∧ p t = .error e t' := by
  intro s
  have hm := hs.many s
  cases h : many p s with
  | error e s' =>
    rw [h] at hm
    exact hm
  | ok as s' =>
    rw [h] at hm
    refine ⟨hm.1, hm.2, manyWithin_stops hs hc h ?_⟩
    rw [s.length_ahead]
    exact Nat.lt_succ_self _

section

variable {n : Nat} {expr : Reader Expr} (hs : Sound expr (DerivesWithin n))
  (hc : Complete expr (DerivesWithin n)) (hf : Fails expr (Lacks Lexeme.opens))

theorem guardedName_succeeds (expr : Reader Expr) {s : ReadState} {x : String} {us : List Lexeme}
    (h : s.ahead = .ident x :: us) : ∃ e s', guardedName expr s = .ok e s' := by
  obtain ⟨t, ht, -⟩ := ident_complete s x us h
  unfold guardedName
  rw [bind_eq_ok ht]
  cases hp : condition expr t with
  | error e u => exact ⟨_, _, bind_eq_ok (attempt_eq_none hp)⟩
  | ok r u => exact ⟨_, _, bind_eq_ok (attempt_eq_ok hp)⟩

include hs hc hf

/-- Where there is a formal, one is read. It may be another one, without its guard. -/
theorem formal_succeeds {s : ReadState} {e : Expr} {rest : List Lexeme}
    (h : Formal (DerivesWithin n) s.ahead e rest) : ∃ a s', formal expr s = .ok a s' := by
  unfold formal
  rw [nextLexeme?_bind]
  generalize ha : s.ahead = ts at h
  cases h with
  | guarded x | constant x => exact guardedName_succeeds expr ha
  | simple h =>
    cases h with
    | name x => exact guardedName_succeeds expr ha
    | literal hl =>
      obtain ⟨s', hr, -⟩ := literal_complete s e rest ⟨_, hl, ha⟩
      cases hl <;> exact ⟨_, s', hr⟩
    | list hm =>
      obtain ⟨s', hr, -⟩ := bracketed_complete hs hc hf (simple_sound hs) s _ _ ⟨_, _, rfl, ha, hm⟩
      exact ⟨_, s', hr⟩
    | cons hh ht =>
      have hp : Complete (simple expr) fun ts e rest =>
          ts.length < s.ahead.length ∧ Simple (DerivesWithin n) ts e rest :=
        (simple_complete hs hc hf).mono fun _ _ _ h => h.2
      obtain ⟨s', hr, -⟩ := (cons_complete hp).either_left s _ _
        ⟨_, _, _, _, rfl, ha, by simp [ha], hh, ht⟩
      exact ⟨_, s', hr⟩

theorem row_stops : Sound (named "match" (many1 (formal expr))) fun ts row rest =>
    Row (DerivesWithin n) ts row rest ∧ ∀ e us, ¬ Formal (DerivesWithin n) rest e us := by
  refine (((formal_sound hs).bind fun first => (many_stops (formal_sound hs)
    (Formal.consumes DerivesWithin.consumes)).bind fun others =>
      Sound.pure (first :: others)).mono ?_).named _
  rintro ts row rest ⟨first, us, hfirst, others, _, ⟨hothers, t, e, t', rfl, ht⟩, rfl, rfl⟩
  refine ⟨.mk hfirst hothers, fun e us h => ?_⟩
  obtain ⟨a, s', ha⟩ := formal_succeeds hs hc hf h
  rw [ht] at ha
  cases ha

end

/-- What follows a clause without a body, if it is followed by clauses or by the end of them. -/
theorem Written.lacks_goesOn {P : Phrase Expr} {first : Option Nat} {ts rest : List Lexeme}
    {raws : List RawClause} (h : Written P first ts raws rest)
    (hstop : ∀ e us, ¬ Formal P ts e us) (hrest : ts = rest → Lacks Lexeme.goesOn ts) :
    Lacks Lexeme.goesOn ts := by
  cases h with
  | nil => exact hrest rfl
  | default => exact lacks_cons rfl
  | plain hr => obtain ⟨hformal, -⟩ := hr; exact absurd hformal (hstop _ _)
  | bare hr => obtain ⟨hformal, -⟩ := hr; exact absurd hformal (hstop _ _)

/-- Clauses come to a stop at these lexemes, after a first row of the given length if there was one. -/
inductive Halts (P : Phrase Expr) : Problem → Option Nat → List Lexeme → Prop
  | defaultFirst (ts : List Lexeme) : Halts P .defaultFirst none (.fatArrow :: ts)
  | defaultBody {ts : List Lexeme} {problem : Problem} (arity : Nat) :
    Refused problem ts → Halts P problem (some arity) (.fatArrow :: ts)
  | body {ts us : List Lexeme} {problem : Problem} {first : Option Nat} {row : List Expr} :
    Row P ts row (.arrow :: us) → Refused problem us → Halts P problem first ts

theorem Halts.mono {P Q : Phrase Expr} {n : Nat} (hP : Consumes P) (hPQ : Below n P Q)
    {problem : Problem} {first : Option Nat} {ts : List Lexeme} (h : Halts P problem first ts)
    (hn : ts.length < n) : Halts Q problem first ts := by
  cases h with
  | defaultFirst ts => exact .defaultFirst ts
  | defaultBody arity h => exact .defaultBody arity h
  | body hr h => exact .body (Row.mono hP hPQ hn hr) h

def firstRow (first : Option Nat) (raws : List RawClause) : Option Nat :=
  first.or (raws.head?.map (·.row.length))

theorem firstRow_none_eq_none_iff {raws : List RawClause} : firstRow none raws = none ↔ raws = [] := by
  cases raws <;> simp [firstRow]

theorem firstRow_cons (first : Option Nat) (raw : RawClause) (raws : List RawClause) :
    firstRow (first.or (some raw.row.length)) raws = firstRow first (raw :: raws) := by
  cases first <;> rfl

/-- What follows a row without a body, if reading goes on to a stop. -/
theorem Halts.lacks_goesOn {P : Phrase Expr} {problem : Problem} {first : Option Nat}
    {ts : List Lexeme} (h : Halts P problem first ts) (hstop : ∀ e us, ¬ Formal P ts e us) :
    Lacks Lexeme.goesOn ts := by
  cases h with
  | defaultFirst | defaultBody => exact lacks_cons rfl
  | body hr => obtain ⟨hformal, -⟩ := hr; exact absurd hformal (hstop _ _)

theorem Refused.letValue (x : String) {problem : Problem} {ts : List Lexeme}
    (h : Refused problem ts) : Refused problem (.letWord :: .ident x :: .equals :: ts) := by
  obtain ⟨path, us, hpath, hleads, hflawed⟩ := h
  exact ⟨.letValue :: path, us, by simpa [Place.isFinal] using hpath, .letValue x hleads, hflawed⟩

theorem Refused.letBody (x : String) {problem : Problem} {ts us : List Lexeme} {value : Expr}
    (hvalue : Derives ts value us) (h : Refused problem us) :
    Refused problem (.letWord :: .ident x :: .equals :: ts) := by
  obtain ⟨path, vs, hpath, hleads, hflawed⟩ := h
  exact ⟨.letBody :: path, vs, by simpa [Place.isFinal] using hpath, .letBody x hvalue hleads,
    hflawed⟩

/-- Behind a brace, a stop is refused. -/
theorem Halts.refused {problem : Problem} {raws : List RawClause} {ts us : List Lexeme}
    (hw : Written Derives none ts raws us) (h : Halts Derives problem (firstRow none raws) us) :
    Refused problem (.lbrace :: ts) := by
  generalize hfirst : firstRow none raws = first at h
  cases h with
  | defaultFirst us =>
    obtain rfl := firstRow_none_eq_none_iff.1 hfirst
    cases hw
    exact ⟨[], _, rfl, .here, .defaultFirst us⟩
  | defaultBody arity h =>
    obtain ⟨path, vs, hpath, hleads, hflawed⟩ := h
    have hne : raws ≠ [] := by
      rintro rfl
      cases hfirst
    exact ⟨.clauseBody :: path, vs, by simpa [Place.isFinal] using hpath,
      .defaultBody hw hne hleads, hflawed⟩
  | body hrow h =>
    obtain ⟨path, vs, hpath, hleads, hflawed⟩ := h
    exact ⟨.clauseBody :: path, vs, by simpa [Place.isFinal] using hpath,
      .clauseBody hw hrow hleads, hflawed⟩

section

variable {expr : Reader Expr} {P : Phrase Expr} (hs : Sound expr P) (hr : Raises expr Refused)
include hr

theorem defaultClause_raises (first : Option Nat) :
    Raises (defaultClause expr first) fun problem ts =>
      (∃ us, ts = .fatArrow :: us) → Halts P problem first ts := by
  cases first with
  | none =>
    intro s hu
    refine ⟨hu, fun _ => ⟨rfl, ?_⟩⟩
    rintro ⟨us, hus⟩
    rw [hus]
    exact .defaultFirst us
  | some arity =>
    refine ((Mild.word _).bind_raises (Sound.word _) fun _ => hr.bind_pure _).mono ?_
    rintro problem ts ⟨_, us, ⟨-, rfl⟩, hbody⟩ -
    exact .defaultBody arity hbody

include hs

theorem plainClause_raises : Raises (plainClause expr) fun problem ts =>
    ∃ row us, Row P ts row (.arrow :: us) ∧ Refused problem us := by
  refine ((row_mild hr).bind_raises (row_sound hs) fun row =>
    Mild.nextLexeme?.bind_raises Sound.nextLexeme? (Y := fun _ problem ts =>
      ∃ us, ts = .arrow :: us ∧ Refused problem us) fun l => ?_).mono ?_
  · split
    · refine ((Mild.word _).bind_raises (Sound.word _) fun _ => hr.bind_pure _).mono ?_
      rintro problem ts ⟨_, us, ⟨-, rfl⟩, hbody⟩
      exact ⟨us, rfl, hbody⟩
    · exact .pure _
  · rintro problem ts ⟨row, _, hrow, _, _, ⟨-, rfl⟩, us, rfl, hbody⟩
    exact ⟨row, us, hrow, hbody⟩

end

theorem Written.cons {P : Phrase Expr} {first : Option Nat} {ts us rest : List Lexeme}
    {raw : RawClause} {raws : List RawClause}
    (hraw : match raw with
      | ⟨row, none⟩ => Row P ts row us ∧ ∀ e vs, ¬ Formal P us e vs
      | ⟨row, some body⟩ => ∃ vs, Row P ts row (.arrow :: vs) ∧ P vs body us)
    (h : Written P (first.or (some raw.row.length)) us raws rest)
    (hrest : (∀ e vs, ¬ Formal P rest e vs) → Lacks Lexeme.goesOn rest) :
    Written P first ts (raw :: raws) rest := by
  obtain ⟨row, body⟩ := raw
  cases body with
  | some body =>
    obtain ⟨vs, hrow, hbody⟩ := hraw
    exact .plain hrow hbody h
  | none =>
    obtain ⟨hrow, hstop⟩ := hraw
    refine .bare hrow (h.lacks_goesOn hstop ?_) h
    rintro rfl
    exact hrest hstop

section

variable {n : Nat} {expr : Reader Expr} (hs : Sound expr (DerivesWithin n))
  (hc : Complete expr (DerivesWithin n)) (hf : Fails expr (Lacks Lexeme.opens))
  (hr : Raises expr Refused)
include hs hc hf

theorem plainClause_stops : Sound (plainClause expr) fun ts raw rest =>
    match raw with
    | ⟨row, none⟩ =>
      Row (DerivesWithin n) ts row rest ∧ ∀ e vs, ¬ Formal (DerivesWithin n) rest e vs
    | ⟨row, some body⟩ => ∃ vs, Row (DerivesWithin n) ts row (.arrow :: vs) ∧
      DerivesWithin n vs body rest := by
  refine (plainClause_sound hs (row_stops hs hc hf)).mono ?_
  rintro ts ⟨row, body⟩ rest h
  cases body with
  | none => exact h
  | some body =>
    obtain ⟨vs, hrow, hbody⟩ := h
    exact ⟨vs, hrow.1, hbody⟩

theorem clausesWithin_written (first : Option Nat) (k : Nat) :
    Sound (clausesWithin expr first k) fun ts raws rest =>
      Written (DerivesWithin n) first ts raws rest ∧ Lacks Lexeme.goesOn rest := by
  induction k generalizing first with
  | zero => exact .stuck
  | succ k ih =>
    refine (Sound.nextLexeme?.bind (R := fun l ts raws rest => l = ts.head? →
      Written (DerivesWithin n) first ts raws rest ∧ Lacks Lexeme.goesOn rest) fun l => ?_).mono ?_
    · split
      · refine (Sound.pure []).mono ?_
        rintro ts raws rest ⟨rfl, rfl⟩ hl
        refine ⟨.nil, ?_⟩
        rintro l us rfl
        cases hl
      · refine (Sound.pure []).mono ?_
        rintro ts raws rest ⟨rfl, rfl⟩ hl
        refine ⟨.nil, ?_⟩
        rintro l us rfl
        cases hl
        rfl
      · refine ((defaultClause_sound hs first).bind fun raw => (ih first).bind fun raws =>
          Sound.pure (raw :: raws)).mono ?_
        rintro ts _ rest ⟨_, us, ⟨arity, vs, body, rfl, rfl, hb, rfl⟩, raws, _, ⟨hw, hrest⟩, rfl,
          rfl⟩ -
        exact ⟨.default hb hw, hrest⟩
      · refine ((plainClause_stops hs hc hf).bind fun raw => (ih _).bind fun raws =>
          Sound.pure (raw :: raws)).mono ?_
        rintro ts _ rest ⟨raw, us, hraw, raws, _, ⟨hw, hrest⟩, rfl, rfl⟩ -
        exact ⟨hw.cons hraw fun _ => hrest, hrest⟩
    · rintro ts raws rest ⟨_, _, ⟨rfl, rfl⟩, h⟩
      exact h rfl

include hr

theorem clausesWithin_raises (first : Option Nat) (k : Nat) :
    Raises (clausesWithin expr first k) fun problem ts => ∃ raws us,
      Written (DerivesWithin n) first ts raws us ∧
        Halts (DerivesWithin n) problem (firstRow first raws) us := by
  induction k generalizing first with
  | zero => exact .stuck
  | succ k ih =>
    refine (Mild.nextLexeme?.bind_raises Sound.nextLexeme? (Y := fun l problem ts => l = ts.head? →
      ∃ raws us, Written (DerivesWithin n) first ts raws us ∧
        Halts (DerivesWithin n) problem (firstRow first raws) us) fun l => ?_).mono ?_
    · split
      · exact .pure []
      · exact .pure []
      · refine ((defaultClause_raises (P := DerivesWithin n) hr first).bind (defaultClause_sound hs first)
          fun raw => (ih first).bind_pure _).mono ?_
        rintro problem ts (h | ⟨_, us, ⟨arity, vs, body, rfl, rfl, hb, rfl⟩, raws, ws, hw, hh⟩) hl
        · obtain ⟨us, rfl⟩ : ∃ us, ts = .fatArrow :: us := by
            cases ts with
            | nil => cases hl
            | cons l us => cases hl; exact ⟨us, rfl⟩
          refine ⟨[], _, .nil, ?_⟩
          rw [firstRow, List.head?_nil, Option.map_none, Option.or_none]
          exact h ⟨us, rfl⟩
        · exact ⟨_, ws, .default hb hw, hh⟩
      · refine ((plainClause_raises hs hr).bind (plainClause_stops hs hc hf)
          fun raw => (ih _).bind_pure _).mono ?_
        rintro problem ts (⟨row, us, hrow, hbody⟩ | ⟨raw, us, hraw, raws, ws, hw, hh⟩) -
        · exact ⟨[], ts, .nil, .body hrow hbody⟩
        · refine ⟨raw :: raws, ws, hw.cons hraw hh.lacks_goesOn, ?_⟩
          rwa [← firstRow_cons]
    · rintro problem ts ⟨_, _, ⟨rfl, rfl⟩, h⟩
      exact h rfl

theorem pattern_raises : Raises (pattern expr) Refused := by
  refine ((Mild.word _).bind_raises (Sound.word _) fun brace =>
    (Raises.within (clausesWithin_raises hs hc hf hr none)).bind
      (Sound.within (clausesWithin_written hs hc hf none)) fun raws =>
        (Mild.word _).bind_raises (Sound.word _)
          (Y := fun _ problem _ => finishClauses raws = .error problem) fun _ => ?_).mono ?_
  · split
    · exact .pure _
    next problem hproblem =>
      exact (Raises.refuse rfl).mono fun _ _ h => h ▸ hproblem
  rintro problem ts ⟨_, us, ⟨-, rfl⟩, ⟨raws, vs, hw, hh⟩ |
    ⟨raws, _, ⟨hw, -⟩, _, vs, ⟨-, rfl⟩, hproblem⟩⟩
  · refine Halts.refused (hw.mono DerivesWithin.consumes (fun _ h => ⟨n, h⟩) (Nat.lt_succ_self _))
      (hh.mono DerivesWithin.consumes (fun _ h => ⟨n, h⟩) (Nat.lt_succ_self _))
  · exact ⟨[], _, rfl, .here, .finished
      (hw.mono DerivesWithin.consumes (fun _ h => ⟨n, h⟩) (Nat.lt_succ_self _)) hproblem⟩

omit hc hf in
theorem letIn_raises : Raises (letIn expr) Refused := by
  refine ((Mild.word _).bind_raises (Sound.word _) fun _ =>
    (Mild.named _ (Mild.accept _ _)).bind_raises (ident_sound.named _) fun x =>
      (Mild.word _).bind_raises (Sound.word _) fun _ => hr.bind hs fun value =>
        hr.bind_pure (bindFirst x value)).mono ?_
  rintro problem ts ⟨_, _, ⟨-, rfl⟩, x, _, rfl, _, us, ⟨-, rfl⟩, hvalue | ⟨value, vs, hv, hbody⟩⟩
  · exact hvalue.letValue x
  · exact hbody.letBody x ⟨n, hv⟩

theorem level_raises : Raises (level expr) Refused := by
  refine (Mild.nextLexeme?.bind_raises Sound.nextLexeme? (Y := fun _ => Refused) fun l => ?_).mono
    ?_
  · split
    · exact letIn_raises hs hr
    · exact pattern_raises hs hc hf hr
    · exact (application_mild hr).raises
    · exact (list_mild hr).raises
    · exact atom_mild.raises
  · rintro problem ts ⟨_, _, ⟨-, rfl⟩, h⟩
    exact h

end

/-- An error of the check is reported only where final places lead to a flawed brace. -/
theorem expressionWithin_raises (n : Nat) : Raises (expressionWithin n) Refused := by
  induction n with
  | zero => exact .stuck
  | succ n ih =>
    exact level_raises (expressionWithin_sound n) (expressionWithin_complete n)
      (expressionWithin_fails n) ih

theorem expression_raises : Raises expression Refused :=
  .within expressionWithin_raises

end Reader

end ClauseLang
