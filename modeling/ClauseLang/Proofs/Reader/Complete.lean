import ClauseLang.Proofs.Reader.Sound

/-!
Every phrase of the grammar is read. A choice that is tried first must fail where the phrase is of
the second sort, and a repetition must fail where it ends; the next lexeme decides, except between
the two sorts of brackets in a row.
-/

namespace ClauseLang

def Lexeme.opens : Lexeme → Bool
  | .letWord | .lbrace | .lparen | .lbracket => true
  | .ident _ | .operator _ | .label _ | .quoted _ | .integer _ => true
  | _ => false

def Lexeme.opensFormal : Lexeme → Bool
  | .lbracket | .ident _ | .label _ | .quoted _ | .integer _ => true
  | _ => false

def Lexeme.opensGuard : Lexeme → Bool
  | .colon | .doubleColon => true
  | _ => false

/-- A clause without a body is not followed by this lexeme. -/
def Lexeme.goesOn : Lexeme → Bool
  | .rbrace | .fatArrow => false
  | _ => true

namespace Reader

variable {α β : Type}

/-- Where there is a phrase, it is what the reader takes. -/
def Complete (p : Reader α) (P : Phrase α) : Prop :=
  ∀ s a rest, P s.ahead a rest → ∃ s', p s = .ok a s' ∧ s'.ahead = rest

def Fails (p : Reader α) (X : List Lexeme → Prop) : Prop :=
  ∀ s, X s.ahead → ∃ e s', p s = .error e s'

/-- The lexemes do not begin with one of the given kind. -/
def Lacks (kind : Lexeme → Bool) (ts : List Lexeme) : Prop :=
  ∀ l us, ts = l :: us → kind l = false

theorem lacks_cons {kind : Lexeme → Bool} {l : Lexeme} {ts : List Lexeme} (h : kind l = false) :
    Lacks kind (l :: ts) := by
  rintro _ _ ⟨rfl, rfl⟩
  exact h

theorem exists_ahead (ts : List Lexeme) : ∃ s : ReadState, s.ahead = ts :=
  ⟨.ofTokens (ts.map fun l => ⟨l, ⟨⟨0, 0⟩, ⟨0, 0⟩, ""⟩⟩), by
    simp [ReadState.ahead, ReadState.ofTokens, Function.comp_def]⟩

theorem nextLexeme?_bind {f : Option Lexeme → Reader β} (s : ReadState) :
    (nextLexeme? >>= f) s = f s.ahead.head? s := by
  rw [← s.map_lexeme_peek?]
  rfl

namespace Complete

variable {p q : Reader α} {P Q : Phrase α}

theorem unique (h : Complete p P) {ts rest rest' : List Lexeme} {a a' : α} (h₁ : P ts a rest)
    (h₂ : P ts a' rest') : a = a' ∧ rest = rest' := by
  obtain ⟨s, rfl⟩ := exists_ahead ts
  obtain ⟨s₁, hp₁, rfl⟩ := h _ _ _ h₁
  obtain ⟨s₂, hp₂, rfl⟩ := h _ _ _ h₂
  rw [hp₁] at hp₂
  cases hp₂
  exact ⟨rfl, rfl⟩

theorem mono (h : Complete p P) (hQP : ∀ ts a rest, Q ts a rest → P ts a rest) : Complete p Q :=
  fun _ _ _ hq => h _ _ _ (hQP _ _ _ hq)

theorem bind {f : α → Reader β} {R : α → Phrase β} (hp : Complete p P)
    (hf : ∀ a, Complete (f a) (R a)) : Complete (p >>= f) (Then P R) := by
  rintro s b rest ⟨a, us, ha, hb⟩
  obtain ⟨s', h, rfl⟩ := hp _ _ _ ha
  rw [bind_eq_ok h]
  exact hf a _ _ _ hb

theorem pure (a : α) : Complete (pure a) (Here a) := by
  rintro s _ _ ⟨rfl, rfl⟩
  exact ⟨s, rfl, rfl⟩

theorem map {f : α → β} (h : Complete p P) :
    Complete (f <$> p) fun ts b rest => ∃ a, P ts a rest ∧ b = f a := by
  rintro s _ rest ⟨a, ha, rfl⟩
  obtain ⟨s', hp, hr⟩ := h _ _ _ ha
  refine ⟨s', ?_, hr⟩
  change EStateM.map f p s = _
  simp [EStateM.map, hp]

theorem named (name : String) (h : Complete p P) : Complete (Reader.named name p) P := by
  intro s a rest ha
  obtain ⟨s', hp, hr⟩ := h _ _ _ ha
  exact ⟨s', by simp [Reader.named, hp], hr⟩

theorem attempt (h : Complete p P) :
    Complete (Reader.attempt p) fun ts r rest => ∃ a, r = some a ∧ P ts a rest := by
  rintro s _ rest ⟨a, rfl, ha⟩
  obtain ⟨s', hp, hr⟩ := h _ _ _ ha
  exact ⟨s', attempt_eq_ok hp, hr⟩

theorem attempt_none {X : List Lexeme → Prop} (hs : Sound p P) (hf : Fails p X) :
    Complete (Reader.attempt p) fun ts r rest => r = none ∧ rest = ts ∧ X ts := by
  rintro s _ _ ⟨rfl, rfl, hx⟩
  obtain ⟨e, s', hp⟩ := hf _ hx
  exact ⟨s'.restore s.index, attempt_eq_none hp, ReadState.ahead_restore (hs.error hp)⟩

theorem either_left (h : Complete p P) : Complete (Reader.either p q) P := by
  intro s a rest ha
  obtain ⟨s', hp, hr⟩ := h.attempt _ _ _ ⟨a, rfl, ha⟩
  exact ⟨s', bind_eq_ok hp, hr⟩

theorem either_right {R : Phrase α} {X : List Lexeme → Prop} (hs : Sound p R) (hf : Fails p X)
    (h : Complete q P) : Complete (Reader.either p q) fun ts a rest => X ts ∧ P ts a rest := by
  rintro s a rest ⟨hx, ha⟩
  obtain ⟨s', hp, hr⟩ := attempt_none hs hf _ _ _ ⟨rfl, rfl, hx⟩
  rw [← hr] at ha
  obtain ⟨s'', hq, rfl⟩ := h _ _ _ ha
  exact ⟨s'', (bind_eq_ok hp).trans hq, rfl⟩

theorem accept {read : Token → Option α} {expected : String} {l : Lexeme} {a : α}
    (hr : ∀ token : Token, token.lexeme = l → read token = some a) :
    Complete (Reader.accept read expected) fun ts b rest => ts = l :: rest ∧ b = a := by
  rintro s _ rest ⟨h, rfl⟩
  obtain ⟨token, hp, hl, ha⟩ := ReadState.peek?_of_ahead_eq_cons h
  exact ⟨s.advance, by simp [Reader.accept, hp, hr token hl], ha⟩

theorem word_bind {l : Lexeme} {f : Token → Reader α} (hf : ∀ token, Complete (f token) P) :
    Complete (word l >>= f) fun ts a rest => ∃ us, ts = l :: us ∧ P us a rest := by
  rintro s a rest ⟨us, h, ha⟩
  obtain ⟨token, hp, hl, rfl⟩ := ReadState.peek?_of_ahead_eq_cons h
  have hw : word l s = .ok token s.advance := by simp [word, Reader.accept, hp, hl]
  rw [bind_eq_ok hw]
  exact hf token _ _ _ ha

theorem manyWithin {R : Phrase α} {X : List Lexeme → Prop} (hs : Sound p R) (h : Complete p P)
    (hf : Fails p X) (hc : Consumes P) {s : ReadState} {as : List α} {rest : List Lexeme} {n : Nat}
    (hm : Many P s.ahead as rest) (hx : X rest) (hn : s.ahead.length < n) :
    ∃ s', Reader.manyWithin p n s = .ok as s' ∧ s'.ahead = rest := by
  induction n generalizing s as with
  | zero => omega
  | succ n ih =>
    cases hm with
    | nil =>
      obtain ⟨s', hp, hr⟩ := attempt_none hs hf _ _ _ ⟨rfl, rfl, hx⟩
      exact ⟨s', bind_eq_ok hp, hr⟩
    | cons ha hm =>
      obtain ⟨s', hp, rfl⟩ := h.attempt _ _ _ ⟨_, rfl, ha⟩
      obtain ⟨s'', hq, hr⟩ := ih hm (by have := hc ha; omega)
      exact ⟨s'', (bind_eq_ok hp).trans (bind_eq_ok hq), hr⟩

theorem many {R : Phrase α} {X : List Lexeme → Prop} (hs : Sound p R) (h : Complete p P)
    (hf : Fails p X) (hc : Consumes P) :
    Complete (Reader.many p) fun ts as rest => Many P ts as rest ∧ X rest := by
  rintro s as rest ⟨hm, hx⟩
  exact manyWithin hs h hf hc hm hx (by rw [s.length_ahead]; exact Nat.lt_succ_self _)

end Complete

namespace Fails

variable {p q : Reader α} {X : List Lexeme → Prop}

theorem mono {Y : List Lexeme → Prop} (h : Fails p X) (hYX : ∀ ts, Y ts → X ts) : Fails p Y :=
  fun _ hy => h _ (hYX _ hy)

theorem bind {f : α → Reader β} (h : Fails p X) : Fails (p >>= f) X := by
  intro s hx
  obtain ⟨e, s', hp⟩ := h _ hx
  exact ⟨e, s', bind_eq_error hp⟩

theorem map {f : α → β} (h : Fails p X) : Fails (f <$> p) X := by
  intro s hx
  obtain ⟨e, s', hp⟩ := h _ hx
  refine ⟨e, s', ?_⟩
  change EStateM.map f p s = _
  simp [EStateM.map, hp]

theorem named (name : String) (h : Fails p X) : Fails (Reader.named name p) X := by
  intro s hx
  obtain ⟨e, s', hp⟩ := h _ hx
  exact ⟨_, _, by simp only [Reader.named, hp]; rfl⟩

theorem either {P : Phrase α} (hs : Sound p P) (hp : Fails p X) (hq : Fails q X) :
    Fails (Reader.either p q) X := by
  intro s hx
  obtain ⟨s', ha, hr⟩ := Complete.attempt_none hs hp _ _ _ ⟨rfl, rfl, hx⟩
  obtain ⟨e, s'', h⟩ := hq s' (by rw [hr]; exact hx)
  exact ⟨e, s'', (bind_eq_ok ha).trans h⟩

theorem accept {read : Token → Option α} {expected : String}
    (hr : ∀ token us, X (token.lexeme :: us) → read token = none) :
    Fails (Reader.accept read expected) X := by
  intro s hx
  cases hp : s.peek? with
  | none => exact ⟨_, _, by simp only [Reader.accept, hp]; rfl⟩
  | some token =>
    rw [ReadState.ahead_of_peek?_eq_some hp] at hx
    exact ⟨_, _, by simp only [Reader.accept, hp, hr token _ hx]; rfl⟩

theorem word {l : Lexeme} : Fails (Reader.word l) fun ts => ∀ us, ts ≠ l :: us := by
  refine accept fun token us hx => ?_
  have hl : token.lexeme ≠ l := fun hl => hx us (by rw [hl])
  simp [hl]

end Fails

theorem Takes.complete {p : Reader α} {sort : String → Lexeme} {made : String → α}
    (h : Takes p sort fun _ => made) : Complete p fun ts a rest =>
      ∃ text, made text = a ∧ ts = sort text :: rest := by
  obtain ⟨read, expected, rfl, hread⟩ := h
  intro s a rest ⟨text, ha, hts⟩
  have htakes (token : Token) (hl : token.lexeme = sort text) : read token = some a :=
    (hread token a).2 ⟨text, hl, ha⟩
  exact Complete.accept htakes s a rest ⟨hts, rfl⟩

theorem Takes.fails {p : Reader α} {sort : String → Lexeme} {made : Token → String → α}
    (h : Takes p sort made) : Fails p fun ts => ∀ text us, ts ≠ sort text :: us := by
  obtain ⟨read, expected, rfl, hread⟩ := h
  refine Fails.accept fun token us hx => ?_
  rw [Option.eq_none_iff_forall_ne_some]
  intro a ha
  obtain ⟨text, hlexeme, -⟩ := (hread token a).1 ha
  exact hx text us (by rw [hlexeme])

theorem ident_complete : Complete ident fun ts x rest => ts = .ident x :: rest :=
  ident_takes.complete.mono fun _ x _ hts => ⟨x, rfl, hts⟩

theorem operator_complete : Complete operator fun ts x rest => ts = .operator x :: rest :=
  operator_takes.complete.mono fun _ x _ hts => ⟨x, rfl, hts⟩

theorem integer_fails : Fails integer fun ts => ∀ text us, ts ≠ .integer text :: us := by
  obtain ⟨numeral, hnumeral, hinteger⟩ := integer_eq
  rw [hinteger]
  exact Fails.bind hnumeral.fails

theorem literal_fails : Fails literal (Lacks Lexeme.opensFormal) := by
  refine Fails.either (label_sound.either string_sound)
    (Fails.either label_sound (label_takes.fails.mono ?_) (string_takes.fails.mono ?_))
    (integer_fails.mono ?_)
  all_goals
    intro ts h x us hts
    simpa [Lexeme.opensFormal] using h _ _ hts

theorem literal_complete :
    Complete literal fun ts e rest => ∃ l, Literal l e ∧ ts = l :: rest := by
  rintro s e rest ⟨l, hl, hs⟩
  have hls := label_sound.either string_sound
  cases hl with
  | label text =>
    exact label_takes.complete.either_left.either_left _ _ _ ⟨text, rfl, hs⟩
  | string text =>
    exact (Complete.either_right label_sound label_takes.fails string_takes.complete).either_left _ _ _
      ⟨by simp [hs], text, rfl, hs⟩
  | integer hn =>
    rename_i text n
    have hf : Fails (either label string) fun ts => ts = .integer text :: rest := by
      refine Fails.either label_sound (label_takes.fails.mono ?_) (string_takes.fails.mono ?_)
      all_goals simp
    have hc : Complete integer fun ts e rest => ts = .integer text :: rest ∧ e = .number n := by
      rintro s _ rest ⟨hs, rfl⟩
      obtain ⟨token, hp, hl, ha⟩ := ReadState.peek?_of_ahead_eq_cons hs
      refine ⟨s.advance, ?_, ha⟩
      simp only [integer, bind, EStateM.bind, accept, hp, hl, hn]
      rfl
    exact Complete.either_right hls hf hc _ _ _ ⟨hs, hs, rfl⟩

theorem name_sound : Sound (Expr.identifier <$> either ident operator) fun ts e rest =>
    ∃ x, (ts = .ident x :: rest ∨ ts = .operator x :: rest) ∧ e = .identifier x := by
  refine Sound.map (Sound.either ?_ ?_)
  · exact ident_sound.mono fun _ _ _ => .inl
  · exact operator_sound.mono fun _ _ _ => .inr

theorem name_complete : Complete (Expr.identifier <$> either ident operator) fun ts e rest =>
    ∃ x, (ts = .ident x :: rest ∨ ts = .operator x :: rest) ∧ e = .identifier x := by
  refine Complete.map ?_
  rintro s x rest (hs | hs)
  · exact ident_complete.either_left _ _ _ hs
  · exact Complete.either_right ident_sound ident_takes.fails operator_complete _ _ _ ⟨by simp [hs], hs⟩

theorem name_fails : Fails (Expr.identifier <$> either ident operator) fun ts =>
    ∀ x us, ts ≠ .ident x :: us ∧ ts ≠ .operator x :: us := by
  refine Fails.map (Fails.either ident_sound (ident_takes.fails.mono ?_) (operator_takes.fails.mono ?_))
  · exact fun ts h x us => (h x us).1
  · exact fun ts h x us => (h x us).2

theorem atom_complete_name : Complete atom fun ts e rest =>
    ∃ x, (ts = .ident x :: rest ∨ ts = .operator x :: rest) ∧ e = .identifier x :=
  name_complete.either_left.named _

theorem atom_complete_literal : Complete atom fun ts e rest => ∃ l, Literal l e ∧ ts = l :: rest := by
  refine Complete.named _ ((Complete.either_right name_sound name_fails literal_complete).mono ?_)
  rintro ts e rest ⟨l, hl, rfl⟩
  refine ⟨fun x us => ?_, l, hl, rfl⟩
  cases hl <;> simp

theorem atom_fails : Fails atom (Lacks Lexeme.opens) := by
  refine Fails.named _ (Fails.either name_sound (name_fails.mono ?_) (literal_fails.mono ?_))
  · intro ts h x us
    constructor
    · intro hts
      simpa [Lexeme.opens] using h _ _ hts
    · intro hts
      simpa [Lexeme.opens] using h _ _ hts
  · intro ts h l us hts
    have := h _ _ hts
    cases l <;> simp_all [Lexeme.opens, Lexeme.opensFormal]

theorem level_fails {expr : Reader Expr} : Fails (level expr) (Lacks Lexeme.opens) := by
  intro s hs
  obtain ⟨e, s', h⟩ := atom_fails s hs
  refine ⟨e, s', ?_⟩
  unfold level
  rw [nextLexeme?_bind]
  cases ha : s.ahead with
  | nil => exact h
  | cons l us =>
    have hl := hs l us ha
    cases l <;> first | exact h | exact absurd hl (by decide)

theorem expressionWithin_fails (n : Nat) : Fails (expressionWithin n) (Lacks Lexeme.opens) := by
  cases n with
  | zero => exact fun s _ => ⟨_, s, rfl⟩
  | succ n => exact level_fails

theorem DerivesWithin.opens {n : Nat} {l : Lexeme} {ts rest : List Lexeme} {e : Expr}
    (h : DerivesWithin n (l :: ts) e rest) : l.opens = true := by
  cases h.level with
  | literal hl => cases hl <;> rfl
  | _ => rfl

theorem Formal.opensFormal {P : Phrase Expr} {l : Lexeme} {ts rest : List Lexeme} {e : Expr}
    (h : Formal P (l :: ts) e rest) : l.opensFormal = true := by
  cases h with
  | simple h =>
    cases h with
    | literal h => cases h <;> rfl
    | _ => rfl
  | _ => rfl

theorem Row.opensFormal {P : Phrase Expr} {ts rest : List Lexeme} {row : List Expr}
    (h : Row P ts row rest) : ∃ l us, ts = l :: us ∧ l.opensFormal = true := by
  obtain ⟨h, -⟩ := h
  have hne : ts ≠ [] := by
    rintro rfl
    cases h with
    | simple h => cases h
  obtain ⟨l, us, rfl⟩ := List.exists_cons_of_ne_nil hne
  exact ⟨l, us, rfl, h.opensFormal⟩

section

variable {n : Nat} {expr : Reader Expr} (hs : Sound expr (DerivesWithin n))
  (hc : Complete expr (DerivesWithin n)) (hf : Fails expr (Lacks Lexeme.opens))
include hs hc hf

theorem many_complete : Complete (many expr) fun ts items rest =>
    Many (DerivesWithin n) ts items rest ∧ Lacks Lexeme.opens rest :=
  Complete.many hs hc hf DerivesWithin.consumes

theorem list_complete : Complete (list expr) fun ts e rest =>
    ∃ items us, e = .list items ∧ ts = .lbracket :: us ∧
      Many (DerivesWithin n) us items (.rbracket :: rest) := by
  refine (Complete.word_bind fun _ => (many_complete hs hc hf).bind fun items =>
    Complete.word_bind fun _ => Complete.pure (Expr.list items)).mono ?_
  rintro ts e rest ⟨items, us, rfl, rfl, hi⟩
  exact ⟨us, rfl, items, _, ⟨hi, lacks_cons rfl⟩, rest, rfl, rfl, rfl⟩

theorem application_complete : Complete (application expr) fun ts e rest =>
    ∃ items us, e = .application items ∧ ts = .lparen :: us ∧
      Many (DerivesWithin n) us items (.rparen :: rest) := by
  refine (Complete.word_bind fun _ => (many_complete hs hc hf).bind fun items =>
    Complete.word_bind fun _ => Complete.pure (Expr.application items)).mono ?_
  rintro ts e rest ⟨items, us, rfl, rfl, hi⟩
  exact ⟨us, rfl, items, _, ⟨hi, lacks_cons rfl⟩, rest, rfl, rfl, rfl⟩

omit hs hf in
theorem letIn_complete : Complete (letIn expr) fun ts e rest =>
    ∃ x value body us vs, e = bindFirst x value body ∧ ts = .letWord :: .ident x :: .equals :: us ∧
      DerivesWithin n us value vs ∧ DerivesWithin n vs body rest := by
  refine (Complete.word_bind fun _ => (ident_complete.named _).bind fun x =>
    Complete.word_bind fun _ => hc.bind fun value => hc.bind fun body =>
      Complete.pure (bindFirst x value body)).mono ?_
  rintro ts e rest ⟨x, value, body, us, vs, rfl, rfl, hv, hb⟩
  exact ⟨_, rfl, x, _, rfl, us, rfl, value, vs, hv, body, rest, hb, rfl, rfl⟩

/-- Where a bracketed list of expressions begins, no cons does: a head would take up the first
expression, and no colon follows that. -/
theorem Simple.span {ts us : List Lexeme} {e : Expr} (h : Simple (DerivesWithin n) ts e us) :
    ∀ {e' vs}, DerivesWithin n ts e' vs → us = vs := by
  induction h with
  | name x =>
    intro e' vs h'
    cases h'.level with
    | ident => rfl
    | literal hl => cases hl
  | literal hl =>
    intro e' vs h'
    cases h'.level with
    | literal => rfl
    | _ => cases hl
  | cons hh _ ih _ =>
    intro e' vs h'
    cases h'.level with
    | literal hl => cases hl
    | list hm =>
      cases hm with
      | nil =>
        cases hh with
        | literal hl => cases hl
      | cons ha hm =>
        cases ih ha
        cases hm with
        | cons hb _ => exact absurd hb.opens (by decide)
  | list hm =>
    intro e' vs h'
    cases h'.level with
    | literal hl => cases hl
    | list hm' =>
      have h := (many_complete hs hc hf).unique ⟨hm, lacks_cons rfl⟩ ⟨hm', lacks_cons rfl⟩
      exact (List.cons.inj h.2).2

theorem cons_fails {simple : Reader Expr} (hp : Sound simple (Simple (DerivesWithin n))) :
    Fails (cons simple) fun ts => ∃ items us rest, ts = .lbracket :: us ∧
      Many (DerivesWithin n) us items (.rbracket :: rest) := by
  rintro s ⟨items, us, rest, hts, hm⟩
  cases h : cons simple s with
  | error e s' => exact ⟨e, s', rfl⟩
  | ok e s' =>
    obtain ⟨-, head, tail, us', vs, -, hts', hh, -⟩ := (cons_sound hp).ok h
    rw [hts] at hts'
    cases hts'
    cases hm with
    | nil =>
      cases hh with
      | literal hl => cases hl
    | cons ha hm =>
      cases hh.span hs hc hf ha
      cases hm with
      | cons hb _ => exact absurd hb.opens (by decide)

theorem bracketed_complete {simple : Reader Expr} (hp : Sound simple (Simple (DerivesWithin n))) :
    Complete (either (cons simple) (list expr)) fun ts e rest =>
      ∃ items us, e = .list items ∧ ts = .lbracket :: us ∧
        Many (DerivesWithin n) us items (.rbracket :: rest) := by
  refine (Complete.either_right (cons_sound hp) (cons_fails hs hc hf hp)
    (list_complete hs hc hf)).mono ?_
  rintro ts e rest ⟨items, us, rfl, rfl, hm⟩
  exact ⟨⟨items, us, rest, rfl, hm⟩, items, us, rfl, rfl, hm⟩

omit hs hc hf in
theorem cons_complete {simple : Reader Expr} {k : Nat}
    (hp : Complete simple fun ts e rest => ts.length < k ∧ Simple (DerivesWithin n) ts e rest) :
    Complete (cons simple) fun ts e rest => ∃ head tail us vs, e = .cons head tail ∧
      ts = .lbracket :: us ∧ us.length < k ∧ Simple (DerivesWithin n) us head (.colon :: vs) ∧
        Simple (DerivesWithin n) vs tail (.rbracket :: rest) := by
  refine (Complete.word_bind fun _ => hp.bind fun head => Complete.word_bind fun _ =>
    hp.bind fun tail => Complete.word_bind fun _ => Complete.pure (Expr.cons head tail)).mono ?_
  rintro ts e rest ⟨head, tail, us, vs, rfl, rfl, hk, hh, ht⟩
  have hlt := Simple.consumes DerivesWithin.consumes hh
  simp only [List.length_cons] at hlt
  exact ⟨us, rfl, head, _, ⟨hk, hh⟩, vs, rfl, tail, _, ⟨by omega, ht⟩, rest, rfl, rfl, rfl⟩

theorem simpleWithin_complete (k : Nat) : Complete (simpleWithin expr k) fun ts e rest =>
    ts.length < k ∧ Simple (DerivesWithin n) ts e rest := by
  induction k with
  | zero => exact fun s e rest h => absurd h.1 (Nat.not_lt_zero _)
  | succ k ih =>
    rintro s e rest ⟨hk, h⟩
    rw [simpleWithin_succ, simpleStep, nextLexeme?_bind]
    generalize ha : s.ahead = ts at h hk
    have hp := simpleWithin_sound hs k
    cases h with
    | name x => exact ident_complete.map _ _ _ ⟨x, ha, rfl⟩
    | literal hl =>
      have hr := literal_complete s e rest ⟨_, hl, ha⟩
      cases hl <;> exact hr
    | list hm => exact bracketed_complete hs hc hf hp _ _ _ ⟨_, _, rfl, ha, hm⟩
    | cons hh ht =>
      exact (cons_complete ih).either_left _ _ _
        ⟨_, _, _, _, rfl, ha, Nat.lt_of_succ_lt_succ hk, hh, ht⟩

theorem simple_complete : Complete (simple expr) (Simple (DerivesWithin n)) := by
  intro s e rest h
  refine simpleWithin_complete hs hc hf (s.remaining + 1) s e rest ⟨?_, h⟩
  rw [s.length_ahead]
  exact Nat.lt_succ_self _

omit hc hf in
theorem condition_fails : Fails (condition expr) (Lacks Lexeme.opensGuard) := by
  have hsound (l : Lexeme) (constant : Bool) :
      Sound (do let _ ← word l; return (← expr, constant)) fun _ _ _ => True :=
    ((Sound.word l).bind fun _ => hs.bind fun e => Sound.pure (e, constant)).mono
      fun _ _ _ _ => trivial
  refine Fails.either (hsound _ _) (Fails.word.bind.mono ?_) (Fails.word.bind.mono ?_)
  all_goals
    intro ts h us hts
    simpa [Lexeme.opensGuard] using h _ _ hts

omit hf in
theorem condition_complete : Complete (condition expr) fun ts r rest =>
    ∃ us, ts = (if r.2 then .doubleColon else .colon) :: us ∧ DerivesWithin n us r.1 rest := by
  have hp (l : Lexeme) (constant : Bool) :
      Complete (do let _ ← word l; return (← expr, constant)) fun ts r rest =>
        ∃ us, ts = l :: us ∧ r.2 = constant ∧ DerivesWithin n us r.1 rest := by
    refine (Complete.word_bind fun _ => hc.bind fun e => Complete.pure (e, constant)).mono ?_
    rintro ts ⟨e, _⟩ rest ⟨us, rfl, rfl, he⟩
    exact ⟨us, rfl, e, rest, he, rfl, rfl⟩
  have hsound : Sound (do let _ ← word .colon; return (← expr, false)) fun _ _ _ => True :=
    ((Sound.word _).bind fun _ => hs.bind fun e => Sound.pure (e, false)).mono
      fun _ _ _ _ => trivial
  rintro s ⟨e, constant⟩ rest ⟨us, hts, he⟩
  cases constant with
  | false => exact (hp _ _).either_left _ _ _ ⟨us, hts, rfl, he⟩
  | true =>
    replace hts : s.ahead = .doubleColon :: us := hts
    exact Complete.either_right hsound Fails.word.bind (hp _ _) _ _ _
      ⟨by simp [hts], us, hts, rfl, he⟩

omit hf in
theorem guardedName_complete : Complete (guardedName expr) fun ts e rest =>
    ∃ (x : String) (cond : Expr) (constant : Bool) (us : List Lexeme),
      ts = .ident x :: (if constant then .doubleColon else .colon) :: us ∧
        DerivesWithin n us cond rest ∧ e = .guarded (.identifier x) cond constant := by
  refine (ident_complete.bind fun x => (condition_complete hs hc).attempt.bind
    (R := fun r ts e rest => rest = ts ∧ ∃ cond constant, r = some (cond, constant) ∧
      e = .guarded (.identifier x) cond constant) ?_).mono ?_
  · rintro _ s _ _ ⟨rfl, cond, constant, rfl, rfl⟩
    exact ⟨s, rfl, rfl⟩
  · rintro ts e rest ⟨x, cond, constant, us, rfl, hd, rfl⟩
    exact ⟨x, _, rfl, some (cond, constant), rest, ⟨_, rfl, us, rfl, hd⟩, rfl, cond, constant,
      rfl, rfl⟩

omit hc hf in
theorem guardedName_complete_bare : Complete (guardedName expr) fun ts e rest =>
    ∃ x, ts = .ident x :: rest ∧ e = .identifier x ∧ Lacks Lexeme.opensGuard rest := by
  refine (ident_complete.bind fun x =>
    (Complete.attempt_none (condition_sound hs) (condition_fails hs)).bind
      (R := fun r ts e rest => rest = ts ∧ r = none ∧ e = .identifier x) ?_).mono ?_
  · rintro _ s _ _ ⟨rfl, rfl, rfl⟩
    exact ⟨s, rfl, rfl⟩
  · rintro ts e rest ⟨x, rfl, rfl, hg⟩
    exact ⟨x, rest, rfl, none, rest, ⟨rfl, rfl, hg⟩, rfl, rfl, rfl⟩

theorem formal_complete : Complete (formal expr) fun ts e rest =>
    Formal (DerivesWithin n) ts e rest ∧ Lacks Lexeme.opensGuard rest := by
  rintro s e rest ⟨h, hg⟩
  unfold formal
  rw [nextLexeme?_bind]
  generalize ha : s.ahead = ts at h
  cases h with
  | guarded x he => exact guardedName_complete hs hc _ _ _ ⟨x, _, false, _, ha, he, rfl⟩
  | constant x he => exact guardedName_complete hs hc _ _ _ ⟨x, _, true, _, ha, he, rfl⟩
  | simple h =>
    cases h with
    | name x => exact guardedName_complete_bare hs _ _ _ ⟨x, ha, rfl, hg⟩
    | literal hl =>
      have hr := literal_complete s e rest ⟨_, hl, ha⟩
      cases hl <;> exact hr
    | list hm => exact bracketed_complete hs hc hf (simple_sound hs) _ _ _ ⟨_, _, rfl, ha, hm⟩
    | cons hh ht =>
      have hp : Complete (simple expr) fun ts e rest =>
          ts.length < s.ahead.length ∧ Simple (DerivesWithin n) ts e rest :=
        (simple_complete hs hc hf).mono fun _ _ _ h => h.2
      exact (cons_complete hp).either_left _ _ _ ⟨_, _, _, _, rfl, ha, by simp [ha], hh, ht⟩

omit hs hc hf in
theorem formal_fails : Fails (formal expr) (Lacks Lexeme.opensFormal) := by
  intro s hs
  obtain ⟨e, s', h⟩ := literal_fails s hs
  refine ⟨e, s', ?_⟩
  unfold formal
  rw [nextLexeme?_bind]
  cases ha : s.ahead with
  | nil => exact h
  | cons l us =>
    have hl := hs l us ha
    cases l <;> first | exact h | simp [Lexeme.opensFormal] at hl

omit hs hc hf in
/-- No formal in a row is followed by a guard that it does not have. -/
theorem Many.lacks_opensGuard {P : Phrase Expr} {ts rest : List Lexeme} {row : List Expr}
    (h : Many (Formal P) ts row rest) (hr : Lacks Lexeme.opensGuard rest) :
    Lacks Lexeme.opensGuard ts ∧
      Many (fun ts e us => Formal P ts e us ∧ Lacks Lexeme.opensGuard us) ts row rest := by
  induction h with
  | nil => exact ⟨hr, .nil⟩
  | cons h _ ih =>
    obtain ⟨hu, hm⟩ := ih hr
    refine ⟨?_, .cons ⟨h, hu⟩ hm⟩
    rintro l us rfl
    have := h.opensFormal
    cases l <;> simp_all [Lexeme.opensFormal, Lexeme.opensGuard]

theorem row_complete : Complete (named "match" (many1 (formal expr))) fun ts row rest =>
    Row (DerivesWithin n) ts row rest ∧ Lacks Lexeme.opensFormal rest ∧
      Lacks Lexeme.opensGuard rest := by
  have hf' := formal_complete hs hc hf
  have hm := Complete.many (formal_sound hs) hf' formal_fails
    (fun h => Formal.consumes DerivesWithin.consumes h.1)
  refine ((hf'.bind fun first => hm.bind fun others =>
    Complete.pure (first :: others)).mono ?_).named _
  rintro ts row rest ⟨⟨h, hr⟩, ho, hg⟩
  obtain ⟨hu, hr⟩ := hr.lacks_opensGuard hg
  exact ⟨_, _, ⟨h, hu⟩, _, _, ⟨hr, ho⟩, rfl, rfl⟩

theorem plainClause_complete : Complete (plainClause expr) fun ts raw rest =>
    ∃ clause, Plain (DerivesWithin n) ts clause rest ∧ raw = ⟨clause.row, some clause.body⟩ := by
  rintro s _ rest ⟨_, ⟨hr, hb⟩, rfl⟩
  rename_i us row body
  obtain ⟨s', hp, ha⟩ := row_complete hs hc hf _ _ _ ⟨hr, lacks_cons rfl, lacks_cons rfl⟩
  unfold plainClause
  rw [bind_eq_ok hp, nextLexeme?_bind, ha]
  exact (Complete.word_bind fun _ => hc.bind fun body =>
    Complete.pure (RawClause.mk row (some body))) _ _ _ ⟨us, ha, body, rest, hb, rfl, rfl⟩

theorem plainClause_complete_bare : Complete (plainClause expr) fun ts raw rest =>
    ∃ row, raw = ⟨row, none⟩ ∧ Row (DerivesWithin n) ts row rest ∧ Lacks Lexeme.goesOn rest := by
  rintro s _ rest ⟨row, rfl, hr, hl⟩
  have hkind (kind : Lexeme → Bool) (hbrace : kind .rbrace = false) (harrow : kind .fatArrow = false) :
      Lacks kind rest := by
    intro l us hrest
    have hl := hl l us hrest
    cases l <;> first | assumption | cases hl
  obtain ⟨s', hp, ha⟩ := row_complete hs hc hf _ _ _ ⟨hr, hkind _ rfl rfl, hkind _ rfl rfl⟩
  unfold plainClause
  rw [bind_eq_ok hp, nextLexeme?_bind, ha]
  cases rest with
  | nil => exact ⟨s', rfl, ha⟩
  | cons l us =>
    have hl := hl l us rfl
    cases l <;> first | exact ⟨s', rfl, ha⟩ | cases hl

omit hs hf in
theorem defaultClause_complete (arity : Nat) :
    Complete (defaultClause expr (some arity)) fun ts raw rest => ∃ us body,
      ts = .fatArrow :: us ∧ DerivesWithin n us body rest ∧
        raw = ⟨openRow arity, some body⟩ := by
  refine (Complete.word_bind fun _ => hc.bind fun body =>
    Complete.pure (RawClause.mk (openRow arity) (some body))).mono ?_
  rintro ts raw rest ⟨us, body, rfl, hb, rfl⟩
  exact ⟨us, rfl, body, rest, hb, rfl, rfl⟩

omit hs hc hf in
theorem clausesWithin_opensFormal {s : ReadState} {l : Lexeme} {us : List Lexeme}
    (ha : s.ahead = l :: us) (hl : l.opensFormal = true) (first : Option Nat) (k : Nat) :
    clausesWithin expr first (k + 1) s = (do
      let raw ← plainClause expr
      return raw :: (← clausesWithin expr (first.or (some raw.row.length)) k) :
        Reader (List RawClause)) s := by
  rw [clausesWithin, nextLexeme?_bind, ha]
  cases l <;> first | rfl | simp [Lexeme.opensFormal] at hl

theorem clausesWithin_complete (arity k : Nat) :
    Complete (clausesWithin expr (some arity) k) fun ts raws rest => ts.length < k ∧
      ∃ clauses us, rest = .rbrace :: us ∧ Others (DerivesWithin n) arity ts clauses rest ∧
        raws = clauses.map fun clause => ⟨clause.row, some clause.body⟩ := by
  induction k with
  | zero => exact fun s raws rest h => absurd h.1 (Nat.not_lt_zero _)
  | succ k ih =>
    rintro s _ _ ⟨hk, clauses, us, rfl, h, rfl⟩
    generalize ha : s.ahead = ts at h hk
    cases h with
    | nil =>
      rw [clausesWithin, nextLexeme?_bind, ha]
      exact ⟨s, rfl, ha⟩
    | default hb ho =>
      have hlt := DerivesWithin.consumes hb
      simp only [List.length_cons] at hk
      rw [clausesWithin, nextLexeme?_bind, ha]
      exact ((defaultClause_complete hc arity).bind fun raw => ih.bind fun raws =>
        Complete.pure (raw :: raws)) _ _ _
          ⟨_, _, ⟨_, _, ha, hb, rfl⟩, _, _, ⟨by omega, _, us, rfl, ho, rfl⟩, rfl, rfl⟩
    | plain hp hn ho =>
      have hlt := Plain.consumes DerivesWithin.consumes hp
      obtain ⟨hr, -⟩ := id hp
      obtain ⟨l, vs, rfl, hl⟩ := hr.opensFormal
      rw [clausesWithin_opensFormal ha hl]
      exact ((plainClause_complete hs hc hf).bind fun raw => ih.bind fun raws =>
        Complete.pure (raw :: raws)) s _ _
          ⟨_, _, ⟨_, by rw [ha]; exact hp, rfl⟩, _, _, ⟨by omega, _, us, rfl, ho, rfl⟩, rfl, rfl⟩

theorem clauses_complete : Complete (within (clausesWithin expr none)) fun ts raws rest =>
    ∃ clause clauses us vs, rest = .rbrace :: us ∧ Plain (DerivesWithin n) ts clause vs ∧
      Others (DerivesWithin n) clause.row.length vs clauses rest ∧
        raws = (clause :: clauses).map fun clause => ⟨clause.row, some clause.body⟩ := by
  rintro s _ _ ⟨clause, clauses, us, vs, rfl, hp, ho, rfl⟩
  have hlt := Plain.consumes DerivesWithin.consumes hp
  rw [s.length_ahead] at hlt
  obtain ⟨hr, -⟩ := id hp
  obtain ⟨l, ws, ha, hl⟩ := hr.opensFormal
  rw [within, clausesWithin_opensFormal ha hl]
  exact ((plainClause_complete hs hc hf).bind fun raw =>
    (clausesWithin_complete hs hc hf _ _).bind fun raws => Complete.pure (raw :: raws)) s _ _
      ⟨_, _, ⟨_, hp, rfl⟩, _, _, ⟨hlt, clauses, us, rfl, ho, rfl⟩, rfl, rfl⟩

theorem clauses_complete_test : Complete (within (clausesWithin expr none)) fun ts raws rest =>
    ∃ row us, rest = .rbrace :: us ∧ Row (DerivesWithin n) ts row rest ∧
      raws = [⟨row, none⟩] := by
  rintro s _ _ ⟨row, us, rfl, hr, rfl⟩
  have hlt := Row.consumes DerivesWithin.consumes hr
  rw [s.length_ahead] at hlt
  obtain ⟨l, ws, ha, hl⟩ := hr.opensFormal
  rw [within, clausesWithin_opensFormal ha hl]
  exact ((plainClause_complete_bare hs hc hf).bind fun raw =>
    (clausesWithin_complete hs hc hf _ _).bind fun raws => Complete.pure (raw :: raws)) s _ _
      ⟨_, _, ⟨row, rfl, hr, lacks_cons rfl⟩, _, _, ⟨hlt, [], us, rfl, .nil, rfl⟩, rfl, rfl⟩

omit hs hc hf in
theorem finishClauses_map {clause : Clause} {clauses : List Clause}
    (h : ∀ c ∈ clauses, c.row.length = clause.row.length) :
    finishClauses ((clause :: clauses).map fun c => ⟨c.row, some c.body⟩) =
      .ok (clause :: clauses) := by
  have hm : ((clause :: clauses).map fun c => (⟨c.row, some c.body⟩ : RawClause)).map
      RawClause.toClause = clause :: clauses := by
    rw [List.map_map]
    exact List.map_id'' (fun c => by cases c; rfl) _
  have hc : commonArity (clause :: clauses) = .ok clause.row.length :=
    commonArity_eq_ok_iff.2 ⟨rfl, by simpa [arity] using h⟩
  have hb : ((clause :: clauses).map fun c => (⟨c.row, some c.body⟩ : RawClause)).any
      (·.body.isNone) = false := by
    simp
  unfold finishClauses
  split
  next he => simp at he
  next he => simp at he
  next => rw [hb, hm, hc]; rfl

omit hs hc hf in
theorem Others.row_length {P : Phrase Expr} {arity : Nat} {ts rest : List Lexeme}
    {clauses : List Clause} (h : Others P arity ts clauses rest) :
    ∀ c ∈ clauses, c.row.length = arity := by
  induction h with
  | nil => simp
  | plain _ ha _ ih => simpa [ha] using ih
  | default _ _ ih => simpa [Clause.row, openRow] using ih

theorem pattern_complete : Complete (pattern expr) fun ts e rest => ∃ us clause clauses vs,
    ts = .lbrace :: us ∧ Plain (DerivesWithin n) us clause vs ∧
      Others (DerivesWithin n) clause.row.length vs clauses (.rbrace :: rest) ∧
        e = .pattern (clause :: clauses) [] := by
  refine (Complete.word_bind fun brace => (clauses_complete hs hc hf).bind fun raws =>
    Complete.word_bind (P := fun ts e rest => rest = ts ∧ ∃ clauses,
      finishClauses raws = .ok clauses ∧ e = Expr.pattern clauses []) fun _ => ?_).mono ?_
  · rintro s _ _ ⟨rfl, clauses, hf, rfl⟩
    rw [hf]
    exact ⟨s, rfl, rfl⟩
  · rintro ts e rest ⟨us, clause, clauses, vs, rfl, hp, ho, rfl⟩
    exact ⟨us, rfl, _, _, ⟨clause, clauses, rest, vs, rfl, hp, ho, rfl⟩, rest, rfl, rfl, _,
      finishClauses_map ho.row_length, rfl⟩

theorem pattern_complete_test : Complete (pattern expr) fun ts e rest => ∃ us row,
    ts = .lbrace :: us ∧ Row (DerivesWithin n) us row (.rbrace :: rest) ∧
      e = .pattern [.mk row .truthy, .mk (openRow row.length) .falsy] [] := by
  refine (Complete.word_bind fun brace => (clauses_complete_test hs hc hf).bind fun raws =>
    Complete.word_bind (P := fun ts e rest => rest = ts ∧ ∃ clauses,
      finishClauses raws = .ok clauses ∧ e = Expr.pattern clauses []) fun _ => ?_).mono ?_
  · rintro s _ _ ⟨rfl, clauses, hf, rfl⟩
    rw [hf]
    exact ⟨s, rfl, rfl⟩
  · rintro ts e rest ⟨us, row, rfl, hr, rfl⟩
    exact ⟨us, rfl, _, _, ⟨row, rest, rfl, hr, rfl⟩, rest, rfl, rfl, _, rfl, rfl⟩

theorem level_complete : Complete (level expr) (Level (DerivesWithin n)) := by
  intro s e rest h
  unfold level
  rw [nextLexeme?_bind]
  generalize ha : s.ahead = ts at h
  cases h with
  | ident x => exact atom_complete_name _ _ _ ⟨x, .inl ha, rfl⟩
  | operator x => exact atom_complete_name _ _ _ ⟨x, .inr ha, rfl⟩
  | literal hl =>
    have hr := atom_complete_literal s e rest ⟨_, hl, ha⟩
    cases hl <;> exact hr
  | letIn x hv hb => exact letIn_complete hc _ _ _ ⟨x, _, _, _, _, rfl, ha, hv, hb⟩
  | application hm => exact application_complete hs hc hf _ _ _ ⟨_, _, rfl, ha, hm⟩
  | list hm => exact list_complete hs hc hf _ _ _ ⟨_, _, rfl, ha, hm⟩
  | test hr => exact pattern_complete_test hs hc hf _ _ _ ⟨_, _, ha, hr, rfl⟩
  | pattern hp ho => exact pattern_complete hs hc hf _ _ _ ⟨_, _, _, _, ha, hp, ho, rfl⟩

end

theorem expressionWithin_complete (n : Nat) :
    Complete (expressionWithin n) (DerivesWithin n) := by
  induction n with
  | zero => exact fun _ _ _ h => h.elim
  | succ n ih => exact level_complete (expressionWithin_sound n) ih (expressionWithin_fails n)

theorem expression_complete : Complete expression Derives := by
  intro s e rest h
  refine expressionWithin_complete _ s e rest (h.within ?_)
  rw [s.length_ahead]
  exact Nat.lt_succ_self _

/-- A phrase that takes up all lexemes is read as a program. -/
theorem ofTokens_of_derives {tokens : List Token} {e : Expr}
    (h : Derives (tokens.map Token.lexeme) e []) : ofTokens program tokens = .ok e := by
  obtain ⟨s', hs, hr⟩ := expression_complete (ReadState.ofTokens tokens) e [] (by
    simpa [ReadState.ahead, ReadState.ofTokens] using h)
  have hn : s'.hasNext = false := by
    have hl := s'.length_ahead
    rw [hr] at hl
    simp only [List.length_nil, ReadState.remaining] at hl
    simp only [ReadState.hasNext, decide_eq_false_iff_not]
    omega
  simp [ofTokens, program, hs, hn]

/-- Reading accepts exactly the phrases of the grammar. -/
theorem ofTokens_program_eq_ok_iff {tokens : List Token} {e : Expr} :
    ofTokens program tokens = .ok e ↔ Derives (tokens.map Token.lexeme) e [] :=
  ⟨derives_of_ofTokens, ofTokens_of_derives⟩

/-- A program is read just when its lexemes are a phrase of the grammar. There is never more than
one phrase at a place, whatever comes after it. -/
theorem program_reads_unique_phrase (tokens : List Token) (e : Expr) :
    (ofTokens program tokens = .ok e ↔ Derives (tokens.map Token.lexeme) e []) ∧
      ∀ e₁ e₂ rest₁ rest₂, Derives (tokens.map Token.lexeme) e₁ rest₁ →
        Derives (tokens.map Token.lexeme) e₂ rest₂ → e₁ = e₂ ∧ rest₁ = rest₂ :=
  ⟨ofTokens_program_eq_ok_iff, fun _ _ _ _ h₁ h₂ => expression_complete.unique h₁ h₂⟩

end Reader

end ClauseLang
