import ClauseLang.Proofs.Reader.Compositional
import ClauseLang.Proofs.Reader.Derivation

/-!
What is read is a phrase of the grammar. Each reader is matched with the sort of phrase that it
reads; a failing reader leaves the tokens alone, so that a choice can start again.
-/

namespace ClauseLang

def ReadState.ahead (s : ReadState) : List Lexeme :=
  (s.tokens.toList.drop s.index).map Token.lexeme

namespace ReadState

variable {s s' : ReadState}

theorem length_ahead (s : ReadState) : s.ahead.length = s.remaining := by
  simp [ahead, remaining]

theorem ahead_of_peek?_eq_none (h : s.peek? = none) : s.ahead = [] := by
  simp only [peek?, Array.getElem?_eq_none_iff] at h
  simp [ahead, h]

theorem ahead_of_peek?_eq_some {token : Token} (h : s.peek? = some token) :
    s.ahead = token.lexeme :: s.advance.ahead := by
  obtain ⟨hi, ht⟩ := Array.getElem?_eq_some_iff.1 h
  have hd : s.tokens.toList.drop s.index = token :: s.tokens.toList.drop (s.index + 1) := by
    rw [List.drop_eq_getElem_cons (by simpa using hi), Array.getElem_toList, ht]
  simp [ahead, advance, hasNext, hi, hd]

theorem map_lexeme_peek? (s : ReadState) : s.peek?.map Token.lexeme = s.ahead.head? := by
  cases h : s.peek? with
  | none => simp [ahead_of_peek?_eq_none h]
  | some token => simp [ahead_of_peek?_eq_some h]

theorem peek?_of_ahead_eq_cons {l : Lexeme} {ts : List Lexeme} (h : s.ahead = l :: ts) :
    ∃ token, s.peek? = some token ∧ token.lexeme = l ∧ s.advance.ahead = ts := by
  cases hp : s.peek? with
  | none => simp [ahead_of_peek?_eq_none hp] at h
  | some token =>
    rw [ahead_of_peek?_eq_some hp] at h
    simp only [List.cons.injEq] at h
    exact ⟨token, rfl, h.1, h.2⟩

@[simp] theorem tokens_advance (s : ReadState) : s.advance.tokens = s.tokens := by
  unfold advance
  split <;> rfl

@[simp] theorem tokens_record (s : ReadState) (e : ParseError) :
    (s.record e).tokens = s.tokens := by
  unfold record
  split
  · rfl
  · split
    · rfl
    · split <;> rfl

theorem ahead_restore (h : s'.tokens = s.tokens) : (s'.restore s.index).ahead = s.ahead := by
  simp [ahead, restore, h]

end ReadState

namespace Reader

variable {α β : Type}

def Sound (p : Reader α) (P : Phrase α) : Prop :=
  ∀ s, match p s with
    | .ok a s' => s'.tokens = s.tokens ∧ P s.ahead a s'.ahead
    | .error _ s' => s'.tokens = s.tokens

/-- One phrase and then another that depends on it. -/
def Then (P : Phrase α) (Q : α → Phrase β) : Phrase β := fun ts b rest =>
  ∃ a us, P ts a us ∧ Q a us b rest

def Here (a : α) : Phrase α := fun ts b rest =>
  b = a ∧ rest = ts

def Word (l : Lexeme) : Phrase Token := fun ts token rest =>
  token.lexeme = l ∧ ts = l :: rest

namespace Sound

variable {p q : Reader α} {P Q : Phrase α}

theorem ok (h : Sound p P) {s s' : ReadState} {a : α} (hp : p s = .ok a s') :
    s'.tokens = s.tokens ∧ P s.ahead a s'.ahead := by
  have := h s
  rwa [hp] at this

theorem error (h : Sound p P) {s s' : ReadState} {e : ParseError} (hp : p s = .error e s') :
    s'.tokens = s.tokens := by
  have := h s
  rwa [hp] at this

theorem mono (h : Sound p P) (hPQ : ∀ ts a rest, P ts a rest → Q ts a rest) : Sound p Q := by
  intro s
  have := h s
  cases hp : p s with
  | ok a s' => rw [hp] at this; exact ⟨this.1, hPQ _ _ _ this.2⟩
  | error e s' => rw [hp] at this; exact this

theorem bind {f : α → Reader β} {R : α → Phrase β} (hp : Sound p P)
    (hf : ∀ a, Sound (f a) (R a)) : Sound (p >>= f) (Then P R) := by
  intro s
  cases h : p s with
  | error e s' =>
    rw [bind_eq_error h]
    exact hp.error h
  | ok a s' =>
    obtain ⟨ht, ha⟩ := hp.ok h
    rw [bind_eq_ok h]
    cases h' : f a s' with
    | error e s'' => exact ((hf a).error h').trans ht
    | ok b s'' =>
      obtain ⟨ht', hb⟩ := (hf a).ok h'
      exact ⟨ht'.trans ht, a, s'.ahead, ha, hb⟩

theorem pure (a : α) : Sound (pure a) (Here a) :=
  fun _ => ⟨rfl, rfl, rfl⟩

theorem map {f : α → β} (hp : Sound p P) :
    Sound (f <$> p) (fun ts b rest => ∃ a, P ts a rest ∧ b = f a) := by
  intro s
  change match EStateM.map f p s with | .ok a s' => _ | .error _ s' => _
  simp only [EStateM.map]
  cases h : p s with
  | error e s' => exact hp.error h
  | ok a s' => exact ⟨(hp.ok h).1, a, (hp.ok h).2, rfl⟩

theorem refuse (e : ParseError) : Sound (Reader.refuse e) P :=
  fun _ => rfl

theorem named (name : String) (hp : Sound p P) : Sound (Reader.named name p) P := by
  intro s
  simp only [Reader.named]
  cases h : p s with
  | ok a s' => exact hp.ok h
  | error e s' => simpa using hp.error h

theorem attempt (hp : Sound p P) : Sound (Reader.attempt p) fun ts r rest =>
    match r with
    | some a => P ts a rest
    | none => rest = ts := by
  intro s
  simp only [Reader.attempt]
  cases h : p s with
  | ok a s' => exact hp.ok h
  | error e s' =>
    have ht := hp.error h
    exact ⟨ht, ReadState.ahead_restore ht⟩

theorem either (hp : Sound p P) (hq : Sound q P) : Sound (Reader.either p q) P := by
  refine (hp.attempt.bind (R := fun r ts a rest =>
    match r with
    | some b => a = b ∧ rest = ts
    | none => P ts a rest) fun r => ?_).mono ?_
  · cases r with
    | some a => exact pure a
    | none => exact hq
  · rintro ts a rest ⟨r, us, h₁, h₂⟩
    cases r with
    | some b => obtain ⟨rfl, rfl⟩ := h₂; exact h₁
    | none => subst h₁; exact h₂

theorem within {f : Nat → Reader α} (hf : ∀ n, Sound (f n) P) : Sound (Reader.within f) P :=
  fun s => hf (s.remaining + 1) s

theorem manyWithin (hp : Sound p P) (n : Nat) : Sound (Reader.manyWithin p n) (Many P) := by
  induction n with
  | zero =>
    refine (pure []).mono ?_
    rintro ts _ rest ⟨rfl, rfl⟩
    exact .nil
  | succ n ih =>
    refine (hp.attempt.bind (R := fun r ts as rest =>
      match r with
      | some a => ∃ bs, as = a :: bs ∧ Many P ts bs rest
      | none => as = [] ∧ rest = ts) fun r => ?_).mono ?_
    · cases r with
      | none => exact pure []
      | some a =>
        refine (ih.bind fun bs => pure (a :: bs)).mono ?_
        rintro ts as rest ⟨bs, us, hb, rfl, rfl⟩
        exact ⟨bs, rfl, hb⟩
    · rintro ts as rest ⟨r, us, h₁, h₂⟩
      cases r with
      | none =>
        obtain ⟨rfl, rfl⟩ := h₂
        cases h₁
        exact .nil
      | some a =>
        obtain ⟨bs, rfl, hb⟩ := h₂
        exact .cons h₁ hb

theorem many (hp : Sound p P) : Sound (Reader.many p) (Many P) :=
  within hp.manyWithin

theorem many1 (hp : Sound p P) :
    Sound (Reader.many1 p) (Then P fun a => Then (Many P) fun as => Here (a :: as)) :=
  hp.bind fun a => hp.many.bind fun as => pure (a :: as)

theorem accept (read : Token → Option α) (expected : String) :
    Sound (Reader.accept read expected) fun ts a rest =>
      ∃ token, read token = some a ∧ ts = token.lexeme :: rest := by
  intro s
  simp only [Reader.accept]
  cases hp : s.peek? with
  | none => simp
  | some token =>
    cases hr : read token with
    | none => simp [hr]
    | some a => simpa [hr] using ⟨token, hr, ReadState.ahead_of_peek?_eq_some hp⟩

theorem word (l : Lexeme) : Sound (Reader.word l) (Word l) := by
  refine (accept _ _).mono ?_
  rintro ts token rest ⟨token', hr, rfl⟩
  simp only [Option.ite_none_right_eq_some, Option.some.injEq] at hr
  obtain ⟨hl, rfl⟩ := hr
  exact ⟨hl, by rw [hl]⟩

theorem nextLexeme? : Sound Reader.nextLexeme? fun ts l rest => l = ts.head? ∧ rest = ts :=
  fun s => ⟨rfl, s.map_lexeme_peek?, rfl⟩

theorem stuck : Sound (Reader.stuck : Reader α) P :=
  fun _ => rfl

end Sound

section

variable {expr : Reader Expr} {P : Phrase Expr}

/-- The reader takes a lexeme of one sort, which holds a text, and gives what is made of that. -/
def Takes (p : Reader α) (sort : String → Lexeme) (made : Token → String → α) : Prop :=
  ∃ read expected, p = accept read expected ∧
    ∀ token a, read token = some a ↔ ∃ text, token.lexeme = sort text ∧ made token text = a

theorem Takes.sound {p : Reader α} {sort : String → Lexeme} {made : Token → String → α}
    (h : Takes p sort made) : Sound p fun ts a rest =>
      ∃ token text, made token text = a ∧ ts = sort text :: rest := by
  obtain ⟨read, expected, rfl, hread⟩ := h
  refine (Sound.accept _ _).mono fun ts a rest ⟨token, ha, hts⟩ => ?_
  obtain ⟨text, hlexeme, rfl⟩ := (hread token a).1 ha
  exact ⟨token, text, rfl, hlexeme ▸ hts⟩

theorem ident_takes : Takes ident .ident fun _ text => text := by
  refine ⟨_, _, rfl, fun token x => ?_⟩
  cases token.lexeme <;> simp

theorem operator_takes : Takes operator .operator fun _ text => text := by
  refine ⟨_, _, rfl, fun token x => ?_⟩
  cases token.lexeme <;> simp

theorem label_takes : Takes label .label fun _ text =>
    .label (String.ofList (text.toList.dropWhile (· == '.'))) := by
  refine ⟨_, _, rfl, fun token e => ?_⟩
  cases token.lexeme <;> simp

theorem string_takes : Takes string .quoted fun _ text => .text (Source.unquote text) := by
  refine ⟨_, _, rfl, fun token e => ?_⟩
  cases token.lexeme <;> simp

theorem ident_sound : Sound ident fun ts x rest => ts = .ident x :: rest :=
  ident_takes.sound.mono fun _ _ _ ⟨_, _, hx, hts⟩ => hx ▸ hts

theorem operator_sound : Sound operator fun ts x rest => ts = .operator x :: rest :=
  operator_takes.sound.mono fun _ _ _ ⟨_, _, hx, hts⟩ => hx ▸ hts

theorem label_sound : Sound label fun ts e rest => ∃ l, Literal l e ∧ ts = l :: rest :=
  label_takes.sound.mono fun _ _ _ ⟨_, text, he, hts⟩ => ⟨_, he ▸ .label text, hts⟩

theorem string_sound : Sound string fun ts e rest => ∃ l, Literal l e ∧ ts = l :: rest :=
  string_takes.sound.mono fun _ _ _ ⟨_, text, he, hts⟩ => ⟨_, he ▸ .string text, hts⟩

/-- An integer is checked after its numeral was taken. -/
theorem integer_eq : ∃ numeral, Takes numeral .integer (fun token text => (text, token.span)) ∧
    integer = (do
      let (text, span) ← numeral
      match Source.readWord? text with
      | some n => return .number n
      | none => refuse { problem := .integerOutOfRange text, position := some span }) := by
  refine ⟨_, ⟨_, _, rfl, fun token a => ?_⟩, rfl⟩
  cases token.lexeme <;> simp

theorem integer_sound : Sound integer fun ts e rest => ∃ l, Literal l e ∧ ts = l :: rest := by
  obtain ⟨numeral, hnumeral, hinteger⟩ := integer_eq
  rw [hinteger]
  refine (hnumeral.sound.bind (R := fun r ts e rest =>
    ∃ n, Source.readWord? r.1 = some n ∧ e = .number n ∧ rest = ts) fun r => ?_).mono ?_
  · obtain ⟨numeral, span⟩ := r
    cases hn : Source.readWord? numeral with
    | none => simpa [hn] using Sound.refuse _
    | some n =>
      simp only [hn]
      exact (Sound.pure (Expr.number n)).mono fun ts e rest ⟨he, hr⟩ => ⟨n, rfl, he, hr⟩
  · rintro ts e rest ⟨_, us, ⟨token, text, rfl, rfl⟩, n, hn, rfl, rfl⟩
    exact ⟨_, .integer hn, rfl⟩

theorem literal_sound : Sound literal fun ts e rest => ∃ l, Literal l e ∧ ts = l :: rest :=
  (label_sound.either string_sound).either integer_sound

theorem atom_sound : Sound atom (Level P) := by
  refine Sound.named _ (Sound.either (Sound.mono (Sound.map (Sound.either
    (ident_sound.mono (Q := fun ts x rest => ts = .ident x :: rest ∨ ts = .operator x :: rest)
      fun _ _ _ h => .inl h)
    (operator_sound.mono fun _ _ _ h => .inr h))) ?_) (literal_sound.mono ?_))
  · rintro ts e rest ⟨x, rfl | rfl, rfl⟩
    · exact .ident x
    · exact .operator x
  · rintro ts e rest ⟨l, hl, rfl⟩
    exact .literal hl

theorem letIn_sound (h : Sound expr P) : Sound (letIn expr) (Level P) := by
  refine ((Sound.word _).bind fun _ => (ident_sound.named _).bind fun x => (Sound.word _).bind
    fun _ => h.bind fun value => h.bind fun body => Sound.pure (bindFirst x value body)).mono ?_
  rintro ts e rest ⟨_, _, ⟨-, rfl⟩, x, _, rfl, _, _, ⟨-, rfl⟩, value, _, hv, body, _, hb, rfl, rfl⟩
  exact .letIn x hv hb

theorem application_sound (h : Sound expr P) : Sound (application expr) (Level P) := by
  refine ((Sound.word _).bind fun _ => h.many.bind fun items => (Sound.word _).bind
    fun _ => Sound.pure (Expr.application items)).mono ?_
  rintro ts e rest ⟨_, _, ⟨-, rfl⟩, items, _, hi, _, _, ⟨-, rfl⟩, rfl, rfl⟩
  exact .application hi

theorem list_sound (h : Sound expr P) : Sound (list expr) fun ts e rest =>
    ∃ items us, e = .list items ∧ ts = .lbracket :: us ∧ Many P us items (.rbracket :: rest) := by
  refine ((Sound.word _).bind fun _ => h.many.bind fun items => (Sound.word _).bind
    fun _ => Sound.pure (Expr.list items)).mono ?_
  rintro ts e rest ⟨_, us, ⟨-, rfl⟩, items, _, hi, _, _, ⟨-, rfl⟩, rfl, rfl⟩
  exact ⟨items, us, rfl, rfl, hi⟩

theorem cons_sound {simple : Reader Expr} (h : Sound simple (Simple P)) :
    Sound (cons simple) fun ts e rest => ∃ head tail us vs, e = .cons head tail ∧
      ts = .lbracket :: us ∧ Simple P us head (.colon :: vs) ∧
        Simple P vs tail (.rbracket :: rest) := by
  refine ((Sound.word _).bind fun _ => h.bind fun head => (Sound.word _).bind fun _ =>
    h.bind fun tail => (Sound.word _).bind fun _ => Sound.pure (Expr.cons head tail)).mono ?_
  rintro ts e rest
    ⟨_, us, ⟨-, rfl⟩, head, _, hh, _, vs, ⟨-, rfl⟩, tail, _, ht, _, _, ⟨-, rfl⟩, rfl, rfl⟩
  exact ⟨head, tail, us, vs, rfl, rfl, hh, ht⟩

theorem literal_sound_simple : Sound literal (Simple P) := by
  refine literal_sound.mono ?_
  rintro ts e rest ⟨l, hl, rfl⟩
  exact .literal hl

theorem bracketed_sound {simple : Reader Expr} (hs : Sound simple (Simple P)) (h : Sound expr P) :
    Sound (either (cons simple) (list expr)) (Simple P) := by
  refine ((cons_sound hs).mono ?_).either ((list_sound h).mono ?_)
  · rintro ts e rest ⟨head, tail, us, vs, rfl, rfl, hh, ht⟩
    exact .cons hh ht
  · rintro ts e rest ⟨items, us, rfl, rfl, hi⟩
    exact .list hi

theorem simpleWithin_sound (h : Sound expr P) (n : Nat) :
    Sound (simpleWithin expr n) (Simple P) := by
  induction n with
  | zero => exact Sound.stuck
  | succ n ih =>
    rw [simpleWithin_succ]
    refine (Sound.nextLexeme?.bind (R := fun _ => Simple P) fun l => ?_).mono ?_
    · split
      · refine (Sound.map ident_sound).mono ?_
        rintro ts e rest ⟨x, rfl, rfl⟩
        exact .name x
      · exact bracketed_sound ih h
      · exact literal_sound_simple
    · rintro ts e rest ⟨_, _, ⟨-, rfl⟩, he⟩
      exact he

theorem simple_sound (h : Sound expr P) : Sound (simple expr) (Simple P) :=
  Sound.within (simpleWithin_sound h)

theorem condition_sound (h : Sound expr P) : Sound (condition expr) fun ts r rest =>
    ∃ us, ts = (if r.2 then .doubleColon else .colon) :: us ∧ P us r.1 rest := by
  refine Sound.either (((Sound.word _).bind fun _ => h.bind fun e => Sound.pure (e, false)).mono ?_)
    (((Sound.word _).bind fun _ => h.bind fun e => Sound.pure (e, true)).mono ?_)
  all_goals
    rintro ts r rest ⟨_, us, ⟨-, rfl⟩, e, _, he, rfl, rfl⟩
    exact ⟨us, rfl, he⟩

theorem guardedName_sound (h : Sound expr P) : Sound (guardedName expr) (Formal P) := by
  refine (ident_sound.bind fun x => (condition_sound h).attempt.bind (R := fun r ts e rest =>
    rest = ts ∧ e = r.elim (.identifier x) fun c => .guarded (.identifier x) c.1 c.2)
      fun r => ?_).mono ?_
  · cases r with
    | none => exact (Sound.pure _).mono fun _ _ _ h => h.symm
    | some r => exact (Sound.pure _).mono fun _ _ _ h => h.symm
  · rintro ts e rest ⟨x, us, rfl, r, vs, hr, rfl, rfl⟩
    cases r with
    | none => subst hr; exact .simple (.name x)
    | some r =>
      obtain ⟨cond, constant⟩ := r
      obtain ⟨ws, rfl, hc⟩ := hr
      cases constant with
      | false => exact .guarded x hc
      | true => exact .constant x hc

theorem formal_sound (h : Sound expr P) : Sound (formal expr) (Formal P) := by
  refine (Sound.nextLexeme?.bind (R := fun _ => Formal P) fun l => ?_).mono ?_
  · split
    · exact guardedName_sound h
    · exact (bracketed_sound (simple_sound h) h).mono fun _ _ _ => .simple
    · exact literal_sound_simple.mono fun _ _ _ => .simple
  · rintro ts e rest ⟨_, _, ⟨-, rfl⟩, he⟩
    exact he

/-- Clauses as they are written, after a first row of the given length if there was one. -/
inductive Raws (P : Phrase Expr) : Option Nat → Phrase (List RawClause)
  | nil {ts : List Lexeme} {first : Option Nat} : Raws P first ts [] ts
  | default {ts us rest : List Lexeme} {arity : Nat} {body : Expr} {raws : List RawClause} :
    P ts body us → Raws P (some arity) us raws rest →
      Raws P (some arity) (.fatArrow :: ts) (⟨openRow arity, some body⟩ :: raws) rest
  | plain {ts us vs rest : List Lexeme} {first : Option Nat} {row : List Expr} {body : Expr}
      {raws : List RawClause} :
    Row P ts row (.arrow :: us) → P us body vs →
      Raws P (first.or (some row.length)) vs raws rest →
      Raws P first ts (⟨row, some body⟩ :: raws) rest
  | bare {ts us rest : List Lexeme} {first : Option Nat} {row : List Expr}
      {raws : List RawClause} :
    Row P ts row us → Raws P (first.or (some row.length)) us raws rest →
      Raws P first ts (⟨row, none⟩ :: raws) rest

theorem defaultClause_sound (h : Sound expr P) (first : Option Nat) :
    Sound (defaultClause expr first) fun ts raw rest => ∃ arity us body,
      first = some arity ∧ ts = .fatArrow :: us ∧ P us body rest ∧
        raw = ⟨openRow arity, some body⟩ := by
  cases first with
  | none => exact fun _ => rfl
  | some arity =>
    refine ((Sound.word _).bind fun _ => h.bind fun body =>
      Sound.pure (RawClause.mk (openRow arity) (some body))).mono ?_
    rintro ts raw rest ⟨_, us, ⟨-, rfl⟩, body, _, hb, rfl, rfl⟩
    exact ⟨arity, us, body, rfl, rfl, hb, rfl⟩

theorem row_sound (h : Sound expr P) : Sound (named "match" (many1 (formal expr))) (Row P) := by
  refine ((formal_sound h).many1.mono ?_).named _
  rintro ts row rest ⟨first, us, hf, others, _, ho, rfl, rfl⟩
  exact .mk hf ho

theorem plainClause_sound {R : Phrase (List Expr)} (h : Sound expr P)
    (hrow : Sound (named "match" (many1 (formal expr))) R) :
    Sound (plainClause expr) fun ts raw rest =>
      match raw with
      | ⟨row, none⟩ => R ts row rest
      | ⟨row, some body⟩ => ∃ us, R ts row (.arrow :: us) ∧ P us body rest := by
  refine (hrow.bind fun row => Sound.nextLexeme?.bind (R := fun _ ts raw rest =>
    raw.row = row ∧ match raw.body with
      | none => rest = ts
      | some body => ∃ us, ts = .arrow :: us ∧ P us body rest) fun l => ?_).mono ?_
  · split
    · refine ((Sound.word _).bind fun _ => h.bind fun body =>
        Sound.pure (RawClause.mk row (some body))).mono ?_
      rintro ts raw rest ⟨_, us, ⟨-, rfl⟩, body, _, hb, rfl, rfl⟩
      exact ⟨rfl, us, rfl, hb⟩
    · refine (Sound.pure (RawClause.mk row none)).mono ?_
      rintro ts raw rest ⟨rfl, rfl⟩
      exact ⟨rfl, rfl⟩
  · rintro ts ⟨row, body⟩ rest ⟨_, us, hr, _, _, ⟨-, rfl⟩, rfl, hb⟩
    cases body with
    | none => cases hb; exact hr
    | some body =>
      obtain ⟨ws, rfl, hb⟩ := hb
      exact ⟨ws, hr, hb⟩

theorem clausesWithin_sound (h : Sound expr P) (first : Option Nat) (n : Nat) :
    Sound (clausesWithin expr first n) (Raws P first) := by
  induction n generalizing first with
  | zero => exact Sound.stuck
  | succ n ih =>
    refine (Sound.nextLexeme?.bind (R := fun _ => Raws P first) fun l => ?_).mono ?_
    · split
      · refine (Sound.pure []).mono ?_
        rintro ts raws rest ⟨rfl, rfl⟩
        exact .nil
      · refine (Sound.pure []).mono ?_
        rintro ts raws rest ⟨rfl, rfl⟩
        exact .nil
      · refine ((defaultClause_sound h first).bind fun raw => (ih first).bind fun raws =>
          Sound.pure (raw :: raws)).mono ?_
        rintro ts _ rest ⟨_, us, ⟨arity, ws, body, rfl, rfl, hb, rfl⟩, raws, _, hr, rfl, rfl⟩
        exact .default hb hr
      · refine ((plainClause_sound h (row_sound h)).bind fun raw => (ih _).bind fun raws =>
          Sound.pure (raw :: raws)).mono ?_
        rintro ts _ rest ⟨⟨row, body⟩, us, hc, raws, _, hr, rfl, rfl⟩
        cases body with
        | none => exact .bare hc hr
        | some body =>
          obtain ⟨ws, hw, hb⟩ := hc
          exact .plain hw hb hr
    · rintro ts raws rest ⟨_, _, ⟨-, rfl⟩, hr⟩
      exact hr

/-- Clauses that all have bodies, and rows as long as the first. -/
theorem Raws.others {arity : Nat} {ts rest : List Lexeme} {raws : List RawClause}
    (h : Raws P (some arity) ts raws rest) (hb : raws.any (·.body.isNone) = false)
    (ha : ∀ raw ∈ raws, raw.row.length = arity) :
    Others P arity ts (raws.map RawClause.toClause) rest := by
  generalize hf : some arity = first at h
  induction h with
  | nil => exact .nil
  | default hbody _ ih =>
    cases hf
    simp only [List.any_cons, Option.isNone_some, Bool.false_or] at hb
    exact .default hbody (ih hb (fun raw hr => ha raw (by simp [hr])) rfl)
  | plain hr hbody _ ih =>
    subst hf
    simp only [List.any_cons, Option.isNone_some, Bool.false_or] at hb
    exact .plain ⟨hr, hbody⟩ (ha _ (by simp)) (ih hb (fun raw hr => ha raw (by simp [hr])) rfl)
  | bare => simp at hb

theorem Raws.level {ts rest : List Lexeme} {raws : List RawClause} {clauses : List Clause}
    (h : Raws P none ts raws (.rbrace :: rest)) (hf : finishClauses raws = .ok clauses) :
    Level P (.lbrace :: ts) (.pattern clauses []) rest := by
  unfold finishClauses at hf
  split at hf
  · cases hf
  next row =>
    cases hf
    cases h with
    | bare hr hs =>
      cases hs with
      | nil => exact .test hr
  next =>
    split at hf
    · cases hf
    next hb =>
      cases hc : commonArity (raws.map RawClause.toClause) with
      | error rows => simp [hc] at hf
      | ok n =>
        simp only [hc, Except.ok.injEq] at hf
        subst hf
        obtain ⟨-, ha⟩ := commonArity_eq_ok_iff.1 hc
        simp only [Bool.not_eq_true] at hb
        cases h with
        | nil => contradiction
        | bare => simp at hb
        | plain hr hbody hs =>
          simp only [List.any_cons, Option.isNone_some, Bool.false_or] at hb
          have hplain : Plain P _ (.mk _ _) _ := ⟨hr, hbody⟩
          refine .pattern hplain (hs.others hb fun raw hraw => ?_)
          exact ha raw.toClause (List.mem_map_of_mem (by simp [hraw]))

theorem pattern_sound (h : Sound expr P) : Sound (pattern expr) (Level P) := by
  refine ((Sound.word _).bind fun brace => (Sound.within (clausesWithin_sound h none)).bind
    fun raws => (Sound.word _).bind (R := fun _ ts e rest =>
      rest = ts ∧ ∃ clauses, finishClauses raws = .ok clauses ∧ e = .pattern clauses [])
      fun _ => ?_).mono ?_
  · split
    next clauses hf =>
      exact (Sound.pure _).mono fun ts e rest ⟨he, hr⟩ => ⟨hr, clauses, hf, he⟩
    next => exact Sound.refuse _
  · rintro ts e rest ⟨_, _, ⟨-, rfl⟩, raws, _, hr, _, _, ⟨-, rfl⟩, rfl, clauses, hf, rfl⟩
    exact hr.level hf

theorem level_sound (h : Sound expr P) : Sound (level expr) (Level P) := by
  refine (Sound.nextLexeme?.bind (R := fun _ => Level P) fun l => ?_).mono ?_
  · split
    · exact letIn_sound h
    · exact pattern_sound h
    · exact application_sound h
    · refine (list_sound h).mono ?_
      rintro ts e rest ⟨items, us, rfl, rfl, hi⟩
      exact .list hi
    · exact atom_sound
  · rintro ts e rest ⟨_, _, ⟨-, rfl⟩, he⟩
    exact he

theorem expressionWithin_sound (n : Nat) : Sound (expressionWithin n) (DerivesWithin n) := by
  induction n with
  | zero => exact Sound.stuck
  | succ n ih => exact level_sound ih

theorem expression_sound : Sound expression Derives :=
  Sound.within fun n => (expressionWithin_sound n).mono fun _ _ _ h => ⟨n, h⟩

end

theorem program_eq_ok {s s' : ReadState} {e : Expr} (h : program s = .ok e s') :
    expression s = .ok e s' ∧ s'.hasNext = false := by
  unfold program at h
  split at h
  next e' s'' he =>
    split at h
    · split at h
      · split at h <;> cases h
      · cases h
    next hn =>
      cases h
      exact ⟨he, by simpa using hn⟩
  next =>
    split at h <;> cases h

/-- A program that was read is a phrase that takes up all lexemes. -/
theorem derives_of_ofTokens {tokens : List Token} {e : Expr}
    (h : ofTokens program tokens = .ok e) : Derives (tokens.map Token.lexeme) e [] := by
  unfold ofTokens at h
  split at h
  next e' s hp =>
    cases h
    obtain ⟨he, hn⟩ := program_eq_ok hp
    have hd := (expression_sound.ok he).2
    have hs : s.ahead = [] := by
      apply List.eq_nil_of_length_eq_zero
      simp only [ReadState.hasNext, decide_eq_false_iff_not] at hn
      rw [ReadState.length_ahead, ReadState.remaining]
      omega
    rw [hs] at hd
    simpa [ReadState.ahead, ReadState.ofTokens] using hd
  next => cases h

end Reader

end ClauseLang
