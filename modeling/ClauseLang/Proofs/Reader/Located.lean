import ClauseLang.Proofs.Token.Layout
import ClauseLang.Proofs.Reader.Compositional
import ClauseLang.Proofs.Reader.Sound

/-!
Where errors are. Whatever a reader reports, and whatever it remembers, is about one of the tokens or
about none, and a token without a line end in it can be shown in an excerpt of its text.
-/

namespace ClauseLang

/-- The error is about one of the tokens, unless it is about none. -/
def ParseError.At (e : ParseError) (tokens : Array Token) : Prop :=
  ∀ span, e.position = some span → ∃ token ∈ tokens, token.span = span

def ReadState.Located (s : ReadState) : Prop :=
  ∀ known ∈ s.furthest, known.2.At s.tokens

namespace ReadState

variable {s : ReadState} {e : ParseError}

theorem located_ofTokens (tokens : List Token) : (ofTokens tokens).Located :=
  nofun

theorem mem_of_peek? {token : Token} (h : s.peek? = some token) : token ∈ s.tokens :=
  Array.mem_of_getElem? h

theorem at_errorHere (s : ReadState) (problem : Problem) : (s.errorHere problem).At s.tokens := by
  intro span hspan
  unfold errorHere at hspan
  split at hspan
  · next token htoken =>
    cases hspan
    exact ⟨token, mem_of_peek? htoken, rfl⟩
  · cases hspan

theorem Located.record (h : s.Located) (he : e.At s.tokens) : (s.record e).Located := by
  have hnew : Located { s with furthest := some (s.index, e) } := by
    rintro _ ⟨rfl⟩
    exact he
  unfold ReadState.record
  split
  · exact hnew
  next index known hknown =>
    split
    · rintro _ ⟨rfl⟩
      exact h (index, known) hknown
    · split
      · exact h
      · exact hnew

theorem Located.advance (h : s.Located) : s.advance.Located := by
  unfold ReadState.advance
  split <;> exact h

end ReadState

namespace Reader

/-- On these tokens, the reader keeps to errors about them. -/
def Stays {α : Type} (tokens : Array Token) (p : Reader α) : Prop :=
  ∀ s : ReadState, s.tokens = tokens → s.Located → match p s with
    | .ok _ s' => s'.tokens = tokens ∧ s'.Located
    | .error e s' => (s'.tokens = tokens ∧ s'.Located) ∧ e.At tokens

namespace Stays

variable {α β : Type} {tokens : Array Token} {p : Reader α}

theorem ok (h : Stays tokens p) {s s' : ReadState} {a : α} (hs : s.tokens = tokens ∧ s.Located)
    (hp : p s = .ok a s') : s'.tokens = tokens ∧ s'.Located := by
  have := h s hs.1 hs.2
  rwa [hp] at this

theorem error (h : Stays tokens p) {s s' : ReadState} {e : ParseError}
    (hs : s.tokens = tokens ∧ s.Located) (hp : p s = .error e s') :
    (s'.tokens = tokens ∧ s'.Located) ∧ e.At tokens := by
  have := h s hs.1 hs.2
  rwa [hp] at this

theorem bind {f : α → Reader β} (hp : Stays tokens p) (hf : ∀ a, Stays tokens (f a)) :
    Stays tokens (p >>= f) := by
  intro s htokens hs
  cases h : p s with
  | error e s' =>
    rw [bind_eq_error h]
    exact hp.error ⟨htokens, hs⟩ h
  | ok a s' =>
    obtain ⟨htokens', hs'⟩ := hp.ok ⟨htokens, hs⟩ h
    rw [bind_eq_ok h]
    exact hf a s' htokens' hs'

theorem attempt (h : Stays tokens p) : Stays tokens (Reader.attempt p) := by
  intro s htokens hs
  cases hp : p s with
  | ok a s' =>
    rw [attempt_eq_ok hp]
    exact h.ok ⟨htokens, hs⟩ hp
  | error e s' =>
    rw [attempt_eq_none hp]
    exact (h.error ⟨htokens, hs⟩ hp).1

theorem named (name : String) (h : Stays tokens p) : Stays tokens (Reader.named name p) := by
  intro s htokens hs
  unfold Reader.named
  cases hp : p s with
  | ok a s' => exact h.ok ⟨htokens, hs⟩ hp
  | error e s' =>
    obtain ⟨⟨htokens', hs'⟩, he⟩ := h.error ⟨htokens, hs⟩ hp
    have hnamed : ParseError.At { e with expected := [name] } tokens := he
    exact ⟨⟨by simp [htokens'], hs'.record (htokens' ▸ hnamed)⟩, hnamed⟩

theorem refuse {token : Token} (h : token ∈ tokens) (problem : Problem) :
    Stays tokens (Reader.refuse { problem, position := some token.span } : Reader α) := by
  intro s htokens hs
  refine ⟨⟨htokens, hs⟩, fun span hspan => ?_⟩
  cases hspan
  exact ⟨token, h, rfl⟩

theorem accept_bind {read : Token → Option α} {f : α → Reader β} (expected : String)
    (hf : ∀ token a, token ∈ tokens → read token = some a → Stays tokens (f a)) :
    Stays tokens (Reader.accept read expected >>= f) := by
  intro s htokens hs
  subst htokens
  -- A failure is about the token at the cursor, and it is both reported and remembered.
  have hfails (problem : Problem) :
      let e := { s.errorHere problem with expected := [expected] }
      ((s.record e).tokens = s.tokens ∧ (s.record e).Located) ∧ e.At s.tokens := by
    intro e
    have he : e.At s.tokens := s.at_errorHere problem
    exact ⟨⟨by simp, hs.record he⟩, he⟩
  change match EStateM.bind (Reader.accept read expected) f s with
    | .ok _ s' => _
    | .error e s' => _
  unfold EStateM.bind Reader.accept
  cases hpeek : s.peek? with
  | none => exact hfails _
  | some token =>
    dsimp only
    cases hread : read token with
    | none => exact hfails _
    | some a =>
      have hmem : token ∈ s.tokens := ReadState.mem_of_peek? hpeek
      exact hf token a hmem hread s.advance (by simp) hs.advance

end Stays

theorem stays_compositional (tokens : Array Token) :
    Compositional (fun _ _ _ => True) (· ∈ tokens) fun _ _ _ {_} p _ => Stays tokens p where
  left_trans _ _ := trivial
  mono _ h := h
  open_of h := h
  pure _ _ htokens hs := ⟨htokens, hs⟩
  nextLexeme? _ htokens hs := ⟨htokens, hs⟩
  stuck s htokens hs := ⟨⟨htokens, hs⟩, htokens ▸ s.at_errorHere _⟩
  refuse_integer hmine := .refuse hmine _
  refuse_check hmine := .refuse hmine _
  defaultFirst s htokens hs := by
    refine ⟨⟨htokens, hs⟩, fun span hspan => ?_⟩
    obtain ⟨token, hpeek, hspan⟩ := Option.map_eq_some_iff.1 hspan
    exact ⟨token, htokens ▸ ReadState.mem_of_peek? hpeek, hspan⟩
  accept_bind expected hf := .accept_bind expected fun token a hmine ha => hf token a 0 hmine ha trivial
  bind hp hf := hp.bind fun a => hf a 0 trivial
  attempt_bind hp hsome hnone := hp.attempt.bind fun r => by
    cases r with
    | none => exact hnone
    | some a => exact hsome a 0 trivial
  named name hp := hp.named name
  within h s := h (s.remaining + 1) s

theorem expression_stays (tokens : Array Token) : Stays tokens expression :=
  (stays_compositional tokens).expression (n := 0)

/-- The error of a program is one that was remembered, or one about the token at the cursor. -/
theorem at_of_program {s s' : ReadState} {e : ParseError} (hs : s.Located)
    (h : program s = .error e s') : e.At s.tokens := by
  unfold program at h
  cases hexpr : expression s with
  | ok tree t =>
    obtain ⟨htokens, ht⟩ := (expression_stays s.tokens).ok ⟨rfl, hs⟩ hexpr
    have hhere := t.at_errorHere .trailingToken
    rw [htokens] at hhere
    rw [hexpr] at h
    dsimp only at h
    split at h
    · split at h
      · next index known hknown =>
        split at h
        · cases h
          exact htokens ▸ ht _ hknown
        · cases h
          exact hhere
      · cases h
        exact hhere
    · cases h
  | error cause t =>
    obtain ⟨⟨htokens, ht⟩, hcause⟩ := (expression_stays s.tokens).error ⟨rfl, hs⟩ hexpr
    rw [hexpr] at h
    dsimp only at h
    split at h
    · cases h
      exact hcause
    · cases h
      cases hfurthest : s'.furthest with
      | none => exact hcause
      | some known => exact htokens ▸ ht known hfurthest

end Reader

/-! ### Reports -/

theorem ParseError.isSome_report? {e : ParseError}
    (h : ∀ span, e.position = some span → span.OnLine) : e.report?.isSome := by
  unfold report?
  split
  · rfl
  · next span hspan =>
    split
    · rfl
    · exact (h span hspan).isSome_excerpt? _

/-- What is wrong with a text is about one of its tokens or about none. If no string goes over the end
of a line, then the error is on a line of the text without its comments, and can be reported. -/
theorem parse_error_reportable {source : String} {e : ParseError}
    (hstrings : ∀ tokens, scan (Source.stripComments source) = .ok tokens → ∀ token ∈ tokens,
      ∀ text, token.lexeme = .quoted text → '\n' ∉ text.toList)
    (h : parse source = .error e) :
    (e.position = none ∨ ∃ tokens, scan (Source.stripComments source) = .ok tokens ∧
      ∃ token ∈ tokens, e.position = some token.span) ∧
      (∀ span, e.position = some span →
        span.source = Source.stripComments source ∧ span.OnLine) ∧
      e.report?.isSome := by
  unfold parse at h
  cases hscan : scan (Source.stripComments source) with
  | error cause =>
    rw [hscan] at h
    cases h
    exact ⟨.inl rfl, nofun, rfl⟩
  | ok tokens =>
    rw [hscan] at h
    have hat : ∀ span, e.position = some span → ∃ token ∈ tokens, token.span = span := by
      dsimp only at h
      unfold Reader.ofTokens at h
      split at h
      · cases h
      · next hprogram =>
        cases h
        intro span hspan
        obtain ⟨token, htoken, hspan⟩ :=
          Reader.at_of_program (ReadState.located_ofTokens tokens) hprogram span hspan
        exact ⟨token, List.mem_toArray.1 htoken, hspan⟩
    have hline : ∀ span, e.position = some span →
        span.source = Source.stripComments source ∧ span.OnLine := by
      intro span hspan
      obtain ⟨token, htoken, rfl⟩ := hat span hspan
      have hlaid := Scan.laid_of_scan hscan
      exact hlaid.onLine (List.nil_append _).symm rfl (hstrings tokens hscan) token htoken
    refine ⟨?_, hline, ParseError.isSome_report? fun span hspan => (hline span hspan).2⟩
    cases hposition : e.position with
    | none => exact .inl rfl
    | some span =>
      obtain ⟨token, htoken, hspan⟩ := hat span hposition
      exact .inr ⟨tokens, rfl, token, htoken, congrArg some hspan.symm⟩

/-- Where the error of a text begins and ends, if it has one that is somewhere. -/
def errorPlace? (source : String) : Option (Position × Position) :=
  match parse source with
  | .ok _ => none
  | .error e => e.position.map fun span => (span.start, span.stop)

/-- The bracket that is too much is on the second line, behind a comment and a carriage return. -/
theorem parse_error_reportable_behind_comment :
    ∃ e, parse "[\"é\t\"] # ü\r\n  )" = .error e ∧
      e.position.map (fun span => (span.start, span.stop)) = some (⟨1, 2⟩, ⟨1, 3⟩) ∧
      e.report?.isSome := by
  have hlexemes : (scan (Source.stripComments "[\"é\t\"] # ü\r\n  )")).toOption.map
      (List.map Token.lexeme) = some [.lbracket, .quoted "\"é\t\"", .rbracket, .rparen] := by
    decide +kernel
  have hplace : errorPlace? "[\"é\t\"] # ü\r\n  )" = some (⟨1, 2⟩, ⟨1, 3⟩) := by decide +kernel
  have hstrings : ∀ tokens, scan (Source.stripComments "[\"é\t\"] # ü\r\n  )") = .ok tokens →
      ∀ token ∈ tokens, ∀ text, token.lexeme = .quoted text → '\n' ∉ text.toList := by
    intro tokens htokens token htoken text htext
    rw [htokens] at hlexemes
    have hmem := List.mem_map_of_mem (f := Token.lexeme) htoken
    have hall : tokens.map Token.lexeme = _ := Option.some.inj hlexemes
    obtain rfl : text = "\"é\t\"" := by simpa [hall, htext] using hmem
    decide
  unfold errorPlace? at hplace
  cases h : parse "[\"é\t\"] # ü\r\n  )" with
  | ok e => simp [h] at hplace
  | error e =>
    rw [h] at hplace
    exact ⟨e, rfl, hplace, (parse_error_reportable hstrings h).2.2⟩

end ClauseLang
