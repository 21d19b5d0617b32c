import ClauseLang.Reader.State

namespace ClauseLang

/-- A computation on the token cursor that may fail. It leaves the cursor where it failed; choices and
repetitions move it back. -/
abbrev Reader := EStateM ParseError ReadState

namespace Reader

variable {α β : Type} {p : Reader α} {f : α → Reader β} {s s' : ReadState} {a : α}
  {e : ParseError}

theorem bind_eq_ok (h : p s = .ok a s') : (p >>= f) s = f a s' := by
  change EStateM.bind p f s = _
  rw [EStateM.bind, h]

theorem bind_eq_error (h : p s = .error e s') : (p >>= f) s = .error e s' := by
  change EStateM.bind p f s = _
  rw [EStateM.bind, h]

/-- Take the next token if it is a wanted one; a failure is recorded. -/
def accept (read : Token → Option α) (expected : String) : Reader α := fun s =>
  match s.peek? with
  | none =>
    let e := { s.errorHere .unexpectedEnd with expected := [expected] }
    .error e (s.record e)
  | some token =>
    match read token with
    | some a => .ok a s.advance
    | none =>
      let e := { s.errorHere .unexpectedToken with expected := [expected] }
      .error e (s.record e)

def word (lexeme : Lexeme) : Reader Token :=
  accept (fun token => if token.lexeme = lexeme then some token else none) lexeme.describe

def nextLexeme? : Reader (Option Lexeme) := fun s =>
  .ok (s.peek?.map Token.lexeme) s

def attempt (p : Reader α) : Reader (Option α) := fun s =>
  match p s with
  | .ok a s' => .ok (some a) s'
  | .error _ s' => .ok none (s'.restore s.index)

theorem attempt_eq_ok (h : p s = .ok a s') : attempt p s = .ok (some a) s' := by
  rw [attempt, h]

theorem attempt_eq_none (h : p s = .error e s') : attempt p s = .ok none (s'.restore s.index) := by
  rw [attempt, h]

def either (p q : Reader α) : Reader α := do
  match ← attempt p with
  | some a => pure a
  | none => q

def optional (p : Reader α) : Reader (Option α) :=
  attempt p

/-- Give a reader a bound that its nested or repeated steps cannot exceed, if each of them takes a
token. -/
def within (p : Nat → Reader α) : Reader α := fun s =>
  p (s.remaining + 1) s

def manyWithin (p : Reader α) : Nat → Reader (List α)
  | 0 => pure []
  | n + 1 => do
    match ← attempt p with
    | none => pure []
    | some a => return a :: (← manyWithin p n)

def many (p : Reader α) : Reader (List α) :=
  within (manyWithin p)

def many1 (p : Reader α) : Reader (List α) := do
  let first ← p
  return first :: (← many p)

def named (name : String) (p : Reader α) : Reader α := fun s =>
  match p s with
  | .ok a s' => .ok a s'
  | .error e s' =>
    let e := { e with expected := [name] }
    .error e (s'.record e)

/-- Refuse whatever was read. The failure is not recorded. -/
def refuse (e : ParseError) : Reader α := fun s =>
  .error e s

end Reader

end ClauseLang
