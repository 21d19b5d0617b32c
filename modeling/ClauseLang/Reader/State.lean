import ClauseLang.Reader.Error

/-!
A cursor over tokens that remembers the error found furthest into them. Going back does not forget
it, so choices can be given up without losing the best explanation.
-/

namespace ClauseLang

structure ReadState where
  tokens : Array Token
  index : Nat := 0
  furthest : Option (Nat × ParseError) := none

namespace ReadState

def ofTokens (tokens : List Token) : ReadState :=
  { tokens := tokens.toArray }

def peek? (s : ReadState) : Option Token :=
  s.tokens[s.index]?

def hasNext (s : ReadState) : Bool :=
  s.index < s.tokens.size

def remaining (s : ReadState) : Nat :=
  s.tokens.size - s.index

def advance (s : ReadState) : ReadState :=
  if s.hasNext then { s with index := s.index + 1 } else s

def restore (s : ReadState) (index : Nat) : ReadState :=
  { s with index }

/-- Both lists, without what the first one has already. -/
def mergeExpected (known new : List String) : List String :=
  new.foldl (fun known what => if what ∈ known then known else known ++ [what]) known

/-- Remember an error at the cursor, unless one further on is known. Errors at one place are joined:
the first stays and takes up what the others expected. -/
def record (s : ReadState) (e : ParseError) : ReadState :=
  match s.furthest with
  | none => { s with furthest := some (s.index, e) }
  | some (index, known) =>
    if index = s.index then
      let joined := { known with expected := mergeExpected known.expected e.expected }
      { s with furthest := some (index, joined) }
    else if s.index < index then
      s
    else
      { s with furthest := some (s.index, e) }

def errorHere (s : ReadState) (problem : Problem) : ParseError :=
  match s.peek? with
  | some token => { problem, found := some token.lexeme.describe, position := some token.span }
  | none => { problem, found := some "end of input" }

end ReadState

end ClauseLang
