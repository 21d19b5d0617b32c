/-!
String literals. A literal is written between quotes; a backslash makes the character after it
ordinary, except that `n` and `t` stand for a newline and a tab.
-/

namespace ClauseLang.Source

def escape : Char → List Char
  | '"' => ['\\', '"']
  | '\\' => ['\\', '\\']
  | '\n' => ['\\', 'n']
  | '\t' => ['\\', 't']
  | c => [c]

def quote (cs : List Char) : List Char :=
  '"' :: cs.flatMap escape ++ ['"']

/-- The character that a backslash and the given character stand for. -/
def unescapeChar : Char → Char
  | 'n' => '\n'
  | 't' => '\t'
  | c => c

/-- Resolve the escapes of a text. A backslash at the end stands for itself. -/
def unescape : List Char → List Char
  | [] => []
  | ['\\'] => ['\\']
  | '\\' :: c :: cs => unescapeChar c :: unescape cs
  | c :: cs => c :: unescape cs

/-- What stands between the quotes of a literal. A text without both quotes is left alone. -/
def stripQuotes : List Char → List Char
  | '"' :: cs => if cs.getLast? = some '"' then cs.dropLast else '"' :: cs
  | cs => cs

def unquote (literal : String) : String :=
  String.ofList (unescape (stripQuotes literal.toList))

theorem unescape_cons {c : Char} (h : c ≠ '\\') (cs : List Char) :
    unescape (c :: cs) = c :: unescape cs := by
  rw [unescape.eq_def]
  split <;> simp_all

/-- Resolving an escaped character gives it back, whatever follows. -/
theorem unescape_escape_append (c : Char) (cs : List Char) :
    unescape (escape c ++ cs) = c :: unescape cs := by
  unfold escape
  split
  · rfl
  · rfl
  · rfl
  · rfl
  · next h _ _ => exact unescape_cons h cs

theorem unescape_flatMap_escape (cs : List Char) : unescape (cs.flatMap escape) = cs := by
  induction cs with
  | nil => rfl
  | cons c cs ih => rw [List.flatMap_cons, unescape_escape_append, ih]

theorem unescape_stripQuotes_quote (cs : List Char) : unescape (stripQuotes (quote cs)) = cs := by
  simp [quote, stripQuotes, unescape_flatMap_escape]

end ClauseLang.Source
