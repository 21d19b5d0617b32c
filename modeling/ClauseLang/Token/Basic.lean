import ClauseLang.Source.Position

namespace ClauseLang

/-- A word of the language. The open classes carry their text as it was written. -/
inductive Lexeme where
  | letWord
  | lbrace
  | rbrace
  | lparen
  | rparen
  | lbracket
  | rbracket
  | fatArrow
  | equals
  | arrow
  | doubleColon
  | colon
  | ident (text : String)
  | operator (text : String)
  | label (text : String)
  | quoted (text : String)
  | integer (text : String)
deriving DecidableEq

structure Token where
  lexeme : Lexeme
  span : Span
deriving DecidableEq

namespace Lexeme

def text : Lexeme → String
  | .letWord => "let"
  | .lbrace => "\x7b"
  | .rbrace => "\x7d"
  | .lparen => "("
  | .rparen => ")"
  | .lbracket => "["
  | .rbracket => "]"
  | .fatArrow => "=>"
  | .equals => "="
  | .arrow => "->"
  | .doubleColon => "::"
  | .colon => ":"
  | .ident text | .operator text | .label text | .quoted text | .integer text => text

def describe : Lexeme → String
  | .ident text => "identifier '" ++ text ++ "'"
  | .operator text => "operator '" ++ text ++ "'"
  | .label text => "label '" ++ text ++ "'"
  | .quoted text => "string " ++ text
  | .integer text => "integer '" ++ text ++ "'"
  | word => "'" ++ word.text ++ "'"

end Lexeme

end ClauseLang
