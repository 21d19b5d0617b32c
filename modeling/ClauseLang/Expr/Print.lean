import ClauseLang.Expr.Basic
import ClauseLang.Source.Quoted
import ClauseLang.Source.Word

/-!
Printing expressions in the notation that they are read in. Bindings and the clauses of a pattern
stand on lines of their own; a pattern with one clause stays on one line if its body does. A closure
is printed as the pattern it came from, and a builtin by its name in angle brackets.
-/

namespace ClauseLang

/-- A line end with the indentation of the next line. -/
def newline (level : Nat) : List Char :=
  '\n' :: List.replicate (2 * level) ' '

namespace Expr

mutual

def spansLines : Expr → Bool
  | .application items | .list items => itemsSpanLines items
  | .identifier name | .label name => name.toList.contains '\n'
  | .text _ | .number _ => false
  | .cons head tail => head.spansLines || tail.spansLines
  | .letIn names values body => (!names.isEmpty && !values.isEmpty) || body.spansLines
  | .guarded inner condition _ => inner.spansLines || condition.spansLines
  | .pattern clauses _ => clauses.length != 1 || clausesSpanLines clauses
  | .builtin op => builtinSpansLines op

def itemsSpanLines : List Expr → Bool
  | [] => false
  | item :: items => item.spansLines || itemsSpanLines items

def clausesSpanLines : List Clause → Bool
  | [] => false
  | .mk row body :: clauses => itemsSpanLines row || body.spansLines || clausesSpanLines clauses

def builtinSpansLines : Builtin → Bool
  | .unary _ | .binary _ => false
  | .waiting _ left => left.spansLines
  | .host name => name.toList.contains '\n'

end

def fitsLine : List Clause → Bool
  | [clause] => !clause.body.spansLines
  | _ => false

mutual

/-- The printed form of an expression at a level of indentation, with a text after it. -/
def write (level : Nat) : Expr → List Char → List Char
  | .application items, rest => '(' :: writeItems level items (')' :: rest)
  | .identifier name, rest => name.toList ++ rest
  | .label name, rest => '.' :: (name.toList ++ rest)
  | .text value, rest => Source.quote value.toList ++ rest
  | .number value, rest => Source.numeral value.toInt ++ rest
  | .list items, rest => '[' :: writeItems level items (']' :: rest)
  | .cons head tail, rest =>
    '[' :: write level head (' ' :: ':' :: ' ' :: write level tail (']' :: rest))
  | .letIn names values body, rest => writeBindings level names values (write level body rest)
  | .guarded inner condition constant, rest =>
    write level inner
      ((if constant then [' ', ':', ':', ' '] else [' ', ':', ' ']) ++ write level condition rest)
  | .pattern clauses _, rest =>
    if fitsLine clauses then
      '{' :: writeClauses level [' '] clauses (' ' :: '}' :: rest)
    else
      '{' :: writeClauses (level + 1) (newline (level + 1)) clauses (newline level ++ '}' :: rest)
  | .builtin op, rest => '<' :: writeBuiltin op ('>' :: rest)

/-- Expressions with blanks between them. -/
def writeItems (level : Nat) : List Expr → List Char → List Char
  | [], rest => rest
  | [item], rest => write level item rest
  | item :: items, rest => write level item (' ' :: writeItems level items rest)

def writeBindings (level : Nat) : List String → List Expr → List Char → List Char
  | name :: names, value :: values, rest =>
    'l' :: 'e' :: 't' :: ' ' :: (name.toList ++ ' ' :: '=' :: ' ' ::
      write level value (newline level ++ writeBindings level names values rest))
  | _, _, rest => rest

def writeRow (level : Nat) : List Expr → List Char → List Char
  | [], rest => rest
  | formal :: row, rest => write level formal (' ' :: writeRow level row rest)

/-- Clauses with the given text before each. -/
def writeClauses (level : Nat) (lead : List Char) : List Clause → List Char → List Char
  | [], rest => rest
  | .mk row body :: clauses, rest =>
    lead ++ writeRow level row
      ('-' :: '>' :: ' ' :: write level body (writeClauses level lead clauses rest))

/-- The name of a builtin; one that is waiting shows the operand it has got. -/
def writeBuiltin : Builtin → List Char → List Char
  | .unary op, rest => op.name.toList ++ rest
  | .binary op, rest => op.name.toList ++ rest
  | .waiting op left, rest => op.name.toList ++ ' ' :: write 0 left rest
  | .host name, rest => name.toList ++ rest

end

def render (e : Expr) : String :=
  String.ofList (e.write 0 [])

end Expr

namespace Builtin

def name (op : Builtin) : String :=
  String.ofList (Expr.writeBuiltin op [])

/-- The builtins that every program can name. -/
def table : List Builtin :=
  ([.add, .sub, .mul, .div, .rem, .greater, .greaterEqual, .less, .lessEqual, .equal, .notEqual,
      .both, .either, .concat] : List BinaryOp).map .binary ++
    ([.abs, .len, .print] : List UnaryOp).map .unary

def names : List String :=
  table.map name

def ofName? (name : String) : Option Builtin :=
  table.find? (·.name == name)

end Builtin

end ClauseLang
