/-!
The numbers of the language are 64-bit words. Arithmetic is done on integers and the result is taken
only if it is a word.
-/

namespace ClauseLang

def word? (n : Int) : Option Int64 :=
  if Int64.minValue.toInt ≤ n ∧ n ≤ Int64.maxValue.toInt then some (Int64.ofInt n) else none

namespace Source

def digitsValue (cs : List Char) : Nat :=
  cs.foldl (fun n c => 10 * n + (c.toNat - '0'.toNat)) 0

/-- The value of a decimal numeral, which may begin with a minus sign. -/
def numeralValue : List Char → Int
  | '-' :: cs => -digitsValue cs
  | cs => digitsValue cs

/-- The decimal numeral of a value, without leading zeros. -/
def numeral : Int → List Char
  | .ofNat n => Nat.toDigits 10 n
  | .negSucc n => '-' :: Nat.toDigits 10 (n + 1)

/-- The word that a decimal numeral denotes, if it is in range. -/
def readWord? (numeral : String) : Option Int64 :=
  word? (numeralValue numeral.toList)

end Source

end ClauseLang
