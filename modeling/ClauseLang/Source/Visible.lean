import ClauseLang.Source.Mark
import ClauseLang.Source.Unassigned

/-!
Texts shown between quotes in a description of a scope. Characters that leave no mark of their own
are shown by number.
-/

namespace ClauseLang.Source

/-- First and last numbers of the ranges of controls, blanks other than the plain one, format
characters, fillers and private characters. -/
def unseenRanges : List (Nat × Nat) :=
  [(0x0, 0x1f), (0x7f, 0xa0), (0xad, 0xad), (0x600, 0x605), (0x61c, 0x61c), (0x6dd, 0x6dd),
    (0x70f, 0x70f), (0x890, 0x891), (0x8e2, 0x8e2), (0x115f, 0x1160), (0x1680, 0x1680),
    (0x180e, 0x180e), (0x2000, 0x200f), (0x2028, 0x202f), (0x205f, 0x2064), (0x2066, 0x206f),
    (0x3000, 0x3000), (0x3164, 0x3164), (0xe000, 0xf8ff), (0xfeff, 0xfeff), (0xffa0, 0xffa0),
    (0xfff9, 0xfffb), (0x110bd, 0x110bd), (0x110cd, 0x110cd), (0x13430, 0x1343f),
    (0x1bca0, 0x1bca3), (0x1d173, 0x1d17a), (0xe0001, 0xe0001), (0xe0020, 0xe007f),
    (0xf0000, 0xffffd), (0x100000, 0x10fffd)]

def inRanges (ranges : List (Nat × Nat)) (n : Nat) : Bool :=
  ranges.any fun (first, last) => first ≤ n && n ≤ last

/-- The character leaves no mark of its own. -/
def isHidden (c : Char) : Bool :=
  inRanges unseenRanges c.toNat || inRanges markRanges c.toNat || inRanges unassignedRanges c.toNat

def showChar : Char → List Char
  | '\x00' => ['\\', '0']
  | '\t' => ['\\', 't']
  | '\r' => ['\\', 'r']
  | '\n' => ['\\', 'n']
  | '"' => ['\\', '"']
  | '\\' => ['\\', '\\']
  | c => if isHidden c then '\\' :: 'u' :: '{' :: Nat.toDigits 16 c.toNat ++ ['}'] else [c]

def showText (s : String) : String :=
  String.ofList ('"' :: s.toList.flatMap showChar ++ ['"'])

end ClauseLang.Source
