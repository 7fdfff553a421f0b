import Obscura.Text.Letter

/-
  Whole numbers in text. They are written in ASCII digits; they are read with
  blanks around them, a sign, decimal digits of any script and single
  underscores between digits. A text of more than `maxDigits` digits is refused.
-/

namespace Obscura.Number

open Text

def maxDigits : Nat := 4300

def digits (n : Nat) : Chars :=
  Nat.toDigits 10 n

def render (i : Int) : Chars :=
  if i < 0 then '-' :: digits i.natAbs else digits i.natAbs

/-- The blanks that may stand around a number: all but the four separators
from file separator to unit separator. -/
def isPadding (c : Char) : Bool :=
  isBlank c && !(28 ≤ c.toNat && c.toNat ≤ 31)

/-- The values of a run of digits with single underscores between them;
`open` says that the last character was a digit. -/
def digitValues (afterDigit : Bool) : Chars → Option (List Nat)
  | [] => if afterDigit then some [] else none
  | c :: s =>
    if c = '_' then
      if afterDigit then
        match s with
        | [] => none
        | d :: _ => if (decimalValue? d).isSome then digitValues false s else none
      else none
    else match decimalValue? c with
      | none => none
      | some v => (digitValues true s).map (v :: ·)

def ofDigitValues (ds : List Nat) : Nat :=
  ds.foldl (fun n d => n * 10 + d) 0

def readNat? (s : Chars) : Option Nat :=
  match digitValues false s with
  | none => none
  | some ds => if ds.length ≤ maxDigits then some (ofDigitValues ds) else none

def unpad (s : Chars) : Chars :=
  ((s.dropWhile isPadding).reverse.dropWhile isPadding).reverse

def readInt? (s : Chars) : Option Int :=
  match unpad s with
  | '-' :: r => (readNat? r).map fun n => -(n : Int)
  | '+' :: r => (readNat? r).map fun n => (n : Int)
  | r => (readNat? r).map fun n => (n : Int)

end Obscura.Number
