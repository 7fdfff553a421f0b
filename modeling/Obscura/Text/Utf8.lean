/-
  Bytes of a text. A text is written as UTF-8; bytes are read back either
  strictly, or with one replacement character for each longest piece that starts
  like a character and is none.
-/

/-- A text, character by character. -/
abbrev Obscura.Chars := List Char

namespace Obscura.Text

abbrev Bytes := List UInt8

def encodeChar (c : Char) : Bytes :=
  let n := c.toNat
  if n < 0x80 then [UInt8.ofNat n]
  else if n < 0x800 then [UInt8.ofNat (0xC0 + n / 64), UInt8.ofNat (0x80 + n % 64)]
  else if n < 0x10000 then
    [UInt8.ofNat (0xE0 + n / 4096), UInt8.ofNat (0x80 + n / 64 % 64), UInt8.ofNat (0x80 + n % 64)]
  else
    [UInt8.ofNat (0xF0 + n / 262144), UInt8.ofNat (0x80 + n / 4096 % 64),
      UInt8.ofNat (0x80 + n / 64 % 64), UInt8.ofNat (0x80 + n % 64)]

def encode (s : Chars) : Bytes :=
  s.flatMap encodeChar

def isTail (b : UInt8) : Bool :=
  0x80 ≤ b.toNat && b.toNat < 0xC0

/-- The byte may follow the first byte `lead` of a character: it goes on with
the character, which is then neither written too long, nor a surrogate, nor
beyond the last code point. -/
def isSecond (lead b : UInt8) : Bool :=
  isTail b
    && !(lead == 0xE0 && b.toNat < 0xA0) && !(lead == 0xED && 0xA0 ≤ b.toNat)
    && !(lead == 0xF0 && b.toNat < 0x90) && !(lead == 0xF4 && 0x90 ≤ b.toNat)

def readTails : Nat → Nat → Bytes → Option Nat × Bytes
  | 0, acc, s => (some acc, s)
  | _ + 1, _, [] => (none, [])
  | k + 1, acc, b :: s =>
    if isTail b then readTails k (acc * 64 + b.toNat % 64) s else (none, b :: s)

/-- Read a character of several bytes: its first byte `lead` gives the bits
`acc`, and `k` bytes follow the second one. -/
def readLong (lead : UInt8) (acc k : Nat) : Bytes → Option Nat × Bytes
  | [] => (none, [])
  | b :: s => if isSecond lead b then readTails k (acc * 64 + b.toNat % 64) s else (none, b :: s)

/-- Read one character whose first byte is `lead`, or `none` if there is none,
and what remains behind the bytes looked at. -/
def readChar (lead : UInt8) (s : Bytes) : Option Nat × Bytes :=
  let n := lead.toNat
  if n < 0x80 then (some n, s)
  else if n < 0xC2 then (none, s)
  else if n < 0xE0 then readLong lead (n - 0xC0) 0 s
  else if n < 0xF0 then readLong lead (n - 0xE0) 1 s
  else if n < 0xF5 then readLong lead (n - 0xF0) 2 s
  else (none, s)

theorem readTails_length (k acc : Nat) (s : Bytes) :
    (readTails k acc s).2.length ≤ s.length := by
  fun_induction readTails k acc s with
  | case1 => simp
  | case2 => simp
  | case3 k acc b s h ih => simp only [List.length_cons]; omega
  | case4 => simp

theorem readLong_length (lead : UInt8) (acc k : Nat) (s : Bytes) :
    (readLong lead acc k s).2.length ≤ s.length := by
  fun_cases readLong lead acc k s with
  | case1 => simp
  | case2 b s h => have := readTails_length k (acc * 64 + b.toNat % 64) s; simp only [List.length_cons]; omega
  | case3 => simp

theorem readChar_length (lead : UInt8) (s : Bytes) :
    (readChar lead s).2.length ≤ s.length := by
  unfold readChar
  dsimp only
  repeat' split
  all_goals first | exact Nat.le_refl _ | exact readLong_length ..

def readChars (s : Bytes) : List (Option Char) :=
  match s with
  | [] => []
  | lead :: r => (readChar lead r).1.map Char.ofNat :: readChars (readChar lead r).2
termination_by s.length
decreasing_by
  have := readChar_length lead r
  simp only [List.length_cons]
  omega

def decode? (s : Bytes) : Option Chars :=
  (readChars s).mapM id

/-- The text that the bytes stand for, with a replacement character for each
piece that is no character. -/
def decodeLossy (s : Bytes) : Chars :=
  (readChars s).map fun c => c.getD (Char.ofNat 0xFFFD)

/-! ## Halves of pairs -/

def halfOffset : Nat := 0xD0000

def isHalfUnit (u : Nat) : Bool :=
  0xD800 ≤ u && u < 0xE000

def halfChar (u : Nat) : Char :=
  Char.ofNat (halfOffset + u)

def isHalf (c : Char) : Bool :=
  halfOffset ≤ c.toNat && isHalfUnit (c.toNat - halfOffset)

/-- The unit that a stand-in stands for, or the code of another character. -/
def codePoint (c : Char) : Nat :=
  if isHalf c then c.toNat - halfOffset else c.toNat

end Obscura.Text
