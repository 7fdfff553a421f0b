import Obscura.Text.Utf8

/-
  Sets of code points given as closed ranges. A character class that a standard
  lists beyond ASCII is one such list, and membership is a scan of it.
-/

namespace Obscura.Text

abbrev Ranges := List (Nat × Nat)

namespace Ranges

/-- The ranges behind `n` with given lengths: how many code points lie before a
range and how many in it, by turns. -/
def ofLengths (n : Nat) : List Nat → Ranges
  | gap :: size :: t => (n + gap, n + gap + size - 1) :: ofLengths (n + gap + size) t
  | _ => []

def mem (t : Ranges) (n : Nat) : Bool :=
  t.any fun r => r.1 ≤ n && n ≤ r.2

theorem mem_eq_true {t : Ranges} {n : Nat} :
    mem t n = true ↔ ∃ r ∈ t, r.1 ≤ n ∧ n ≤ r.2 := by
  simp [mem, List.any_eq_true]

end Ranges

/-! ## Blanks -/

def blankRanges : Ranges :=
  [(133, 133), (160, 160), (5760, 5760), (8192, 8202), (8232, 8233), (8239, 8239),
   (8287, 8287), (12288, 12288)]

def isBlank (c : Char) : Bool :=
  (9 ≤ c.toNat && c.toNat ≤ 13) || (28 ≤ c.toNat && c.toNat ≤ 32) || blankRanges.mem c.toNat

def trimLeft (s : Chars) : Chars :=
  s.dropWhile isBlank

def trimRight (s : Chars) : Chars :=
  (s.reverse.dropWhile isBlank).reverse

def trim (s : Chars) : Chars :=
  trimRight (trimLeft s)

end Obscura.Text
