import Obscura.Text.Find
import Obscura.Text.Ranges

/-
  Lines. Two notions are needed: the lines of a text in the sense of the Unicode
  standard, where ten characters and the pair carriage return, line feed end a
  line; and the newline of a file, where only those of the file system count.
-/

namespace Obscura.Text

def isLineEnd (c : Char) : Bool :=
  (10 ≤ c.toNat && c.toNat ≤ 13) || (28 ≤ c.toNat && c.toNat ≤ 30) ||
    c.toNat == 0x85 || c.toNat == 0x2028 || c.toNat == 0x2029

def consLine (c : Char) : List Chars → List Chars
  | [] => [[c]]
  | l :: ls => (c :: l) :: ls

/-- The lines of a text, each with the characters that end it. The last line may
lack them; there is no empty last line. -/
def linesKeepEnds : Chars → List Chars
  | [] => []
  | '\r' :: '\n' :: s => ['\r', '\n'] :: linesKeepEnds s
  | c :: s => if isLineEnd c then [c] :: linesKeepEnds s else consLine c (linesKeepEnds s)

def chomp (l : Chars) : Chars :=
  l.takeWhile fun c => !isLineEnd c

def lines (s : Chars) : List Chars :=
  (linesKeepEnds s).map chomp

/-- Read every newline of a file as a line feed: a carriage return and line
feed together, or a carriage return alone. -/
def unifyNewlines : Chars → Chars
  | [] => []
  | '\r' :: '\n' :: s => '\n' :: unifyNewlines s
  | c :: s => (if c = '\r' then '\n' else c) :: unifyNewlines s

theorem flatten_consLine (c : Char) (ls : List Chars) :
    (consLine c ls).flatten = c :: ls.flatten := by
  cases ls <;> rfl

theorem flatten_linesKeepEnds (s : Chars) : (linesKeepEnds s).flatten = s := by
  fun_induction linesKeepEnds s with
  | case1 => rfl
  | case2 s ih => simp [ih]
  | case3 c s _ h ih => simp [ih]
  | case4 c s _ h ih => simp [flatten_consLine, ih]

/-! ## Margins -/

def isGapChar (c : Char) : Bool :=
  c == ' ' || c == '\t'

def commonFront : Chars → Chars → Chars
  | a :: s, b :: t => if a = b then a :: commonFront s t else []
  | _, _ => []

/-- The longest run of spaces and tabs that all lines start with, empty ones
apart. -/
def marginOf : List Chars → Option Chars
  | [] => none
  | [] :: ls => marginOf ls
  | l :: ls =>
    let own := l.takeWhile isGapChar
    match marginOf ls with
    | some m => some (commonFront own m)
    | none => some own

/-- Take the common margin away from all lines; lines of spaces and tabs only
become empty. -/
def dedent (s : Chars) : Chars :=
  let ls := (splitAt '\n' s).map fun l => if l.all isGapChar then [] else l
  let m := (marginOf ls).getD []
  joinWith ['\n'] (ls.map fun l => (stripFront? m l).getD l)

def indent (margin s : Chars) : Chars :=
  (linesKeepEnds s).flatMap fun l => if (trim l).isEmpty then l else margin ++ l

end Obscura.Text
