import Obscura.Text.Word

/-
  Tokens of code: runs of blanks (one token, written as a single space), names,
  digit runs, hexadecimal numbers, operators of two characters, and single
  characters for all else.
-/

namespace Obscura.Layout

open Text

abbrev Token := Chars

def blank : Token := [' ']

def isHexDigit (c : Char) : Bool :=
  c.isDigit || ('a' ≤ c && c ≤ 'f') || ('A' ≤ c && c ≤ 'F')

def withoutFinalNewline (t : Token) : Token :=
  if t.getLast? = some '\n' then t.dropLast else t

def isAsciiWord (c : Char) : Bool :=
  c.isAlphanum || c == '_'

def isIdentifier (t : Token) : Bool :=
  match withoutFinalNewline t with
  | [] => false
  | c :: s => (c.isAlpha || c == '_') && s.all isAsciiWord

def isNumber (t : Token) : Bool :=
  match withoutFinalNewline t with
  | [] => false
  | '0' :: 'x' :: s => !s.isEmpty && s.all isHexDigit
  | s => s.all isDecimal

/-- A name or a number: two such tokens need a space between them. -/
def isWordToken (t : Token) : Bool :=
  isIdentifier t || isNumber t

def operators : List Token :=
  ["==", "!=", "<=", ">=", "+=", "-=", "*=", "/=", "&&", "||", "<<", ">>", "=>", "->", "::",
    "%="].map String.toList

def continuesName (c : Char) : Bool :=
  isAlnum c || c == '_'

def takeToken (c : Char) (s : Chars) : Token × Chars :=
  if isBlank c then (blank, s.dropWhile isBlank)
  else if isLetter c || c == '_' then
    (c :: s.takeWhile continuesName, s.dropWhile continuesName)
  else if isFigure c then
    match c, s with
    | '0', 'x' :: t => ('0' :: 'x' :: t.takeWhile isHexDigit, t.dropWhile isHexDigit)
    | '0', 'X' :: t => ('0' :: 'X' :: t.takeWhile isHexDigit, t.dropWhile isHexDigit)
    | c, s => (c :: s.takeWhile isFigure, s.dropWhile isFigure)
  else
    match s with
    | [] => ([c], [])
    | d :: t => if operators.contains [c, d] then ([c, d], t) else ([c], d :: t)

theorem length_dropWhile_le {α : Type _} (p : α → Bool) (s : List α) :
    (s.dropWhile p).length ≤ s.length :=
  (List.dropWhile_suffix p).length_le

theorem takeToken_length (c : Char) (s : Chars) : (takeToken c s).2.length ≤ s.length := by
  unfold takeToken
  split
  · exact length_dropWhile_le ..
  split
  · exact length_dropWhile_le ..
  split
  · split
    · exact Nat.le_trans (length_dropWhile_le ..) (Nat.le_succ _)
    · exact Nat.le_trans (length_dropWhile_le ..) (Nat.le_succ _)
    · exact length_dropWhile_le ..
  split
  · exact Nat.le_refl _
  split
  · exact Nat.le_succ _
  · exact Nat.le_refl _

def tokens (s : Chars) : List Token :=
  match s with
  | [] => []
  | c :: t => (takeToken c t).1 :: tokens (takeToken c t).2
termination_by s.length
decreasing_by
  have := takeToken_length c t
  simp only [List.length_cons]
  omega

/-! ## Spacing -/

/-- Tokens behind which a blank is dropped. -/
def tight : List Token :=
  ["(", "\x7b", "[", ".", ",", ";"].map String.toList

/-- Closing brackets behind which a name or number is set off. -/
def closers : List Token :=
  [")", "\x7d"].map String.toList

def needsSpace (a b : Token) : Bool :=
  isWordToken b && (isWordToken a || closers.contains a)

/-- A space is written between `a` and `b`: if they were apart, unless `a` is a
tight token; if they touched, where they need one. -/
def spaceBetween (apart : Bool) (a b : Token) : Bool :=
  if apart then !tight.contains a else needsSpace a b

/-- The text behind the token `last`; `apart` says that blanks have been seen
since. -/
def respaceAfter (last : Token) (apart : Bool) : List Token → Chars
  | [] => []
  | t :: ts =>
    if t = blank then respaceAfter last true ts
    else (if spaceBetween apart last t then [' '] else []) ++ t ++ respaceAfter t false ts

/-- The text of a list of tokens, spaced anew; blanks at both ends are
dropped. -/
def respace : List Token → Chars
  | [] => []
  | t :: ts => if t = blank then respace ts else t ++ respaceAfter t false ts

/-! ## Segments -/

inductive Segment where
  | code (text : Chars)
  | quoted (text : Chars)
deriving Repr, DecidableEq

def Segment.text : Segment → Chars
  | .code t => t
  | .quoted t => t

def Segment.isQuoted : Segment → Bool
  | .code _ => false
  | .quoted _ => true

def isQuote (c : Char) : Bool :=
  c == '\'' || c == '"'

/-- Cut a text behind the quote `q` that closes a literal; a backslash takes the
next character with it. -/
def closeQuote (q : Char) : Chars → Chars × Chars
  | [] => ([], [])
  | '\\' :: c :: s => ('\\' :: c :: (closeQuote q s).1, (closeQuote q s).2)
  | c :: s => if c = q then ([c], s) else (c :: (closeQuote q s).1, (closeQuote q s).2)

theorem closeQuote_append (q : Char) (s : Chars) :
    (closeQuote q s).1 ++ (closeQuote q s).2 = s := by
  fun_induction closeQuote q s with
  | case1 => rfl
  | case2 c s ih => simp [ih]
  | case3 s _ => simp
  | case4 c s _ h ih => simp [ih]

theorem closeQuote_length (q : Char) (s : Chars) : (closeQuote q s).2.length ≤ s.length := by
  have := congrArg List.length (closeQuote_append q s)
  rw [List.length_append] at this
  omega

def segments (s : Chars) : List Segment :=
  match s with
  | [] => []
  | c :: t =>
    if isQuote c then .quoted (c :: (closeQuote c t).1) :: segments (closeQuote c t).2
    else .code (c :: t.takeWhile (!isQuote ·)) :: segments (t.dropWhile (!isQuote ·))
termination_by s.length
decreasing_by
  · have := closeQuote_length c t; simp only [List.length_cons]; omega
  · have := (List.dropWhile_suffix (l := t) (!isQuote ·)).length_le
    simp only [List.length_cons]; omega

end Obscura.Layout
