import Obscura.Text.Edit

/-
  Comments. A line comment runs from two slashes to the end of the line, a block
  comment from a slash and a star to the first star and slash behind them; a block
  comment that is never closed is no comment.

  A scan cuts a text into characters of code and whole comments. Removal deletes
  every comment that does not stand inside a string, where the scan takes a place
  to be inside a string if the number of double quotes before it, those behind a
  backslash not counted, is odd.
-/

namespace Obscura.Layout

open Text

def endsLineComment (c : Char) : Bool :=
  c == '\n' || c == '\r'

def closeBlock? : Chars → Option (Chars × Chars)
  | [] => none
  | '*' :: '/' :: s => some (['*', '/'], s)
  | c :: s => (closeBlock? s).map fun p => (c :: p.1, p.2)

def block? : Chars → Option (Chars × Chars)
  | '/' :: '*' :: s => (closeBlock? s).map fun p => ('/' :: '*' :: p.1, p.2)
  | _ => none

def line? : Chars → Option (Chars × Chars)
  | '/' :: '/' :: s =>
    some ('/' :: '/' :: s.takeWhile (!endsLineComment ·), s.dropWhile (!endsLineComment ·))
  | _ => none

def comment? (s : Chars) : Option (Chars × Chars) :=
  match block? s with
  | some p => some p
  | none => line? s

variable {c : Char} {s a r : Chars}

theorem closeBlock?_cons (h : ¬(c = '*' ∧ s.head? = some '/')) :
    closeBlock? (c :: s) = (closeBlock? s).map fun p => (c :: p.1, p.2) := by
  rw [closeBlock?]
  rintro t rfl rfl
  exact h ⟨rfl, rfl⟩

theorem block?_cons (h : ¬(c = '/' ∧ s.head? = some '*')) : block? (c :: s) = none := by
  rw [block?]
  rintro t ⟨⟩
  exact h ⟨rfl, rfl⟩

theorem line?_cons (h : ¬(c = '/' ∧ s.head? = some '/')) : line? (c :: s) = none := by
  rw [line?]
  rintro t ⟨⟩
  exact h ⟨rfl, rfl⟩

theorem closeBlock?_ne_nil (h : closeBlock? s = some (a, r)) : a ≠ [] := by
  rintro rfl
  fun_induction closeBlock? s with
  | case1 => cases h
  | case2 => cases h
  | case3 c s _ _ =>
    obtain ⟨p, -, hp⟩ := Option.map_eq_some_iff.1 h
    cases hp

theorem closeBlock?_append (h : closeBlock? s = some (a, r)) : a ++ r = s := by
  fun_induction closeBlock? s generalizing a r with
  | case1 => simp at h
  | case2 s => simp only [Option.some.injEq, Prod.mk.injEq] at h; simp [← h.1, ← h.2]
  | case3 c s _ ih =>
    obtain ⟨⟨b, t⟩, hb, he⟩ := Option.map_eq_some_iff.1 h
    simp only [Prod.mk.injEq] at he
    simp [← he.1, ← he.2, ih hb]

theorem block?_append (h : block? s = some (a, r)) :
    a ++ r = s ∧ 2 ≤ a.length := by
  fun_cases block? s with
  | case1 s =>
    simp only [block?] at h
    obtain ⟨⟨b, t⟩, hb, he⟩ := Option.map_eq_some_iff.1 h
    simp only [Prod.mk.injEq] at he
    simp [← he.1, ← he.2, closeBlock?_append hb]
  | case2 s h1 => rw [block?] at h <;> simp_all

theorem line?_append (h : line? s = some (a, r)) :
    a ++ r = s ∧ 2 ≤ a.length := by
  fun_cases line? s with
  | case1 s =>
    simp only [line?, Option.some.injEq, Prod.mk.injEq] at h
    simp [← h.1, ← h.2, List.takeWhile_append_dropWhile]
  | case2 s h1 => rw [line?] at h <;> simp_all

/-- A comment, which holds at least its two opening characters, and the text
behind it make up the text. -/
theorem comment?_append (h : comment? s = some (a, r)) :
    a ++ r = s ∧ 2 ≤ a.length := by
  unfold comment? at h
  split at h
  · rename_i p hp
    rw [Option.some.injEq] at h
    exact block?_append (h ▸ hp)
  · exact line?_append h

theorem length_of_append (h : a ++ r = s ∧ 2 ≤ a.length) :
    r.length + 2 ≤ s.length := by
  rw [← h.1, List.length_append]
  omega

inductive Piece where
  | code (c : Char)
  | comment (text : Chars)
deriving Repr, DecidableEq

def Piece.text : Piece → Chars
  | .code c => [c]
  | .comment t => t

def Piece.isComment : Piece → Bool
  | .code _ => false
  | .comment _ => true

/-- A rule that finds comments of some kind at the front of a text. -/
structure Rule where
  find? : Chars → Option (Chars × Chars)
  append : ∀ {s a r : Chars}, find? s = some (a, r) → a ++ r = s ∧ 2 ≤ a.length

namespace Rule

def block : Rule := ⟨block?, block?_append⟩

def line : Rule := ⟨line?, line?_append⟩

def comment : Rule := ⟨comment?, comment?_append⟩

/-- Cut a text into the comments that a rule finds, from left to right, and the
characters between them. -/
def cut (R : Rule) (s : Chars) : List Piece :=
  match s with
  | [] => []
  | c :: t =>
    match _h : R.find? (c :: t) with
    | some (a, r) => .comment a :: R.cut r
    | none => .code c :: R.cut t
termination_by s.length
decreasing_by
  · have := length_of_append (R.append _h); omega
  · simp

def strip (R : Rule) (s : Chars) : Chars :=
  ((R.cut s).filter (!·.isComment)).flatMap Piece.text

end Rule

def pieces (s : Chars) : List Piece :=
  Rule.comment.cut s

def countComments (s : Chars) : Nat :=
  ((pieces s).filter Piece.isComment).length

/-- Where a scan stands: the position, the character before it, and whether the
number of double quotes so far, without those behind a backslash, is odd. -/
structure Place where
  position : Nat
  before : Option Char
  inString : Bool
deriving Repr, DecidableEq

def Place.start : Place := ⟨0, none, false⟩

def Place.step (p : Place) (c : Char) : Place where
  position := p.position + 1
  before := some c
  inString := if c = '"' ∧ p.before ≠ some '\\' then !p.inString else p.inString

def Place.over (p : Place) (s : Chars) : Place :=
  s.foldl Place.step p

def insideString (s : Chars) (i : Int) : Bool :=
  (Place.start.over (upTo s i)).inString

structure Removal where
  start : Nat
  stop : Nat
  text : Chars
deriving Repr, DecidableEq

def removals (p : Place) : List Piece → List Removal
  | [] => []
  | .code c :: ps => removals (p.step c) ps
  | .comment t :: ps =>
    if p.inString then removals (p.over t) ps
    else ⟨p.position, p.position + t.length, t⟩ :: removals (p.over t) ps

/-- The text without the stretches, which are deleted from the last to the first. -/
def cutOut (s : Chars) (ms : List Removal) : Chars :=
  ms.reverse.foldl (fun t m => bracket t m.start m.stop []) s

def removeComments (s : Chars) : Chars × List Removal :=
  let ms := removals .start (pieces s)
  (cutOut s ms, ms)

def stripBlocks (s : Chars) : Chars :=
  Rule.block.strip s

/-- Delete first the block comments and then the line comments of a text in
which no strings are looked for. -/
def stripComments (s : Chars) : Chars :=
  Rule.line.strip (stripBlocks s)

theorem Rule.flatMap_text_cut {R : Rule} : (R.cut s).flatMap Piece.text = s := by
  fun_induction cut R s with
  | case1 => rfl
  | case2 c t a r h ih => rw [List.flatMap_cons, ih]; exact (R.append h).1
  | case3 c t h ih => rw [List.flatMap_cons, ih]; rfl

theorem flatMap_text_pieces (s : Chars) : (pieces s).flatMap Piece.text = s :=
  Rule.flatMap_text_cut

end Obscura.Layout
