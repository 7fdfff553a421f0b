import Obscura.Text.Find
import Obscura.Text.Letter

/-
  Words: maximal runs of letters, numerals and the underscore. A word boundary
  is a place between a word character and something else, or an end of the text.
-/

namespace Obscura.Text

def isAlnum (c : Char) : Bool :=
  isLetter c || isNumeral c

def isWord (c : Char) : Bool :=
  isAlnum c || c == '_'

def isWordAt : Option Char → Bool
  | none => false
  | some c => isWord c

def isBoundary (before after : Option Char) : Bool :=
  isWordAt before != isWordAt after

@[simp] theorem isWordAt_none : isWordAt none = false := rfl

@[simp] theorem isWordAt_some (c : Char) : isWordAt (some c) = isWord c := rfl

/-! ## Whole words -/

def wordAhead (name : Chars) (before : Option Char) (s : Chars) : Bool :=
  match stripFront? name s with
  | none => false
  | some r => isBoundary before s.head? && isBoundary (name.getLast?.or before) r.head?

theorem wordAhead_length {name s : Chars} {before : Option Char}
    (h : wordAhead name before s = true) : name.length ≤ s.length := by
  unfold wordAhead at h
  split at h
  · simp at h
  · next r hr => have := length_of_stripFront? hr; omega

def replaceWord (name x : Chars) (before : Option Char) (s : Chars) : Chars :=
  match s with
  | [] => []
  | c :: t =>
    if _h : name ≠ [] ∧ wordAhead name before (c :: t) = true then
      x ++ replaceWord name x name.getLast? ((c :: t).drop name.length)
    else c :: replaceWord name x (some c) t
termination_by s.length
decreasing_by
  · have := List.length_pos_iff.2 _h.1
    simp only [List.length_drop, List.length_cons]
    omega
  · simp

/-! ## Chunks -/

inductive Chunk where
  | word (text : Chars)
  | mark (c : Char)
deriving Repr, DecidableEq

def Chunk.text : Chunk → Chars
  | .word t => t
  | .mark c => [c]

def chunks (s : Chars) : List Chunk :=
  match s with
  | [] => []
  | c :: t =>
    if isWord c then .word (c :: t.takeWhile isWord) :: chunks (t.dropWhile isWord)
    else .mark c :: chunks t
termination_by s.length
decreasing_by
  · have := (List.dropWhile_suffix (l := t) isWord).length_le
    simp only [List.length_cons]
    omega
  · simp

theorem flatMap_text_chunks (s : Chars) : (chunks s).flatMap Chunk.text = s := by
  fun_induction chunks s with
  | case1 => rfl
  | case2 c t h ih => simp [Chunk.text, ih, List.takeWhile_append_dropWhile]
  | case3 c t h ih => simp [Chunk.text, ih]

/-! ## Marks -/

/-- Mark the pieces of a text that `find?` recognises. A recogniser that takes
nothing is ignored. -/
def marks (find? : Chars → Option Chars) (s : Chars) : List Bool :=
  match s with
  | [] => []
  | c :: t =>
    match find? (c :: t) with
    | some r =>
      if r.length < (c :: t).length then
        List.replicate ((c :: t).length - r.length) true ++ marks find? r
      else false :: marks find? t
    | none => false :: marks find? t
termination_by s.length
decreasing_by all_goals first | assumption | simp

def orMarks (a b : List Bool) : List Bool :=
  List.zipWith (· || ·) a b

/-! ## Spans -/

structure Span where
  start : Nat
  stop : Nat
  text : Chars
deriving Repr, DecidableEq

abbrev Recogniser := Option Char → Chars → Option Chars

def spansFrom (find? : Recogniser) (before : Option Char) (p : Nat) (s : Chars) : List Span :=
  match s with
  | [] => []
  | c :: t =>
    match find? before (c :: t) with
    | some r =>
      if r.length < (c :: t).length then
        let n := (c :: t).length - r.length
        let piece := (c :: t).take n
        ⟨p, p + n, piece⟩ :: spansFrom find? piece.getLast? (p + n) r
      else spansFrom find? (some c) (p + 1) t
    | none => spansFrom find? (some c) (p + 1) t
termination_by s.length
decreasing_by all_goals first | assumption | simp

def spans (find? : Recogniser) (s : Chars) : List Span :=
  spansFrom find? none 0 s

def wordWhere (q : Chars → Bool) : Recogniser := fun before s =>
  if isWordAt before then none
  else
    let w := s.takeWhile isWord
    if !w.isEmpty && q w then some (s.dropWhile isWord) else none

def inSpans (ss : List Span) (p : Nat) : Bool :=
  ss.any fun s => s.start ≤ p && p < s.stop

end Obscura.Text
