import Obscura.Text.Utf8

/-
  Looking for one list inside another, and replacing what is found. All searches
  run from left to right, and a replacement goes on behind the piece it replaced.
-/

namespace Obscura.Text

variable {α : Type _} [BEq α]

def stripFront? : List α → List α → Option (List α)
  | [], s => some s
  | _ :: _, [] => none
  | a :: p, b :: s => if a == b then stripFront? p s else none

def startsWith (p s : List α) : Bool :=
  (stripFront? p s).isSome

def endsWith (p s : List α) : Bool :=
  startsWith p.reverse s.reverse

def findIdx? (p : List α) : List α → Option Nat
  | [] => if p.isEmpty then some 0 else none
  | b :: s => if startsWith p (b :: s) then some 0 else (findIdx? p s).map (· + 1)

def findFrom? (p s : List α) (i : Nat) : Option Nat :=
  if i ≤ s.length then (findIdx? p (s.drop i)).map (· + i) else none

def occurs (p s : List α) : Bool :=
  (findIdx? p s).isSome

theorem length_of_stripFront? {p s r : List α} (h : stripFront? p s = some r) :
    s.length = p.length + r.length := by
  induction p generalizing s with
  | nil => simp only [stripFront?, Option.some.injEq] at h; simp [h]
  | cons a p ih =>
    cases s with
    | nil => simp [stripFront?] at h
    | cons b s =>
      simp only [stripFront?] at h
      split at h
      · have := ih h; simp only [List.length_cons]; omega
      · simp at h

/-- Replace every occurrence of the non-empty `p`, the first ones first. -/
def replaceAll (p x : List α) (hp : p ≠ []) (s : List α) : List α :=
  match s with
  | [] => []
  | b :: t =>
    match _h : stripFront? p (b :: t) with
    | some r => x ++ replaceAll p x hp r
    | none => b :: replaceAll p x hp t
termination_by s.length
decreasing_by
  · have := length_of_stripFront? _h
    have : 0 < p.length := List.length_pos_iff.2 hp
    omega
  · simp

def replaceFirst (p x : List α) : List α → List α
  | [] => if p.isEmpty then x else []
  | b :: s =>
    match stripFront? p (b :: s) with
    | some r => x ++ r
    | none => b :: replaceFirst p x s

def splitAt (sep : α) : List α → List (List α)
  | [] => [[]]
  | b :: s =>
    if b == sep then [] :: splitAt sep s
    else match splitAt sep s with
      | [] => [[b]]
      | l :: ls => (b :: l) :: ls

def joinWith (sep : List α) : List (List α) → List α
  | [] => []
  | [l] => l
  | l :: ls => l ++ sep ++ joinWith sep ls

/-! ## Words in any case -/

/-- `c` is the small letter `l` in some case. -/
def sameLetter (l c : Char) : Bool :=
  c.toLower == l
    || (l == 'i' && (c.toNat == 0x130 || c.toNat == 0x131))
    || (l == 's' && c.toNat == 0x17F)
    || (l == 'k' && c.toNat == 0x212A)

/-- Strip a word of small letters from the front, in whatever case it is
written. -/
def stripCaseless? : Chars → Chars → Option Chars
  | [], s => some s
  | _ :: _, [] => none
  | l :: w, c :: s => if sameLetter l c then stripCaseless? w s else none

theorem length_of_stripCaseless? {w s r : Chars} (h : stripCaseless? w s = some r) :
    s.length = w.length + r.length := by
  induction w generalizing s with
  | nil => simp only [stripCaseless?, Option.some.injEq] at h; simp [h]
  | cons l w ih =>
    cases s with
    | nil => simp [stripCaseless?] at h
    | cons c s =>
      simp only [stripCaseless?] at h
      split at h
      · have := ih h; simp only [List.length_cons]; omega
      · simp at h

/-! ## Paths -/

def lastPart (path : Chars) : Chars :=
  (path.reverse.takeWhile (· != '/')).reverse

/-- The path without the last extension of its last part. Dots that a part
starts with do not begin an extension. -/
def withoutExtension (path : Chars) : Chars :=
  let file := lastPart path
  let dots := file.takeWhile (· == '.')
  let rest := file.dropWhile (· == '.')
  if rest.contains '.' then
    let tail := (rest.reverse.takeWhile (· != '.')).length
    path.take (path.length - file.length) ++ dots ++ rest.take (rest.length - tail - 1)
  else path

/-- What stands before the last part, without the slashes between the two. -/
def directoryOf (path : Chars) : Chars :=
  let head := path.take (path.length - (lastPart path).length)
  if head.all (· == '/') then head else (head.reverse.dropWhile (· == '/')).reverse

def inDirectory (dir file : Chars) : Chars :=
  if dir.isEmpty || dir.getLast? = some '/' then dir ++ file else dir ++ ['/'] ++ file

end Obscura.Text
