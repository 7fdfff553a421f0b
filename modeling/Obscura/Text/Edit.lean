import Obscura.Text.Utf8

/-
  Edits of bytes. Edits are put in from the last to the first, so that those
  still to come find the bytes in front of them where they were.
-/

namespace Obscura.Text

/-! ## Cuts -/

variable {α : Type _}

/-- The place in a list of `n` items that a signed position stands for. -/
def place (n : Nat) (i : Int) : Nat :=
  if i < 0 then (i + n).toNat else min i.toNat n

def upTo (s : List α) (i : Int) : List α :=
  s.take (place s.length i)

def fromPos (s : List α) (i : Int) : List α :=
  s.drop (place s.length i)

/-- The items from `i` up to `j`; none if `j` does not lie after `i`. -/
def slice (s : List α) (i j : Int) : List α :=
  (s.take (place s.length j)).drop (place s.length i)

/-- Put `x` in the place of the items from `i` up to `j`. If `j` lies before
`i`, nothing is removed and `x` is inserted at `i`. -/
def splice (s : List α) (i j : Int) (x : List α) : List α :=
  let a := place s.length i
  s.take a ++ x ++ s.drop (max a (place s.length j))

/-- Glue `x` between the items before `i` and those from `j` on. If `j` lies
before `i`, the items between them stand on both sides of `x`. -/
def bracket (s : List α) (i j : Int) (x : List α) : List α :=
  upTo s i ++ x ++ fromPos s j

theorem place_le (n : Nat) (i : Int) : place n i ≤ n := by
  unfold place
  split <;> omega

@[simp] theorem place_ofNat_of_le {n k : Nat} (h : k ≤ n) : place n (k : Int) = k := by
  unfold place
  split <;> omega

theorem place_ofNat (n k : Nat) : place n (k : Int) = min k n := by
  unfold place
  split <;> omega

theorem splice_eq_bracket {s : List α} {a b : Nat} (hab : a ≤ b) (hb : b ≤ s.length)
    (x : List α) : splice s a b x = bracket s a b x := by
  simp [splice, bracket, upTo, fromPos, place_ofNat_of_le hb,
    place_ofNat_of_le (Nat.le_trans hab hb), Nat.max_eq_right hab]

/-! ## Edits -/

structure Edit where
  start : Int
  stop : Int
  text : Bytes
deriving Repr, DecidableEq

namespace Edit

/-- The edits in the order in which they are put in: later starts first, and of
one start in the given order. -/
def ordered (edits : List Edit) : List Edit :=
  edits.mergeSort fun a b => decide (b.start ≤ a.start)

/-- Put one edit in by gluing the text between what stands before its start and
what stands behind its end. -/
def glue (s : Bytes) (e : Edit) : Bytes :=
  bracket s e.start e.stop e.text

/-- Cut the range of an edit out and insert its text. An edit that starts behind
the end is left out. -/
def cut (s : Bytes) (e : Edit) : Bytes :=
  if e.start ≤ s.length then
    splice (splice s e.start e.stop []) e.start e.start e.text
  else s

def glueAll (s : Bytes) (edits : List Edit) : Bytes :=
  (ordered edits).foldl glue s

def cutAll (s : Bytes) (edits : List Edit) : Bytes :=
  (ordered edits).foldl cut s

/-- For a range that lies in the bytes, cutting and gluing are the same. -/
theorem cut_eq_glue {s : Bytes} {a b : Nat} (hab : a ≤ b) (hb : b ≤ s.length) (x : Bytes) :
    cut s ⟨a, b, x⟩ = glue s ⟨a, b, x⟩ := by
  have ha : a ≤ s.length := Nat.le_trans hab hb
  have hl : a ≤ (s.take a ++ s.drop b).length := by simp; omega
  have hc : (a : Int) ≤ (s.length : Int) := by exact_mod_cast ha
  simp only [cut, glue, hc, if_true]
  rw [splice_eq_bracket hab hb, bracket, upTo, fromPos, place_ofNat_of_le ha,
    place_ofNat_of_le hb, List.append_nil, splice_eq_bracket (Nat.le_refl a) hl]
  simp only [bracket, upTo, fromPos, place_ofNat_of_le hl, place_ofNat_of_le ha,
    place_ofNat_of_le hb]
  have hlen : (s.take a).length = a := by simp; omega
  rw [List.take_append_of_le_length (by omega), List.drop_append_of_le_length (by omega)]
  simp [List.take_take]

end Edit

end Obscura.Text
