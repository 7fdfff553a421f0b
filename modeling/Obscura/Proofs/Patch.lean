import Mathlib.Data.List.Nodup
import Obscura.Text.Edit

/-
  Replacing several pieces of a list at once. Putting pieces in one by one from the
  last to the first gives the same (`foldl_reverse_eq_patched`), and sorting by
  later starts first is that order (`mergeSort_eq_reverse`).
-/

namespace Obscura.Text

open List

variable {n p : Nat}

/-- A piece of a list, and what is to stand in its place. -/
structure Patch (α : Type) where
  start : Nat
  stop : Nat
  text : List α

variable {α : Type}

/-- The list `s`, whose first item has the position `p`, with every piece replaced.
Pieces are given from left to right and do not overlap. -/
def patched (p : Nat) (s : List α) : List (Patch α) → List α
  | [] => s
  | e :: es => s.take (e.start - p) ++ (e.text ++ patched e.stop (s.drop (e.stop - p)) es)

variable {es : List (Patch α)}

theorem patched_append (u s : List α)
    (h : ∀ e ∈ es, p + u.length ≤ e.start ∧ e.start ≤ e.stop) :
    patched p (u ++ s) es = u ++ patched (p + u.length) s es := by
  cases es with
  | nil => rfl
  | cons e es =>
    obtain ⟨hstart, hstop⟩ := h e mem_cons_self
    have htake : (u ++ s).take (e.start - p) = u ++ s.take (e.start - (p + u.length)) := by
      rw [take_append, take_of_length_le (by omega), Nat.sub_sub]
    have hdrop : (u ++ s).drop (e.stop - p) = s.drop (e.stop - (p + u.length)) := by
      rw [drop_append, drop_of_length_le (by omega), nil_append, Nat.sub_sub]
    rw [patched, patched, htake, hdrop, append_assoc]

/-! ## One after the other -/

/-- The list with one piece replaced. -/
def Patch.put (e : Patch α) (s : List α) : List α :=
  s.take e.start ++ (e.text ++ s.drop e.stop)

/-- The pieces lie between `p` and `n`, from left to right, and do not overlap. -/
def InOrder (n : Nat) : Nat → List (Patch α) → Prop
  | p, [] => p ≤ n
  | p, e :: es => p ≤ e.start ∧ e.start ≤ e.stop ∧ InOrder n e.stop es

theorem InOrder.le (h : InOrder n p es) : p ≤ n := by
  induction es generalizing p with
  | nil => exact h
  | cons e es ih => exact Nat.le_trans h.1 (Nat.le_trans h.2.1 (ih h.2.2))

variable {e : Patch α}

theorem InOrder.le_start (h : InOrder n p es)
    (he : e ∈ es) : p ≤ e.start ∧ e.start ≤ e.stop := by
  induction es generalizing p with
  | nil => cases he
  | cons d es ih =>
    obtain ⟨hp, hle, hrest⟩ := h
    rcases mem_cons.1 he with rfl | he
    · exact ⟨hp, hle⟩
    · have := ih hrest he
      omega

theorem InOrder.mono {q : Nat} (h : InOrder n q es) (hp : p ≤ q) :
    InOrder n p es := by
  cases es with
  | nil => exact Nat.le_trans hp h
  | cons e es => exact ⟨Nat.le_trans hp h.1, h.2⟩

theorem slice_middle (u t v : List α) :
    slice (u ++ (t ++ v)) u.length (u.length + t.length : Nat) = t := by
  have hle : u.length + t.length ≤ (u ++ (t ++ v)).length := by
    rw [length_append, length_append]
    omega
  rw [slice, place_ofNat_of_le hle, place_ofNat_of_le (Nat.le_trans (Nat.le_add_right _ _) hle),
    take_append, take_of_length_le (Nat.le_add_right _ _), Nat.add_sub_cancel_left,
    take_left, drop_left]

variable {s : List α}

theorem bracket_eq_put (h : e.start ≤ e.stop) (hs : e.stop ≤ s.length) :
    bracket s e.start e.stop e.text = e.put s := by
  rw [bracket, upTo, fromPos, place_ofNat_of_le hs, place_ofNat_of_le (Nat.le_trans h hs),
    Patch.put, append_assoc]

theorem splice_eq_put (h : e.start ≤ e.stop) (hs : e.stop ≤ s.length) :
    splice s e.start e.stop e.text = e.put s := by
  rw [splice_eq_bracket h hs, bracket_eq_put h hs]

section Puts

variable {g : List α → Patch α → List α}
  (hg : ∀ (t : List α) (e : Patch α), e.start ≤ e.stop → e.stop ≤ t.length → g t e = e.put t)

include hg

theorem foldr_eq_patched (h : InOrder s.length p es) :
    es.foldr (fun e t => g t e) s = s.take p ++ patched p (s.drop p) es := by
  induction es generalizing p with
  | nil => exact (take_append_drop p s).symm
  | cons e es ih =>
    obtain ⟨hp, hle, hrest⟩ := h
    have hstop := hrest.le
    have hlen : (s.take e.stop).length = e.stop := length_take_of_le hstop
    have htake : s.take p ++ (s.drop p).take (e.start - p) = s.take e.start := by
      rw [← take_add, Nat.add_sub_cancel' hp]
    have hdrop : (s.drop p).drop (e.stop - p) = s.drop e.stop := by
      rw [drop_drop, Nat.add_sub_cancel' (Nat.le_trans hp hle)]
    rw [foldr_cons, ih hrest, hg _ e hle (by rw [length_append, hlen]; omega), Patch.put,
      take_append_of_le_length (by rw [hlen]; exact hle), take_take, Nat.min_eq_left hle,
      drop_append_of_le_length (Nat.le_of_eq hlen.symm),
      drop_eq_nil_of_le (Nat.le_of_eq hlen), nil_append, patched, hdrop, ← htake,
      append_assoc]

/-- **Pieces put in from the last to the first** are all replaced. -/
theorem foldl_reverse_eq_patched (h : InOrder s.length 0 es) :
    es.reverse.foldl g s = patched 0 s es := by
  rw [foldl_reverse, foldr_eq_patched hg h]
  rfl

end Puts

theorem inOrder_of_pairwise (hle : ∀ e ∈ es, e.start ≤ e.stop ∧ e.stop ≤ n)
    (h : es.Pairwise fun a b => a.stop ≤ b.start) {p : Nat} (hp : ∀ e ∈ es, p ≤ e.start) (hn : p ≤ n) :
    InOrder n p es := by
  induction es generalizing p with
  | nil => exact hn
  | cons e es ih =>
    obtain ⟨hfirst, hrest⟩ := pairwise_cons.1 h
    obtain ⟨hstart, hstop⟩ := hle e mem_cons_self
    exact ⟨hp e mem_cons_self, hstart, ih (fun f hf => hle f (.tail _ hf)) hrest hfirst hstop⟩

/-- A replaced piece stands between what becomes of the list in front of it and of
the list behind it. -/
theorem patched_append_cons {es fs : List (Patch α)}
    (h : InOrder n p (es ++ e :: fs)) :
    patched p s (es ++ e :: fs) =
      patched p (s.take (e.start - p)) es ++ (e.text ++ patched e.stop (s.drop (e.stop - p)) fs) := by
  induction es generalizing p s with
  | nil => rfl
  | cons d es ih =>
    obtain ⟨hp, hle, hrest⟩ := h
    have hlast := hrest.le_start (mem_append_right es mem_cons_self)
    rw [cons_append, patched, ih hrest, patched, take_take, drop_take, drop_drop]
    have hmin : min (d.start - p) (e.start - p) = d.start - p := by omega
    have hsub : e.start - p - (d.stop - p) = e.start - d.stop := by omega
    have hadd : d.stop - p + (e.stop - d.stop) = e.stop - p := by omega
    rw [hmin, hsub, hadd, append_assoc, append_assoc]

theorem eq_of_append_cons {a : α} {x y u v : List α} (hu : a ∉ u) (hv : a ∉ v)
    (h : x ++ a :: u = y ++ a :: v) : u = v := by
  rcases append_eq_append_iff.1 h with ⟨w, -, hw⟩ | ⟨w, -, hw⟩
  · cases w with
    | nil => exact (cons.inj hw).2
    | cons b w => exact absurd ((cons.inj hw).2 ▸ mem_append_right w mem_cons_self) hu
  · cases w with
    | nil => exact (cons.inj hw).2.symm
    | cons b w => exact absurd ((cons.inj hw).2 ▸ mem_append_right w mem_cons_self) hv

section Later

variable {β : Type} (f : β → Int)

theorem later_trans (a b c : β) (hab : decide (f b ≤ f a) = true) (hbc : decide (f c ≤ f b) = true) :
    decide (f c ≤ f a) = true :=
  decide_eq_true (Int.le_trans (of_decide_eq_true hbc) (of_decide_eq_true hab))

theorem later_total (a b : β) : (decide (f b ≤ f a) || decide (f a ≤ f b)) = true := by
  rcases Int.le_total (f b) (f a) with h | h
  · rw [decide_eq_true h, Bool.true_or]
  · rw [decide_eq_true h, Bool.or_true]

theorem pairwise_later (l : List β) :
    (l.mergeSort fun a b => decide (f b ≤ f a)).Pairwise fun a b => f b ≤ f a :=
  (pairwise_mergeSort (later_trans f) (later_total f) l).imp of_decide_eq_true

end Later

/-- Sorted with later starts first, a list whose starts differ is that with rising
starts, reversed. -/
theorem mergeSort_eq_reverse {β : Type} {f : β → Int} {l es : List β} (hl : l.Perm es)
    (hes : es.Pairwise fun a b => f a < f b) :
    l.mergeSort (fun a b => decide (f b ≤ f a)) = es.reverse := by
  have hreverse : es.reverse.Pairwise fun a b => f b ≤ f a :=
    (pairwise_reverse.2 hes).imp Int.le_of_lt
  refine Perm.eq_of_pairwise ?_ (pairwise_later f l) hreverse
    ((mergeSort_perm _ _).trans (hl.trans es.reverse_perm.symm))
  intro a b ha hb hba hab
  have hinj : (es.map f).Nodup := pairwise_map.2 (hes.imp Int.ne_of_lt)
  exact inj_on_of_nodup_map hinj (hl.subset ((mergeSort_perm l _).subset ha))
    (mem_reverse.1 hb) (Int.le_antisymm hab hba)

/-! ## Lists in parts -/

/-- A replaced piece of a list, and what it was replaced for. -/
structure Hole (β : Type) where
  start : Nat
  stop : Nat
  what : β

def Hole.patch {β : Type} (text : β → List α) (h : Hole β) : Patch α :=
  ⟨h.start, h.stop, text h.what⟩

section Parts

variable {β : Type} {text : β → List α}

/-- The list that the parts are, one after the other. -/
def joined (r : List (List α × Option β)) : List α :=
  r.flatMap (·.1)

def replaced (text : β → List α) (r : List (List α × Option β)) : List α :=
  r.flatMap fun x => (x.2.map text).getD x.1

/-- The parts that are to be replaced, if the first part has the position `p`. -/
def holesFrom (p : Nat) : List (List α × Option β) → List (Hole β)
  | [] => []
  | (u, none) :: r => holesFrom (p + u.length) r
  | (u, some b) :: r => ⟨p, p + u.length, b⟩ :: holesFrom (p + u.length) r

theorem mem_holesFrom {r : List (List α × Option β)} {h : Hole β} (hh : h ∈ holesFrom p r) :
    p ≤ h.start ∧ ∃ u, (u, some h.what) ∈ r ∧ h.stop = h.start + u.length := by
  induction r generalizing p with
  | nil => cases hh
  | cons x r ih =>
    obtain ⟨u, o⟩ := x
    have hrest (hh : h ∈ holesFrom (p + u.length) r) :
        p ≤ h.start ∧ ∃ v, (v, some h.what) ∈ (u, o) :: r ∧ h.stop = h.start + v.length := by
      obtain ⟨hp, v, hv, hstop⟩ := ih hh
      exact ⟨by omega, v, .tail _ hv, hstop⟩
    cases o with
    | none => exact hrest hh
    | some b =>
      rcases mem_cons.1 hh with rfl | hh
      · exact ⟨Nat.le_refl p, u, .head _, rfl⟩
      · exact hrest hh

theorem pairwise_holesFrom {r : List (List α × Option β)} (hne : ∀ u b, (u, some b) ∈ r → u ≠ []) :
    (holesFrom p r).Pairwise fun a b => (a.start : Int) < b.start := by
  induction r generalizing p with
  | nil => exact .nil
  | cons x r ih =>
    obtain ⟨u, o⟩ := x
    have hrest := ih (p := p + u.length) fun v b hv => hne v b (.tail _ hv)
    cases o with
    | none => exact hrest
    | some b =>
      refine .cons ?_ hrest
      intro h hh
      have hu : 0 < u.length := length_pos_of_ne_nil (hne u b (.head _))
      have := (mem_holesFrom hh).1
      show (p : Int) < h.start
      omega

theorem inOrder_holesFrom (text : β → List α) (p : Nat) (r : List (List α × Option β)) :
    InOrder (p + (joined r).length) p ((holesFrom p r).map (Hole.patch text)) := by
  induction r generalizing p with
  | nil => exact Nat.le_refl p
  | cons x r ih =>
    obtain ⟨u, o⟩ := x
    have hrest := ih (p + u.length)
    rw [joined, flatMap_cons, length_append, ← Nat.add_assoc]
    cases o with
    | none => exact hrest.mono (Nat.le_add_right p _)
    | some b => exact ⟨Nat.le_refl p, Nat.le_add_right p _, hrest⟩

theorem patched_holesFrom (p : Nat) (r : List (List α × Option β)) :
    patched p (joined r) ((holesFrom p r).map (Hole.patch text)) = replaced text r := by
  induction r generalizing p with
  | nil => rfl
  | cons x r ih =>
    obtain ⟨u, o⟩ := x
    rw [joined, flatMap_cons, replaced, flatMap_cons]
    cases o with
    | none =>
      rw [holesFrom, patched_append, ← joined, ih]
      · rfl
      · intro e he
        obtain ⟨h, hh, rfl⟩ := mem_map.1 he
        obtain ⟨hstart, v, -, hstop⟩ := mem_holesFrom hh
        exact ⟨hstart, by show h.start ≤ h.stop; omega⟩
    | some b =>
      rw [holesFrom, map_cons, patched, Hole.patch, Nat.sub_self, take_zero,
        Nat.add_sub_cancel_left, drop_left, ← joined, ih]
      rfl

end Parts

end Obscura.Text
