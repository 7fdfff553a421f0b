import Mathlib.Data.List.TakeWhile
import Obscura.Layout.Token
import Obscura.Proofs.Characters

/-
  The segments of a text are its only partition (`segments_eq_iff`). Which texts a literal
  can be is said without the scan: inside of it the quote that opened it stands only where
  a backslash takes it along (`Inside`), so that the first other one closes it.
-/

namespace Obscura.Layout

open List
open Text

variable {q : Char} {s t r u : Chars} {xs : List Segment}

/-- A text behind the quote `q` that does not close it: a backslash takes the next
character along, and no other `q` is there. -/
inductive Inside (q : Char) : Chars → Prop
  | nil : Inside q []
  | plain {c : Char} {u : Chars} (hq : c ≠ q) (hc : c ≠ '\\') (h : Inside q u) : Inside q (c :: u)
  | escape {c : Char} {u : Chars} (h : Inside q u) : Inside q ('\\' :: c :: u)

/-- What follows the quote `q` up to the end of its literal, with the text `r` behind it: it
ends with the quote that closes the literal, or with the text, maybe behind a last
backslash. -/
def Ends (q : Char) (t r : Chars) : Prop :=
  ∃ u, Inside q u ∧ (t = u ++ [q] ∨ r = [] ∧ (t = u ∨ t = u ++ ['\\']))

theorem ends_closeQuote : Ends q (closeQuote q s).1 (closeQuote q s).2 := by
  fun_induction closeQuote q s with
  | case1 => exact ⟨[], .nil, .inr ⟨rfl, .inl rfl⟩⟩
  | case2 c s ih =>
    obtain ⟨u, hu, h⟩ := ih
    exact ⟨'\\' :: c :: u, .escape hu, by simpa using h⟩
  | case3 s => exact ⟨[], .nil, .inl rfl⟩
  | case4 c s hmore hc ih =>
    obtain ⟨u, hu, h⟩ := ih
    by_cases hback : c = '\\'
    · -- the text ends behind the backslash
      cases s with
      | nil => exact ⟨[], .nil, .inr ⟨rfl, .inr (by rw [hback]; rfl)⟩⟩
      | cons d s => exact absurd rfl (hmore d s hback)
    · exact ⟨c :: u, .plain hc hback hu, by simpa using h⟩

theorem closeQuote_cons {c : Char} (hc : c ≠ '\\') :
    closeQuote q (c :: s) = if c = q then ([c], s) else (c :: (closeQuote q s).1, (closeQuote q s).2) := by
  rw [closeQuote]
  exact fun _ _ h => absurd h hc

theorem Inside.closeQuote (h : Inside q u) (t : Chars) :
    closeQuote q (u ++ t) = (u ++ (closeQuote q t).1, (closeQuote q t).2) := by
  induction h with
  | nil => rfl
  | plain hq hc _ ih => rw [cons_append, closeQuote_cons hc, if_neg hq, ih, cons_append]
  | escape _ ih => rw [cons_append, cons_append, Layout.closeQuote, ih, cons_append, cons_append]

theorem Ends.closeQuote (hq : isQuote q) (h : Ends q t r) : closeQuote q (t ++ r) = (t, r) := by
  have hback : q ≠ '\\' := by
    rintro rfl
    cases hq
  obtain ⟨u, hu, rfl | ⟨rfl, rfl | rfl⟩⟩ := h
  · rw [append_assoc, singleton_append, hu.closeQuote, closeQuote_cons hback, if_pos rfl]
  · rw [hu.closeQuote, Layout.closeQuote, append_nil]
  · rw [append_nil, hu.closeQuote, Layout.closeQuote, if_neg hback.symm, Layout.closeQuote]
    exact nofun

/-- A text cut into code without quotes and literals, with no two pieces of code beside each
other. -/
structure IsPartition (s : Chars) (xs : List Segment) : Prop where
  text : xs.flatMap Segment.text = s
  nonempty : ∀ x ∈ xs, x.text ≠ []
  apart : ∀ before t u behind, xs ≠ before ++ .code t :: .code u :: behind
  code : ∀ t, .code t ∈ xs → ∀ c ∈ t, isQuote c = false
  quoted : ∀ before t behind, xs = before ++ .quoted t :: behind →
    ∃ q u, isQuote q = true ∧ t = q :: u ∧ Ends q u (behind.flatMap Segment.text)

/-- A segment that may stand before a partition `xs` of the text `r`. -/
def Segment.Fits (xs : List Segment) (r : Chars) : Segment → Prop
  | .code t => t ≠ [] ∧ (∀ c ∈ t, isQuote c = false) ∧ ∀ u, xs.head? ≠ some (.code u)
  | .quoted t => ∃ q u, isQuote q = true ∧ t = q :: u ∧ Ends q u r

theorem isPartition_nil : IsPartition s [] ↔ s = [] := by
  refine ⟨fun h => h.text.symm, ?_⟩
  rintro rfl
  exact ⟨rfl, nofun, by simp, nofun, by simp⟩

theorem isPartition_cons {x : Segment} :
    IsPartition s (x :: xs) ↔ ∃ r, s = x.text ++ r ∧ x.Fits xs r ∧ IsPartition r xs := by
  constructor
  · intro h
    refine ⟨_, h.text.symm, ?_, rfl, fun y hy => h.nonempty y (.tail _ hy), ?_,
      fun t ht => h.code t (.tail _ ht), ?_⟩
    · cases x with
      | code t =>
        refine ⟨h.nonempty _ mem_cons_self, h.code t mem_cons_self, fun u hu => ?_⟩
        obtain ⟨ys, rfl⟩ := head?_eq_some_iff.1 hu
        exact h.apart [] t u ys rfl
      | quoted t => exact h.quoted [] t xs rfl
    · rintro before t u behind rfl
      exact h.apart (x :: before) t u behind rfl
    · rintro before t behind rfl
      exact h.quoted (x :: before) t behind rfl
  · rintro ⟨r, rfl, hx, h⟩
    refine ⟨by rw [flatMap_cons, h.text], forall_mem_cons.2 ⟨?_, h.nonempty⟩, ?_, ?_, ?_⟩
    · cases x with
      | code t => exact hx.1
      | quoted t =>
        obtain ⟨q, u, -, rfl, -⟩ := hx
        exact cons_ne_nil q u
    · rintro (_ | ⟨y, before⟩) t u behind he
      · obtain ⟨rfl, rfl⟩ := cons.inj he
        exact hx.2.2 u rfl
      · exact h.apart before t u behind (cons.inj he).2
    · intro t ht
      rcases mem_cons.1 ht with rfl | ht
      · exact hx.2.1
      · exact h.code t ht
    · rintro (_ | ⟨y, before⟩) t behind he
      · obtain ⟨rfl, rfl⟩ := cons.inj he
        rw [h.text]
        exact hx
      · exact h.quoted before t behind (cons.inj he).2

theorem isPartition_segments (s : Chars) : IsPartition s (segments s) := by
  fun_induction segments s with
  | case1 => exact isPartition_nil.2 rfl
  | case2 c t hc ih =>
    refine isPartition_cons.2 ⟨_, ?_, ⟨c, _, hc, rfl, ends_closeQuote⟩, ih⟩
    rw [Segment.text, cons_append, closeQuote_append]
  | case3 c t hc ih =>
    rw [Bool.not_eq_true] at hc
    refine isPartition_cons.2 ⟨_, ?_, ⟨cons_ne_nil _ _, forall_mem_cons.2 ⟨hc, fun d hd => ?_⟩,
      fun u hu => ?_⟩, ih⟩
    · rw [Segment.text, cons_append, takeWhile_append_dropWhile]
    · simpa using mem_takeWhile_imp hd
    · -- what follows is empty or starts with a quote
      cases hr : t.dropWhile (!isQuote ·) with
      | nil => simp [hr, segments] at hu
      | cons d r =>
        have hd : isQuote d := by simpa using dropWhile_stops (p := (!isQuote ·)) (by rw [hr]; rfl)
        rw [hr, segments, if_pos hd] at hu
        cases hu

theorem isQuote_of_isPartition (h : IsPartition s xs) (hx : ∀ u, xs.head? ≠ some (.code u)) :
    ∀ c, s.head? = some c → isQuote c := by
  intro c hc
  cases xs with
  | nil => simp [isPartition_nil.1 h] at hc
  | cons x xs =>
    obtain ⟨r, rfl, hfits, -⟩ := isPartition_cons.1 h
    cases x with
    | code t => exact absurd rfl (hx t)
    | quoted t =>
      obtain ⟨q, u, hq, rfl, -⟩ := hfits
      cases hc
      exact hq

theorem IsPartition.segments (h : IsPartition s xs) : segments s = xs := by
  induction xs generalizing s with
  | nil => rw [isPartition_nil.1 h, Layout.segments]
  | cons x xs ih =>
    obtain ⟨r, rfl, hfits, hr⟩ := isPartition_cons.1 h
    cases x with
    | code t =>
      obtain ⟨hne, ht, hnext⟩ := hfits
      obtain ⟨c, t, rfl⟩ := exists_cons_of_ne_nil hne
      obtain ⟨hc, ht⟩ := forall_mem_cons.1 ht
      have hrun : ∀ d ∈ t, (!isQuote d) = true := fun d hd => by rw [ht d hd]; rfl
      have hend : ∀ d, r.head? = some d → (!isQuote d) = false := fun d hd => by
        rw [isQuote_of_isPartition hr hnext d hd]
        rfl
      rw [Segment.text, cons_append, Layout.segments, hc, if_neg Bool.false_ne_true, takeWhile_run hrun hend,
        dropWhile_run hrun hend, ih hr]
    | quoted t =>
      obtain ⟨q, u, hq, rfl, hu⟩ := hfits
      rw [Segment.text, cons_append, Layout.segments, if_pos hq, hu.closeQuote hq, ih hr]

/-- **The segments of a text are its one partition** into code without quotes and literals,
each of which reaches to the first quote that closes it or to the end of the text. -/
theorem segments_eq_iff {s : Chars} {xs : List Segment} : segments s = xs ↔ IsPartition s xs := by
  refine ⟨?_, IsPartition.segments⟩
  rintro rfl
  exact isPartition_segments s

end Obscura.Layout
