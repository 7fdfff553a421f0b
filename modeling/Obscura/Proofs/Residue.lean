import Obscura.Proofs.Stripping

/-
  What comment removal leaves. Deleting a comment joins the text before it with the
  text behind it, and a block comment that is never closed stays; neither makes a new
  comment. A slash never stands right before a comment, since it would make a line
  comment with the comment's first slash, and behind a block comment that stays open no
  star and slash is left to close it (`closeBlock?_codeOf`).
-/

namespace Obscura.Layout

open Text List

variable {c : Char} {m : Removal} {s t u : Chars}

/-! ## The code of a text -/

/-- The characters of a text outside of comments. -/
def codeOf (s : Chars) : Chars :=
  leftByRemoval s s

theorem codeOf_nil : codeOf [] = [] := (left_of_nil []).2

theorem codeOf_comment {a r : Chars} (h : comment? s = some (a, r)) : codeOf s = codeOf r := by
  obtain ⟨rfl, -⟩ := comment?_append h
  exact leftByRemoval_comment h rfl

theorem codeOf_code (h : comment? (c :: t) = none) : codeOf (c :: t) = c :: codeOf t :=
  leftByRemoval_code h

/-- A text that does not start with a slash does not start with a comment. -/
theorem head?_codeOf (h : s.head? ≠ some '/') : (codeOf s).head? = s.head? := by
  cases s with
  | nil => rw [codeOf_nil]
  | cons c t =>
    have hc : c ≠ '/' := fun hc => h (congrArg some hc)
    rw [codeOf_code (comment?_cons_of_ne hc)]
    rfl

theorem closeBlock?_of_append {v : Chars} (h : closeBlock? (u ++ v) = none) :
    closeBlock? v = none := by
  induction u with
  | nil => exact h
  | cons c u ih =>
    by_cases hend : c = '*' ∧ (u ++ v).head? = some '/'
    · obtain ⟨rfl, hhead⟩ := hend
      obtain ⟨t, ht⟩ := head?_eq_some_iff.1 hhead
      rw [cons_append, ht] at h
      cases h
    · rw [cons_append, closeBlock?_cons hend, Option.map_eq_none_iff] at h
      exact ih h

theorem block?_open : block? ('/' :: '*' :: t) = none ↔ closeBlock? t = none :=
  Option.map_eq_none_iff

/-- A block comment that stays open is not closed by the deletion of comments behind it. -/
theorem closeBlock?_codeOf (h : closeBlock? s = none) : closeBlock? (codeOf s) = none := by
  fun_induction Rule.cut .comment s with
  | case1 =>
    rw [codeOf_nil]
    rfl
  | case2 c t a r hfound ih =>
    rw [codeOf_comment hfound]
    refine ih ?_
    rw [← (comment?_append hfound).1] at h
    exact closeBlock?_of_append h
  | case3 c t hnone ih =>
    have hend : ¬(c = '*' ∧ t.head? = some '/') := by
      rintro ⟨rfl, hhead⟩
      obtain ⟨r, rfl⟩ := head?_eq_some_iff.1 hhead
      cases h
    have hend' : ¬(c = '*' ∧ (codeOf t).head? = some '/') := by
      rintro ⟨rfl, hhead⟩
      have hslash : t.head? ≠ some '/' := fun hslash => hend ⟨rfl, hslash⟩
      exact hslash (head?_codeOf hslash ▸ hhead)
    rw [closeBlock?_cons hend, Option.map_eq_none_iff] at h
    rw [codeOf_code hnone, closeBlock?_cons hend', ih h]
    rfl

theorem comment?_cons_codeOf (h : comment? (c :: t) = none) : comment? (c :: codeOf t) = none := by
  by_cases hc : c = '/'
  · subst hc
    obtain ⟨hblock, hline⟩ := comment?_eq_none h
    have hslash : t.head? ≠ some '/' := by
      intro hhead
      obtain ⟨r, rfl⟩ := head?_eq_some_iff.1 hhead
      cases hline
    have hblock' : block? ('/' :: codeOf t) = none := by
      by_cases hstar : t.head? = some '*'
      · obtain ⟨r, rfl⟩ := head?_eq_some_iff.1 hstar
        rw [codeOf_code (comment?_cons_of_ne (by decide))]
        exact block?_open.2 (closeBlock?_codeOf (block?_open.1 hblock))
      · exact block?_cons fun h => hstar (head?_codeOf hslash ▸ h.2)
    rw [comment?, hblock']
    exact line?_cons fun h => hslash (head?_codeOf hslash ▸ h.2)
  · exact comment?_cons_of_ne hc

/-! ## Texts without comments -/

/-- No two slashes stand together, and no star and slash stand behind a slash and star. -/
structure CommentFree (u : Chars) : Prop where
  lines : ¬['/', '/'] <:+: u
  blocks : ∀ a b c, u ≠ a ++ '/' :: '*' :: (b ++ '*' :: '/' :: c)

/-- Nowhere in the text does a comment start. -/
def StartsNone (u : Chars) : Prop :=
  ∀ t, t <:+ u → comment? t = none

theorem StartsNone.commentFree (h : StartsNone u) : CommentFree u where
  lines := by
    rintro ⟨a, b, rfl⟩
    have hsuffix : '/' :: '/' :: b <:+ a ++ ['/', '/'] ++ b := ⟨a, by simp⟩
    obtain ⟨-, hline⟩ := comment?_eq_none (h _ hsuffix)
    cases hline
  blocks := by
    rintro a b c rfl
    obtain ⟨hblock, -⟩ := comment?_eq_none (h _ ⟨a, rfl⟩)
    cases closeBlock?_of_append (block?_open.1 hblock)

theorem startsNone_codeOf (s : Chars) : StartsNone (codeOf s) := by
  fun_induction Rule.cut .comment s with
  | case1 =>
    intro t ht
    rw [codeOf_nil, suffix_nil] at ht
    rw [ht]
    rfl
  | case2 c t a r hfound ih =>
    rw [codeOf_comment hfound]
    exact ih
  | case3 c t hnone ih =>
    rw [codeOf_code hnone]
    intro u hu
    rcases suffix_cons_iff.1 hu with rfl | hu
    · exact comment?_cons_codeOf hnone
    · exact ih u hu

theorem pieces_of_startsNone (h : StartsNone u) : pieces u = u.map .code := by
  rw [pieces]
  induction u with
  | nil => exact Rule.cut_nil
  | cons c u ih =>
    rw [Rule.cut_cons (R := .comment) (h _ suffix_rfl),
      ih fun t ht => h t (ht.trans (suffix_cons c u))]
    rfl

theorem removeComments_of_startsNone (h : StartsNone u) : removeComments u = (u, []) := by
  have hcode (p : Place) : removals p (u.map .code) = [] := by
    clear h
    induction u generalizing p with
    | nil => rfl
    | cons c u ih => exact ih (p.step c)
  rw [removeComments, pieces_of_startsNone h, hcode]
  rfl

/-! ## The gaps between comments -/

/-- The parts of a text before, between and behind stretches of it; the first character has
the position `p`. -/
def gapsBetween (p : Nat) (s : Chars) : List Removal → List Chars
  | [] => [s]
  | m :: ms => s.take (m.start - p) :: gapsBetween m.stop (s.drop (m.stop - p)) ms

/-- Gaps and the texts of stretches, one after the other in turn. -/
def interleaved : List Chars → List Removal → Chars
  | g :: gs, m :: ms => g ++ (m.text ++ interleaved gs ms)
  | gs, ms => gs.flatten ++ ms.flatMap Removal.text

theorem flatten_gapsBetween (p : Nat) (ms : List Removal) :
    (gapsBetween p s ms).flatten = patched p s (ms.map Removal.patch) := by
  induction ms generalizing p s with
  | nil => rw [gapsBetween, flatten_singleton, map_nil, patched]
  | cons m ms ih =>
    rw [gapsBetween, flatten_cons, ih, map_cons, patched]
    rfl

/-- The stretch stands in the text at its place; the text starts at the position `p`. -/
def Removal.StandsIn (p : Nat) (s : Chars) (m : Removal) : Prop :=
  p ≤ m.start ∧ m.stop = m.start + m.text.length ∧ m.text <+: s.drop (m.start - p)

theorem interleaved_gapsBetween {p : Nat} {ms : List Removal} (hms : ∀ m ∈ ms, m.StandsIn p s)
    (hapart : ms.Pairwise fun m n => m.stop ≤ n.start) : interleaved (gapsBetween p s ms) ms = s := by
  induction ms generalizing p s with
  | nil => simp [gapsBetween, interleaved]
  | cons m ms ih =>
    obtain ⟨hbehind, hapart⟩ := pairwise_cons.1 hapart
    obtain ⟨hstart, hstop, r, hr⟩ := hms m mem_cons_self
    have hrest : s.drop (m.stop - p) = r := by
      have hadd : m.stop - p = m.start - p + m.text.length := by omega
      rw [hadd, ← drop_drop, ← hr, drop_left]
    have hms' : ∀ n ∈ ms, n.StandsIn m.stop r := by
      intro n hn
      obtain ⟨-, hnstop, htext⟩ := hms n (.tail _ hn)
      have hle := hbehind n hn
      have hadd : m.stop - p + (n.start - m.stop) = n.start - p := by omega
      refine ⟨hle, hnstop, ?_⟩
      rwa [← hrest, drop_drop, hadd]
    rw [gapsBetween, interleaved, hrest, ih hms' hapart, hr, take_append_drop]

theorem IsCommentAt.standsIn (h : IsCommentAt s m) : m.StandsIn 0 s := by
  obtain ⟨hstop, r, hr⟩ := h
  exact ⟨Nat.zero_le _, hstop, r, (comment?_append hr).1⟩

theorem isCommentAt_of_removed (h : m ∈ (removeComments s).2) : IsCommentAt s m := by
  rw [(removeComments_eq s).1] at h
  exact isCommentAt_of_found (mem_of_mem_filter h)

theorem pairwise_removed (s : Chars) : (removeComments s).2.Pairwise fun m n => m.stop ≤ n.start := by
  rw [(removeComments_eq s).1]
  exact (pairwise_map.2 ((pairwise_placed (pieces s)).filter _)).filter _

/-- **Comment removal leaves no comment.** In a text without double quotes nothing that is
left starts a comment, also not where texts around a comment are joined, so that a second
removal finds nothing. What is removed are comments, from left to right and apart; with the
gaps between them they are the text, and the gaps alone are what is left. -/
theorem removeComments_leaves_none {s : Chars} (hq : '"' ∉ s) :
    (StartsNone (removeComments s).1 ∧ CommentFree (removeComments s).1 ∧
      removeComments (removeComments s).1 = ((removeComments s).1, [])) ∧
    ((∀ m ∈ (removeComments s).2, IsCommentAt s m) ∧
      (removeComments s).2.Pairwise fun m n => m.stop ≤ n.start) ∧
    interleaved (gapsBetween 0 s (removeComments s).2) (removeComments s).2 = s ∧
      (gapsBetween 0 s (removeComments s).2).flatten = (removeComments s).1 := by
  have hnone : StartsNone (removeComments s).1 := by
    rw [removeComments_eq_left hq]
    exact startsNone_codeOf s
  have hat : ∀ m ∈ (removeComments s).2, IsCommentAt s m := fun m => isCommentAt_of_removed
  refine ⟨⟨hnone, hnone.commentFree, removeComments_of_startsNone hnone⟩, ⟨hat, pairwise_removed s⟩, ?_, ?_⟩
  · exact interleaved_gapsBetween (fun m hm => (hat m hm).standsIn) (pairwise_removed s)
  · rw [flatten_gapsBetween]
    exact (removeComments_eq s).2.1.symm

/-- A star and a slash are joined, and a block comment stays open before a line comment. -/
theorem removeComments_leaves_open_block :
    '"' ∉ "*/**// x /* y // z".toList ∧ (removeComments "*/**// x /* y // z".toList).1 = "*/ x /* y ".toList ∧
      CommentFree "*/ x /* y ".toList ∧ removeComments "*/ x /* y ".toList = ("*/ x /* y ".toList, []) := by
  have hq : '"' ∉ "*/**// x /* y // z".toList := by decide
  have hout : (removeComments "*/**// x /* y // z".toList).1 = "*/ x /* y ".toList := by decide +kernel
  obtain ⟨⟨-, hfree, hagain⟩, -⟩ := removeComments_leaves_none hq
  rw [hout] at hfree hagain
  exact ⟨hq, hout, hfree, hagain⟩

end Obscura.Layout
