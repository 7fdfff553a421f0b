import Obscura.Proofs.Lexemes
import Obscura.Proofs.Spacing

/-
  A source and its spaced text as two layouts of the same characters. The characters
  of a text are listed token by token (`spots`), each with the blanks behind it and
  with whether a space is written there; the first give the source back, the second
  the spaced text. A gap of the source is left out only behind a tight token
  (`closesTight_spots`), and a digit that no character of a word touches starts a
  token (`exists_spots_suffix`).
-/

namespace Obscura.Layout

open Text List

variable {a rest zs ys : List Spot} {b apart : Bool} {c d : Char} {gap r s t u : Chars}
  {y z : Spot}

/-! ## The characters of a text, token by token -/

/-- The characters of a token, with the blanks and the space behind the last of them. -/
def marked (c : Char) : Chars → Chars → Bool → List Spot
  | [], gap, spaced => [⟨c, gap, spaced⟩]
  | d :: u, gap, spaced => ⟨c, [], false⟩ :: marked d u gap spaced

/-- A space is written between the token `t` and the text `r` behind it. -/
def spacedBefore (t : Token) (r : Chars) : Bool :=
  match r.dropWhile isBlank with
  | [] => false
  | c :: s => spaceBetween (!(r.takeWhile isBlank).isEmpty) t (takeToken c s).1

/-- The characters of a text that are no blanks, with the blanks behind them and whether a space
is written there. -/
def spots (s : Chars) : List Spot :=
  match s with
  | [] => []
  | c :: t =>
    if isBlank c then spots t
    else
      marked c (takeToken c t).1.tail ((takeToken c t).2.takeWhile isBlank)
        (spacedBefore (takeToken c t).1 (takeToken c t).2) ++ spots (takeToken c t).2
termination_by s.length
decreasing_by
  · exact Nat.lt_succ_self _
  · have := takeToken_length c t
    rw [length_cons]
    omega

theorem spots_nil : spots [] = [] := by
  rw [spots]

theorem spots_blank (hc : isBlank c) : spots (c :: t) = spots t := by
  rw [spots, if_pos hc]

theorem spots_token (hc : isBlank c = false) (h : takeToken c t = (c :: u, r)) :
    spots (c :: t) = marked c u (r.takeWhile isBlank) (spacedBefore (c :: u) r) ++ spots r := by
  rw [spots, if_neg (by simp [hc]), h]
  rfl

/-- Along the tokens of a text: what holds of the empty text, of a text behind a blank and of a
text behind a token holds of all. -/
theorem spots_induction {P : Chars → Prop} (nil : P [])
    (blank : ∀ c t, isBlank c → P t → P (c :: t))
    (token : ∀ c t u r, isBlank c = false → takeToken c t = (c :: u, r) → t = u ++ r → P r → P (c :: t))
    (s : Chars) : P s := by
  fun_induction spots s with
  | case1 => exact nil
  | case2 c t hc ih => exact blank c t hc ih
  | case3 c t hc ih =>
    rw [Bool.not_eq_true] at hc
    obtain ⟨u, hu, happend⟩ := exists_takeToken hc t
    exact token c t u _ hc (by rw [← hu]) happend.symm ih

theorem charsOf_marked :
    charsOf (marked c u gap b) = c :: u := by
  induction u generalizing c with
  | nil => rfl
  | cons d u ih => exact congrArg (c :: ·) (ih)

theorem length_marked (c : Char) (u gap : Chars) (b : Bool) :
    (marked c u gap b).length = u.length + 1 := by
  rw [← length_charsOf, charsOf_marked, length_cons]

theorem layout_append (f : Spot → Chars) :
    layout f (ys ++ zs) = layout f ys ++ layout f zs := flatMap_append

theorem layout_gap_marked :
    layout Spot.gap (marked c u gap b) = c :: u ++ gap := by
  induction u generalizing c with
  | nil => simp [marked, layout]
  | cons d u ih => exact congrArg (c :: ·) (ih)

theorem layout_space_marked :
    layout Spot.space (marked c u gap b) = c :: u ++ if b then [' '] else [] := by
  induction u generalizing c with
  | nil => simp [marked, layout, Spot.space]
  | cons d u ih => exact congrArg (c :: ·) (ih)

theorem layout_gap_spots (s : Chars) : layout Spot.gap (spots s) = s.dropWhile isBlank := by
  induction s using spots_induction with
  | nil => rw [spots_nil]; rfl
  | blank c t hc ih => rw [spots_blank hc, ih, dropWhile_cons_of_pos hc]
  | token c t u r hc htoken happend ih =>
    rw [spots_token hc htoken, layout_append, layout_gap_marked, ih, append_assoc,
      takeWhile_append_dropWhile, dropWhile_cons_of_neg (by simp [hc]), happend]
    rfl

theorem spots_ne_nil (hc : isBlank c = false) (t : Chars) : spots (c :: t) ≠ [] := by
  intro h
  have hlayout := layout_gap_spots (c :: t)
  rw [h, dropWhile_cons_of_neg (by simp [hc])] at hlayout
  cases hlayout

theorem spots_touching (hc : isBlank c = false) (hd : isBlank d = false)
    (h : takeToken c t = (c :: u, d :: r)) :
    spots (c :: t) = marked c u [] (needsSpace (c :: u) (takeToken d r).1) ++ spots (d :: r) := by
  have htake : (d :: r).takeWhile isBlank = [] := takeWhile_cons_of_neg (by simp [hd])
  have hdrop : (d :: r).dropWhile isBlank = d :: r := dropWhile_cons_of_neg (by simp [hd])
  rw [spots_token hc h, spacedBefore, htake, hdrop]
  rfl

theorem char_mem_of_mem_spots (h : z ∈ spots s) : z.char ∈ s := by
  refine dropWhile_subset isBlank ?_
  rw [← layout_gap_spots]
  exact mem_flatMap.2 ⟨z, h, mem_cons_self⟩

theorem spots_dropWhile : spots (s.dropWhile isBlank) = spots s := by
  induction s with
  | nil => rfl
  | cons c s ih =>
    by_cases hc : isBlank c
    · rw [dropWhile_cons_of_pos hc, ih, spots_blank hc]
    · rw [dropWhile_cons_of_neg hc]

theorem respaceAfter_token (t : Token) (hc : isBlank c = false) :
    respaceAfter t apart (tokens (c :: s)) =
      (if spaceBetween apart t (takeToken c s).1 then [' '] else []) ++ respace (tokens (c :: s)) := by
  obtain ⟨u, hu, -⟩ := exists_takeToken hc s
  have hne := cons_ne_blank hc u
  rw [tokens_cons, hu, respaceAfter_cons hne, respace, if_neg hne, append_assoc]

theorem respaceAfter_eq (t : Token) :
    respaceAfter t false (tokens s) =
      (if spacedBefore t s then [' '] else []) ++ respace (tokens s) := by
  cases s with
  | nil =>
    rw [tokens_nil]
    rfl
  | cons c s =>
    by_cases hc : isBlank c
    · rw [tokens_cons, takeToken_blank hc, respaceAfter, if_pos rfl, respace, if_pos rfl, spacedBefore,
        dropWhile_cons_of_pos hc, takeWhile_cons_of_pos hc]
      cases hr : s.dropWhile isBlank with
      | nil =>
        rw [tokens_nil]
        rfl
      | cons d r => exact respaceAfter_token t (dropWhile_stops (by rw [hr]; rfl))
    · have hdrop := dropWhile_cons_of_neg (l := s) hc
      have htake := takeWhile_cons_of_neg (l := s) hc
      rw [spacedBefore, hdrop, htake]
      exact respaceAfter_token t (by simpa using hc)

theorem respace_dropWhile (s : Chars) : respace (tokens (s.dropWhile isBlank)) = respace (tokens s) := by
  cases s with
  | nil => rfl
  | cons c s =>
    by_cases hc : isBlank c
    · rw [tokens_cons, takeToken_blank hc, respace, if_pos rfl, dropWhile_cons_of_pos hc]
    · rw [dropWhile_cons_of_neg hc]

theorem layout_space_spots (s : Chars) : layout Spot.space (spots s) = respace (tokens s) := by
  induction s using spots_induction with
  | nil => rw [spots_nil, tokens_nil]; rfl
  | blank c t hc ih =>
    rw [spots_blank hc, ih, ← respace_dropWhile (c :: t), dropWhile_cons_of_pos hc, respace_dropWhile]
  | token c t u r hc htoken happend ih =>
    rw [spots_token hc htoken, layout_append, layout_space_marked, ih, tokens_cons, htoken, respace,
      if_neg (cons_ne_blank hc u), respaceAfter_eq, append_assoc]

/-! ## Characters of tokens -/

theorem continuesName_of_start (h : (isLetter c || c == '_')) : continuesName c := by
  rw [Bool.or_eq_true] at h
  rcases h with h | h <;> simp [continuesName, isAlnum, h]

theorem continuesName_of_isFigure (h : isFigure c) : continuesName c := by
  simp [continuesName, isAlnum, isNumeral_of_isFigure h]

theorem continuesName_of_isAsciiWord (h : isAsciiWord c) : continuesName c := by
  rw [isAsciiWord, Bool.or_eq_true] at h
  rcases h with h | h
  · rw [continuesName, ← isWord, isWord_eq (toNat_lt_of_isAlphanum h), h, Bool.true_or]
  · rw [continuesName, h, Bool.or_true]

theorem exists_hexMark (h : t.head? = some 'x' ∨ t.head? = some 'X') :
    ∃ x s, t = x :: s ∧ (x = 'x' ∨ x = 'X') := by
  cases t with
  | nil => simp at h
  | cons x t => exact ⟨x, t, rfl, by simpa using h⟩

/-- A token of more than one character is a name, a number or an operator. -/
theorem takeToken_kind (hc : isBlank c = false) (h : takeToken c t = (c :: u, r)) :
    u = [] ∨ ((isLetter c || c == '_') ∧ ∀ d ∈ u, continuesName d) ∨
      (∀ d ∈ c :: u, isFigure d ∨ isHexDigit d ∨ d = 'x' ∨ d = 'X') ∨
      ∃ d, u = [d] ∧ [c, d] ∈ operators := by
  by_cases hname : (isLetter c || c == '_')
  · rw [takeToken_name hc hname, Prod.mk.injEq, cons.injEq] at h
    obtain ⟨⟨-, rfl⟩, -⟩ := h
    exact .inr (.inl ⟨hname, fun d hd => mem_takeWhile_imp hd⟩)
  rw [Bool.not_eq_true] at hname
  by_cases hfig : isFigure c
  · refine .inr (.inr (.inl (forall_mem_cons.2 ⟨.inl hfig, ?_⟩)))
    by_cases hx : c = '0' ∧ (t.head? = some 'x' ∨ t.head? = some 'X')
    · obtain ⟨rfl, hhead⟩ := hx
      obtain ⟨x, t, rfl, hx⟩ := exists_hexMark hhead
      rw [takeToken_hex hx, Prod.mk.injEq, cons.injEq] at h
      obtain ⟨⟨-, rfl⟩, -⟩ := h
      exact forall_mem_cons.2 ⟨.inr (.inr hx), fun d hd => .inr (.inl (mem_takeWhile_imp hd))⟩
    · rw [takeToken_figures hc hname hfig hx, Prod.mk.injEq, cons.injEq] at h
      obtain ⟨⟨-, rfl⟩, -⟩ := h
      exact fun d hd => .inl (mem_takeWhile_imp hd)
  have hmark : IsMark c := ⟨hc, hname, by simpa using hfig⟩
  by_cases hop : ∃ d s, t = d :: s ∧ operators.contains [c, d]
  · obtain ⟨d, s, rfl, hop⟩ := hop
    rw [takeToken_operator hmark hop, Prod.mk.injEq, cons.injEq] at h
    exact .inr (.inr (.inr ⟨d, h.1.2.symm, contains_iff_mem.1 hop⟩))
  · rw [takeToken_mark hmark fun d hd => ?_, Prod.mk.injEq, cons.injEq] at h
    · exact .inl h.1.2.symm
    obtain ⟨s, rfl⟩ := head?_eq_some_iff.1 hd
    exact Bool.eq_false_iff.2 fun hcd => hop ⟨d, s, rfl, hcd⟩

/-- A token of more than one character is made of characters of words, or is an operator. -/
theorem takeToken_shape (hc : isBlank c = false) (h : takeToken c t = (c :: u, r)) :
    u = [] ∨ (∀ d ∈ c :: u, continuesName d) ∨ ∃ d, u = [d] ∧ [c, d] ∈ operators := by
  refine (takeToken_kind hc h).imp_right fun hkind => ?_
  rcases hkind with ⟨hname, hu⟩ | hnumber | hop
  · exact .inl (forall_mem_cons.2 ⟨continuesName_of_start hname, hu⟩)
  · refine .inl fun d hd => ?_
    rcases hnumber d hd with hfig | hhex | rfl | rfl
    · exact continuesName_of_isFigure hfig
    · exact continuesName_of_isAsciiWord (isAsciiWord_of_isHexDigit hhex)
    · exact continuesName_of_isAsciiWord (by decide)
    · exact continuesName_of_isAsciiWord (by decide)
  · exact .inr hop

theorem isBlank_of_continuesName (h : continuesName c) : isBlank c = false := by
  rw [Bool.eq_false_iff]
  intro hb
  rw [continuesName, ← isWord, isWord_of_isBlank hb] at h
  cases h

theorem isBlank_of_mem_token (hc : isBlank c = false)
    (h : takeToken c t = (c :: u, r)) (hd : d ∈ u) : isBlank d = false := by
  rcases takeToken_shape hc h with rfl | hname | ⟨e, rfl, hop⟩
  · cases hd
  · exact isBlank_of_continuesName (hname d (mem_cons_of_mem c hd))
  · have hall : ∀ o ∈ operators, ∀ e ∈ o, isBlank e = false := forall_mem_mem_of_all rfl
    exact hall [c, e] hop d (mem_cons_of_mem c hd)

/-- What holds at the characters of each token holds at all of a text. -/
theorem forall_mem_spots {P : Spot → Prop} (h : ∀ c t u r, isBlank c = false → takeToken c t = (c :: u, r) →
    ∀ b, ∀ z ∈ marked c u (r.takeWhile isBlank) b, P z) : ∀ z ∈ spots s, P z := by
  induction s using spots_induction with
  | nil =>
    rw [spots_nil]
    simp
  | blank c t hc ih => rwa [spots_blank hc]
  | token c t u r hc htoken happend ih =>
    rw [spots_token hc htoken]
    exact forall_mem_append.2 ⟨h c t u r hc htoken _, ih⟩

theorem isBlank_spots (s : Chars) : ∀ z ∈ spots s, isBlank z.char = false := by
  refine forall_mem_spots (fun c t u r hc htoken b z hz => ?_)
  have hmem : z.char ∈ c :: u := by
    rw [← charsOf_marked]
    exact mem_map_of_mem hz
  rcases mem_cons.1 hmem with heq | hmem
  · rw [heq, hc]
  · exact isBlank_of_mem_token hc htoken hmem

theorem mem_marked (h : z ∈ marked c u gap b) :
    z.gap = [] ∧ z.spaced = false ∨ z.gap = gap ∧ z.spaced = b := by
  induction u generalizing c with
  | nil =>
    obtain rfl := mem_singleton.1 h
    exact .inr ⟨rfl, rfl⟩
  | cons d u ih =>
    rcases mem_cons.1 h with rfl | h
    · exact .inl ⟨rfl, rfl⟩
    · exact ih h

theorem isBlank_gap (s : Chars) : ∀ z ∈ spots s, ∀ c ∈ z.gap, isBlank c := by
  refine forall_mem_spots (fun c t u r hc htoken b z hz => ?_)
  rcases mem_marked hz with ⟨hgap, -⟩ | ⟨hgap, -⟩
  · simp [hgap]
  · rw [hgap]
    exact fun d hd => mem_takeWhile_imp hd

/-- A place in a text that starts with a token: inside of the token, at its end or behind it. -/
theorem marked_suffix (h : marked c u gap b ++ zs = a ++ z :: rest) :
    (z.gap = [] ∧ z.spaced = false) ∨ (z.char ∈ c :: u ∧ z.gap = gap ∧ z.spaced = b ∧ rest = zs) ∨
      ∃ a', zs = a' ++ z :: rest := by
  induction u generalizing c a with
  | nil =>
    cases a with
    | nil =>
      obtain ⟨rfl, rfl⟩ := cons.inj h
      exact .inr (.inl ⟨mem_cons_self, rfl, rfl, rfl⟩)
    | cons x a => exact .inr (.inr ⟨a, (cons.inj h).2⟩)
  | cons d u ih =>
    cases a with
    | nil =>
      obtain ⟨rfl, -⟩ := cons.inj h
      exact .inl ⟨rfl, rfl⟩
    | cons x a =>
      have := ih (cons.inj h).2
      exact this.imp_right (Or.imp_left fun hz => ⟨mem_cons_of_mem c hz.1, hz.2⟩)

theorem closesTight_spots (s : Chars) : ClosesTight Spot.gap Spot.space (spots s) := by
  induction s using spots_induction with
  | nil =>
    intro a z y b heq
    simp [spots_nil] at heq
  | blank c t hc ih => rwa [spots_blank hc]
  | token c t u r hc htoken happend ih =>
    rw [spots_token hc htoken]
    intro a z y b heq hgap hspace
    rcases marked_suffix heq with hz | ⟨hmem, hzgap, hzspaced, hrest⟩ | ⟨a', ha⟩
    · exact absurd hz.1 hgap
    · have hne : r.dropWhile isBlank ≠ [] := by
        intro hnil
        have hlayout := layout_gap_spots r
        rw [hnil, ← hrest] at hlayout
        cases hlayout
      obtain ⟨d, r', hr⟩ := exists_cons_of_ne_nil hne
      have hspaced : z.spaced = false := by
        by_contra hb
        simp [Spot.space, hb] at hspace
      have hapart : (!(r.takeWhile isBlank).isEmpty) := by
        rw [← hzgap]
        simpa using hgap
      rw [hzspaced, spacedBefore, hr, hapart] at hspaced
      have htight : c :: u ∈ tight := by simpa [spaceBetween] using hspaced
      rw [tight_eq] at htight
      obtain ⟨e, he, heq⟩ := mem_map.1 htight
      obtain ⟨rfl, rfl⟩ := cons.inj heq
      rwa [mem_singleton.1 hmem]
    · exact ih a' z y b ha hgap hspace

/-! ## Where a token starts -/

theorem marked_before (h : marked c u gap b ++ zs = a ++ y :: rest) :
    a = [] ∨ (∃ z, a.getLast? = some z ∧ z.gap = [] ∧ z.char ∈ c :: u ∧ y.char ∈ u) ∨
      ∃ a', a = marked c u gap b ++ a' ∧ zs = a' ++ y :: rest := by
  induction u generalizing c a with
  | nil =>
    cases a with
    | nil => exact .inl rfl
    | cons x a =>
      obtain ⟨rfl, heq⟩ := cons.inj h
      exact .inr (.inr ⟨a, rfl, heq⟩)
  | cons d u ih =>
    cases a with
    | nil => exact .inl rfl
    | cons x a =>
      obtain ⟨rfl, heq⟩ := cons.inj h
      right
      rcases ih heq with rfl | ⟨z, hlast, hgap, hz, hy⟩ | ⟨a', rfl, hzs⟩
      · refine .inl ⟨_, rfl, rfl, mem_cons_self, ?_⟩
        have hchars : charsOf (marked d u gap b ++ zs) = charsOf (y :: rest) := congrArg charsOf heq
        rw [charsOf, map_append, ← charsOf, charsOf_marked] at hchars
        exact (cons.inj hchars).1 ▸ mem_cons_self
      · refine .inl ⟨z, ?_, hgap, mem_cons_of_mem c hz, mem_cons_of_mem d hy⟩
        rw [getLast?_cons, hlast]
        rfl
      · exact .inr ⟨a', rfl, hzs⟩

theorem continuesName_point : continuesName '.' = false := by
  rw [continuesName, ← isWord]
  exact isWord_of_symbol (by decide) rfl

/-- A token starts at a digit that no character of a word touches, and at every point. -/
theorem exists_spots_suffix (h : spots s = a ++ y :: rest)
    (hy : y.char = '.' ∨ y.char.isDigit ∧
      ∀ z, a.getLast? = some z → z.gap = [] → continuesName z.char = false) :
    ∃ s', s' <:+ s ∧ spots s' = y :: rest := by
  have hall : ∀ o ∈ operators, ∀ d ∈ o, d ≠ '.' ∧ d.isDigit = false := forall_mem_mem_of_all rfl
  have hpoint := continuesName_point
  induction s using spots_induction generalizing a with
  | nil => simp [spots_nil] at h
  | blank c t hc ih =>
    rw [spots_blank hc] at h
    obtain ⟨s', hsuffix, hs'⟩ := ih h hy
    exact ⟨s', hsuffix.trans (suffix_cons c t), hs'⟩
  | token c t u r hc htoken happend ih =>
    have hspots := spots_token hc htoken
    rw [h] at hspots
    rcases marked_before hspots.symm with rfl | ⟨z, hlast, hgap, hz, hyu⟩ | ⟨a', rfl, hrest⟩
    · exact ⟨c :: t, suffix_rfl, h⟩
    · -- no token has such a character inside
      exfalso
      rcases takeToken_shape hc htoken with rfl | hname | ⟨d, rfl, hop⟩
      · cases hyu
      · rcases hy with hy | ⟨-, hy⟩
        · rw [← hy, hname y.char (mem_cons_of_mem c hyu)] at hpoint
          cases hpoint
        · have hz' := hy z hlast hgap
          rw [hname z.char hz] at hz'
          cases hz'
      · obtain ⟨hne, hdigit⟩ := hall _ hop y.char (mem_cons_of_mem c hyu)
        rcases hy with hy | ⟨hy, -⟩
        · exact hne hy
        · rw [hdigit] at hy
          cases hy
    · have hsuffix : r <:+ c :: t := ⟨c :: u, by rw [happend]; rfl⟩
      obtain ⟨s', hs', heq⟩ := ih hrest (hy.imp_right fun hy => ⟨hy.1, fun z hz => hy.2 z (by
        rw [getLast?_append, hz]
        rfl)⟩)
      exact ⟨s', hs'.trans hsuffix, heq⟩

end Obscura.Layout
