import Mathlib.Data.List.TakeWhile
import Obscura.Layout.Token
import Obscura.Proofs.Characters

/-
  Spacing keeps the tokens of a text. How far a token reaches depends on the
  character behind it alone (`takeToken_again`), and a space ends every token. A
  space is left out only behind a token that nothing prolongs
  (`takeToken_of_tight`), so that each token is read again as it was.
-/

namespace Obscura.Layout

open Text List

variable {c : Char} {last b : Token} {r u s t : Chars} {apart space : Bool} {ts : List Token}

/-! ## One token -/

/-- A character that neither a name nor a number starts with, and no blank. -/
structure IsMark (c : Char) : Prop where
  blank : isBlank c = false
  name : (isLetter c || c == '_') = false
  figure : isFigure c = false

theorem takeToken_blank (hc : isBlank c) :
    takeToken c s = (blank, s.dropWhile isBlank) := by
  unfold takeToken
  rw [if_pos hc]

theorem takeToken_name (hb : isBlank c = false) (hc : (isLetter c || c == '_')) :
    takeToken c s = (c :: s.takeWhile continuesName, s.dropWhile continuesName) := by
  unfold takeToken
  rw [if_neg (by simp [hb]), if_pos hc]

theorem takeToken_hex {x : Char} (hx : x = 'x' ∨ x = 'X') :
    takeToken '0' (x :: t) = ('0' :: x :: t.takeWhile isHexDigit, t.dropWhile isHexDigit) := by
  have hl : isLetter '0' = false := isLetter_eq_isAlpha (by decide)
  unfold takeToken
  rw [if_neg (by decide), if_neg (by simp [hl]), if_pos (by decide)]
  rcases hx with rfl | rfl <;> rfl

theorem takeToken_figures (hb : isBlank c = false)
    (hn : (isLetter c || c == '_') = false) (hc : isFigure c)
    (hx : ¬(c = '0' ∧ (s.head? = some 'x' ∨ s.head? = some 'X'))) :
    takeToken c s = (c :: s.takeWhile isFigure, s.dropWhile isFigure) := by
  unfold takeToken
  rw [if_neg (by simp [hb]), if_neg (by simp [hn]), if_pos hc]
  split
  · exact absurd ⟨rfl, .inl rfl⟩ hx
  · exact absurd ⟨rfl, .inr rfl⟩ hx
  · rfl

theorem takeToken_operator {d : Char} (hc : IsMark c) (hop : operators.contains [c, d]) :
    takeToken c (d :: t) = ([c, d], t) := by
  unfold takeToken
  rw [if_neg (by simp [hc.blank]), if_neg (by simp [hc.name]), if_neg (by simp [hc.figure])]
  exact if_pos hop

theorem takeToken_mark (hc : IsMark c)
    (h : ∀ d, s.head? = some d → operators.contains [c, d] = false) :
    takeToken c s = ([c], s) := by
  unfold takeToken
  rw [if_neg (by simp [hc.blank]), if_neg (by simp [hc.name]), if_neg (by simp [hc.figure])]
  cases s with
  | nil => rfl
  | cons d t => exact if_neg (Bool.eq_false_iff.1 (h d rfl))

theorem exists_takeToken (hc : isBlank c = false) (s : Chars) :
    ∃ u, (takeToken c s).1 = c :: u ∧ u ++ (takeToken c s).2 = s := by
  unfold takeToken
  rw [if_neg (by simp [hc])]
  split
  · exact ⟨_, rfl, takeWhile_append_dropWhile⟩
  split
  · split
    · exact ⟨_, rfl, by simp [takeWhile_append_dropWhile]⟩
    · exact ⟨_, rfl, by simp [takeWhile_append_dropWhile]⟩
    · exact ⟨_, rfl, takeWhile_append_dropWhile⟩
  split
  · exact ⟨_, rfl, rfl⟩
  split
  · exact ⟨_, rfl, rfl⟩
  · exact ⟨_, rfl, rfl⟩

/-! ## What stands behind a token -/

/-- The text `r'` ends a token that `r` ends: it starts as `r` does or with a space, or
it is empty. -/
def EndsAlike (r r' : Chars) : Prop :=
  ∀ c, r'.head? = some c → r.head? = some c ∨ c = ' '

theorem isFigure_space : isFigure ' ' = false := isFigure_eq_isDigit (by decide)

theorem continuesName_space : continuesName ' ' = false := by
  have hw : isWord ' ' = false := isWord_of_isBlank (by decide)
  simpa [isWord, continuesName] using hw

theorem contains_operators_space : operators.contains [c, ' '] = false := by
  simp [operators]

section Run

variable {p : Char → Bool} {s r' : Chars} (h : EndsAlike (s.dropWhile p) r')

include h

/-- The text with another end starts as it did, if it is not at its end. -/
theorem head?_again (hc : (s.takeWhile p ++ r').head? = some c) : s.head? = some c ∨ c = ' ' := by
  cases s with
  | nil => exact h c hc
  | cons d s =>
    by_cases hd : p d
    · rw [takeWhile_cons_of_pos hd] at hc
      exact .inl hc
    · rw [takeWhile_cons_of_neg hd] at hc
      rw [dropWhile_cons_of_neg hd] at h
      exact h c hc

variable (hp : p ' ' = false)

include hp

theorem EndsAlike.of_run : ∀ c, r'.head? = some c → p c = false := by
  intro c hc
  rcases h c hc with hc | rfl
  · exact dropWhile_stops hc
  · exact hp

theorem takeWhile_again : (s.takeWhile p ++ r').takeWhile p = s.takeWhile p :=
  takeWhile_run (fun _ hc => mem_takeWhile_imp hc) (h.of_run hp)

theorem dropWhile_again : (s.takeWhile p ++ r').dropWhile p = r' :=
  dropWhile_run (fun _ hc => mem_takeWhile_imp hc) (h.of_run hp)

end Run

theorem takeToken_again (hb : isBlank c = false) {r' : Chars}
    (hu : (takeToken c s).1 = c :: u) (h : EndsAlike (takeToken c s).2 r') :
    takeToken c (u ++ r') = (c :: u, r') := by
  by_cases hname : (isLetter c || c == '_')
  · rw [takeToken_name hb hname] at hu h
    obtain ⟨-, rfl⟩ := cons.inj hu
    rw [takeToken_name hb hname, takeWhile_again h continuesName_space,
      dropWhile_again h continuesName_space]
  rw [Bool.not_eq_true] at hname
  by_cases hfig : isFigure c
  · by_cases hx : c = '0' ∧ (s.head? = some 'x' ∨ s.head? = some 'X')
    · obtain ⟨rfl, hhead⟩ := hx
      obtain ⟨x, t, rfl, hx⟩ : ∃ x t, s = x :: t ∧ (x = 'x' ∨ x = 'X') := by
        cases s with
        | nil => simp at hhead
        | cons x t => exact ⟨x, t, rfl, by simpa using hhead⟩
      rw [takeToken_hex hx] at hu h
      obtain ⟨-, rfl⟩ := cons.inj hu
      rw [cons_append, takeToken_hex hx, takeWhile_again h (by decide),
        dropWhile_again h (by decide)]
    · rw [takeToken_figures hb hname hfig hx] at hu h
      obtain ⟨-, rfl⟩ := cons.inj hu
      have hx' : ¬(c = '0' ∧ ((s.takeWhile isFigure ++ r').head? = some 'x' ∨
          (s.takeWhile isFigure ++ r').head? = some 'X')) := by
        rintro ⟨rfl, hhead⟩
        refine hx ⟨rfl, ?_⟩
        rcases hhead with hhead | hhead
        · exact .inl ((head?_again h hhead).resolve_right (by decide))
        · exact .inr ((head?_again h hhead).resolve_right (by decide))
      rw [takeToken_figures hb hname hfig hx', takeWhile_again h isFigure_space,
        dropWhile_again h isFigure_space]
  have hmark : IsMark c := ⟨hb, hname, by simpa using hfig⟩
  by_cases hop : ∃ d t, s = d :: t ∧ operators.contains [c, d]
  · obtain ⟨d, t, rfl, hop⟩ := hop
    rw [takeToken_operator hmark hop] at hu h
    obtain ⟨-, rfl⟩ := cons.inj hu
    exact takeToken_operator hmark hop
  · have hnone : ∀ d, s.head? = some d → operators.contains [c, d] = false := by
      intro d hd
      obtain ⟨t, rfl⟩ := head?_eq_some_iff.1 hd
      exact Bool.eq_false_iff.2 fun hcd => hop ⟨d, t, rfl, hcd⟩
    rw [takeToken_mark hmark hnone] at hu h
    obtain ⟨-, rfl⟩ := cons.inj hu
    refine takeToken_mark hmark fun d hd => ?_
    rcases h d hd with hd | rfl
    · exact hnone d hd
    · exact contains_operators_space

theorem tight_eq : tight = "(\x7b[.,;".toList.map ([·]) := by
  decide

theorem takeToken_of_tight (ht : c :: u ∈ tight) :
    takeToken c (u ++ r) = (c :: u, r) := by
  rw [tight_eq] at ht
  obtain ⟨d, hd, he⟩ := mem_map.1 ht
  obtain ⟨rfl, rfl⟩ := cons.inj he
  have hall : ∀ d ∈ "(\x7b[.,;".toList, d.toNat < 128 ∧ isBlank d = false ∧
      (d.isAlpha || d == '_') = false ∧ d.isDigit = false ∧ ∀ o ∈ operators, o.head? ≠ some d :=
    forall_mem_of_all rfl
  obtain ⟨hascii, hb, hn, hf, hop⟩ := hall d hd
  rw [← isLetter_eq_isAlpha hascii] at hn
  rw [← isFigure_eq_isDigit hascii] at hf
  refine takeToken_mark ⟨hb, hn, hf⟩ fun e _ => ?_
  rw [Bool.eq_false_iff]
  intro hcontains
  exact hop [d, e] (contains_iff_mem.1 hcontains) rfl

/-! ## All tokens -/

theorem tokens_nil : tokens [] = [] := by
  rw [tokens]

theorem tokens_cons :
    tokens (c :: s) = (takeToken c s).1 :: tokens (takeToken c s).2 := by
  rw [tokens]

theorem tokens_space (hs : ∀ c, s.head? = some c → isBlank c = false) :
    tokens (' ' :: s) = blank :: tokens s := by
  rw [tokens_cons, takeToken_blank (by decide), dropWhile_of_head? hs]

theorem cons_ne_blank (hc : isBlank c = false) (u : Chars) : c :: u ≠ blank := by
  intro h
  obtain ⟨rfl, -⟩ := cons.inj h
  cases hc

theorem respaceAfter_cons {t : Token} (ht : t ≠ blank) :
    respaceAfter last apart (t :: ts) =
      (if spaceBetween apart last t then [' '] else []) ++ t ++ respaceAfter t false ts := by
  rw [respaceAfter, if_neg ht]

/-- Behind a token that is not tight the text goes on as the source does, or with a
space. -/
theorem endsAlike_respaceAfter (hlast : last ∉ tight) (s : Chars) :
    EndsAlike s (respaceAfter last false (tokens s)) := by
  intro d hd
  cases s with
  | nil =>
    rw [tokens_nil, respaceAfter] at hd
    cases hd
  | cons c s =>
    by_cases hc : isBlank c
    · rw [tokens_cons, takeToken_blank hc, respaceAfter, if_pos rfl] at hd
      cases hr : s.dropWhile isBlank with
      | nil =>
        rw [hr, tokens_nil, respaceAfter] at hd
        cases hd
      | cons e r =>
        have he : isBlank e = false := dropWhile_stops (by rw [hr]; rfl)
        obtain ⟨u, hu, -⟩ := exists_takeToken he r
        have hspace : spaceBetween true last (e :: u) := by simpa [spaceBetween] using hlast
        rw [hr, tokens_cons, hu, respaceAfter_cons (cons_ne_blank he u), hspace] at hd
        exact .inr (Option.some.inj hd).symm
    · rw [Bool.not_eq_true] at hc
      obtain ⟨u, hu, -⟩ := exists_takeToken hc s
      rw [tokens_cons, hu, respaceAfter_cons (cons_ne_blank hc u)] at hd
      by_cases hspace : spaceBetween false last (c :: u)
      · rw [if_pos hspace] at hd
        exact .inr (Option.some.inj hd).symm
      · rw [if_neg hspace] at hd
        exact .inl hd

/-- The token at the front of a text is read again in front of what is written behind
it. -/
theorem takeToken_respaceAfter (hc : isBlank c = false)
    (hu : (takeToken c s).1 = c :: u) :
    takeToken c (u ++ respaceAfter (c :: u) false (tokens (takeToken c s).2)) =
      (c :: u, respaceAfter (c :: u) false (tokens (takeToken c s).2)) := by
  by_cases ht : c :: u ∈ tight
  · exact takeToken_of_tight ht
  · exact takeToken_again hc hu (endsAlike_respaceAfter ht _)

theorem tokens_spaced (hc : isBlank c = false)
    (h : takeToken c (u ++ r) = (c :: u, r)) :
    tokens ((if space then [' '] else []) ++ c :: u ++ r) =
      (if space then [blank] else []) ++ (c :: u) :: tokens r := by
  have hread : tokens (c :: (u ++ r)) = (c :: u) :: tokens r := by rw [tokens_cons, h]
  cases space with
  | false => exact hread
  | true =>
    show tokens (' ' :: c :: (u ++ r)) = blank :: (c :: u) :: tokens r
    rw [← hread]
    refine tokens_space fun d hd => ?_
    cases hd
    exact hc

theorem filter_tokens_cons (hc : isBlank c = false)
    (h : takeToken c (u ++ r) = (c :: u, r)) (space : Bool) :
    (tokens ((if space then [' '] else []) ++ c :: u ++ r)).filter (· ≠ blank) =
      (c :: u) :: (tokens r).filter (· ≠ blank) := by
  have hkeep : ((c :: u) :: tokens r).filter (· ≠ blank) = (c :: u) :: (tokens r).filter (· ≠ blank) :=
    filter_cons_of_pos (by simpa using cons_ne_blank hc u)
  rw [tokens_spaced hc h, filter_append, hkeep]
  cases space <;> rfl

/-- The induction follows the tokens of the source; `last` is the one written last. -/
theorem filter_tokens_respaceAfter (last : Token) (apart : Bool) (s : Chars) :
    (tokens (respaceAfter last apart (tokens s))).filter (· ≠ blank) =
      (tokens s).filter (· ≠ blank) := by
  fun_induction tokens s generalizing last apart with
  | case1 => rw [respaceAfter, tokens_nil]
  | case2 c s ih =>
    by_cases hc : isBlank c
    · rw [takeToken_blank hc] at ih ⊢
      rw [respaceAfter, if_pos rfl, ih]
      rfl
    · rw [Bool.not_eq_true] at hc
      obtain ⟨u, hu, -⟩ := exists_takeToken hc s
      have hne := cons_ne_blank hc u
      rw [hu, respaceAfter_cons hne, filter_tokens_cons hc (takeToken_respaceAfter hc hu), ih,
        filter_cons_of_pos (by simpa using hne)]

theorem spaceBetween_of_tight {a : Token} (ha : a ∈ tight) :
    spaceBetween apart a b = false := by
  have hall : ∀ t ∈ tight, isWordToken t = false ∧ closers.contains t = false :=
    forall_mem_of_all rfl
  cases apart with
  | false =>
    rw [spaceBetween, if_neg Bool.false_ne_true, needsSpace, (hall a ha).1, (hall a ha).2, Bool.or_false,
      Bool.and_false]
  | true => simpa [spaceBetween] using ha

/-- A text is spaced as behind an opening bracket. -/
theorem respace_eq (apart : Bool) (ts : List Token) : respace ts = respaceAfter ['('] apart ts := by
  induction ts generalizing apart with
  | nil => rfl
  | cons t ts ih =>
    rw [respace, respaceAfter]
    split
    · exact ih true
    · rw [spaceBetween_of_tight (by decide)]
      rfl

/-- **Spacing keeps the tokens of a text**, blanks apart: none is merged with another or
split, lost, doubled or moved. -/
theorem respace_keeps_tokens (s : Chars) :
    (tokens (respace (tokens s))).filter (· ≠ blank) = (tokens s).filter (· ≠ blank) := by
  rw [respace_eq false]
  exact filter_tokens_respaceAfter _ _ s

end Obscura.Layout
