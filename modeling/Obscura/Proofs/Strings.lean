import Mathlib.Data.List.Induction
import Obscura.Proofs.Comments
import Obscura.Proofs.Renaming

/-
  What renaming does to string literals and version directives. No word character
  opens or closes a literal or a comment, so that a text whose words are exchanged for
  other words is read by the lexical scan as before (`scan?_onWords`): its literals
  are those of the text, with their words exchanged too. So a literal stays as it is
  just where none of its words is renamed, and so does a directive.
-/

namespace Obscura.Text

open List

/-! ## Exchanging words -/

def Chunk.onWord (f : Chars → Chars) : Chunk → Chunk
  | .word w => .word (f w)
  | .mark c => .mark c

/-- The text with each of its words `w` exchanged for `f w`. -/
def onWords (f : Chars → Chars) (s : Chars) : Chars :=
  ((chunks s).map (Chunk.onWord f)).flatMap Chunk.text

/-- A text is empty, or a mark or a whole word stands at its front. -/
theorem front_cases (s : Chars) :
    s = [] ∨ (∃ c t, isWord c = false ∧ s = c :: t) ∨
      ∃ w t, IsRun w ∧ isWordAt t.head? = false ∧ s = w ++ t := by
  have hsep := separated_chunks s
  have htext := flatMap_text_chunks s
  cases hs : chunks s with
  | nil =>
    rw [hs] at htext
    exact .inl htext.symm
  | cons k ks =>
    rw [hs] at hsep htext
    cases k with
    | mark c => exact .inr (.inl ⟨c, _, hsep.1, htext.symm⟩)
    | word w => exact .inr (.inr ⟨w, _, hsep.1, hsep.2.1, htext.symm⟩)

@[elab_as_elim]
theorem front_induction {motive : Chars → Prop} (s : Chars) (nil : motive [])
    (mark : ∀ c t, isWord c = false → motive t → motive (c :: t))
    (run : ∀ w t, IsRun w → isWordAt t.head? = false → motive t → motive (w ++ t)) : motive s := by
  induction hn : s.length using Nat.strongRecOn generalizing s with
  | ind n ih =>
    rcases front_cases s with rfl | ⟨c, t, hc, rfl⟩ | ⟨w, t, hw, ht, rfl⟩
    · exact nil
    · exact mark c t hc (ih t.length (by simp [← hn]) t rfl)
    · have hpos := length_pos_of_ne_nil hw.1
      exact run w t hw ht (ih t.length (by simp [← hn, hpos]) t rfl)

theorem isWordAt_head?_of_append {a r : Chars} (hne : a ≠ []) (h : isWordAt (a ++ r).head? = false) :
    isWordAt a.head? = false := by
  obtain ⟨c, t, rfl⟩ := exists_cons_of_ne_nil hne
  exact h

section OnWords

variable {f : Chars → Chars}

theorem onWords_nil : onWords f [] = [] := by
  rw [onWords, chunks_nil]
  rfl

theorem onWords_mark {c : Char} (hc : isWord c = false) (t : Chars) :
    onWords f (c :: t) = c :: onWords f t := by
  rw [onWords, chunks_mark hc]
  rfl

theorem onWords_run {w t : Chars} (hw : IsRun w) (ht : isWordAt t.head? = false) :
    onWords f (w ++ t) = f w ++ onWords f t := by
  rw [onWords, chunks_word hw.1 hw.2 ht]
  rfl

theorem onWords_append {a b : Chars} (h : isWordAt a.getLast? = false ∨ isWordAt b.head? = false) :
    onWords f (a ++ b) = onWords f a ++ onWords f b := by
  rw [onWords, chunks_append h, map_append, flatMap_append]
  rfl

variable (hf : ∀ w, IsRun w → IsRun (f w)) {s : Chars}

include hf

theorem chunks_onWords : chunks (onWords f s) = (chunks s).map (Chunk.onWord f) :=
  chunks_of_separated ((separated_chunks s).map (fun _ => rfl) fun w hw => ⟨f w, hf w hw, rfl⟩).1

theorem head?_onWords {c : Char} (hc : isWord c = false) :
    (onWords f s).head? = some c ↔ s.head? = some c := by
  rcases front_cases s with rfl | ⟨d, t, hd, rfl⟩ | ⟨w, t, hw, ht, rfl⟩
  · rw [onWords_nil]
  · rw [onWords_mark hd]
    rfl
  · have hno {u r : Chars} (hu : IsRun u) : (u ++ r).head? ≠ some c := by
      intro h
      have := isWordAt_head?_append hu.1 hu.2 (t := r)
      rw [h, isWordAt_some, hc] at this
      cases this
    rw [onWords_run hw ht]
    exact iff_of_false (hno (hf w hw)) (hno hw)

end OnWords

end Obscura.Text

namespace Obscura.Layout

open Text List

variable {a r s t w : Chars} {c : Char} {fs : List Fragment}

/-! ## Literals and comments in a text with other words -/

def literalTexts (fs : List Fragment) : List Chars :=
  fs.filterMap fun
    | .literal t => some t
    | _ => none

theorem ne_of_isWord {d : Char} (hc : isWord c) (hd : isWord d = false) : c ≠ d := by
  rintro rfl
  rw [hc] at hd
  cases hd

theorem isWord_of_isQuote {q : Char} (h : isQuote q) : isWord q = false := by
  simp only [isQuote, Bool.or_eq_true, beq_iff_eq] at h
  rcases h with rfl | rfl
  · exact isWord_of_symbol (by decide) rfl
  · exact isWord_of_symbol (by decide) rfl

theorem isWord_backslash : isWord '\\' = false := isWord_of_symbol (by decide) rfl

theorem isWord_star : isWord '*' = false := isWord_of_symbol (by decide) rfl

theorem isWord_slash : isWord '/' = false := isWord_of_symbol (by decide) rfl

section Closing

variable {q d : Char}

theorem closing?_escape :
    Literal.closing? (fun _ => true) q ('\\' :: d :: t) =
      (Literal.closing? (fun _ => true) q t).map fun p => ('\\' :: d :: p.1, p.2) := by
  rw [Literal.closing?, if_pos rfl]

theorem closing?_run (hq : isWord q = false) (hw : ∀ c ∈ w, isWord c) :
    Literal.closing? (fun _ => true) q (w ++ t) =
      (Literal.closing? (fun _ => true) q t).map fun p => (w ++ p.1, p.2) := by
  induction w with
  | nil => simp
  | cons c w ih =>
    have hc := hw c mem_cons_self
    rw [cons_append, Literal.closing?_cons (ne_of_isWord hc isWord_backslash), if_neg (ne_of_isWord hc hq),
      ih fun d hd => hw d (.tail _ hd), Option.map_map]
    rfl

variable {f : Chars → Chars}

theorem onWords_of_closing? (hw : IsRun w) (ht : isWordAt t.head? = false)
    (h : Literal.closing? (fun _ => true) q t = some (a, r)) :
    onWords f (w ++ a) = f w ++ onWords f a := by
  rw [← Literal.closing?_append h] at ht
  obtain ⟨m, rfl⟩ := Literal.exists_of_closing? h
  exact onWords_run hw (isWordAt_head?_of_append (by simp) ht)

variable (hf : ∀ w, IsRun w → IsRun (f w)) (hq : isWord q = false) (hb : q ≠ '\\')

include hf hq hb

/-- A backslash takes the next character with it, also if that is the first one of a
word; the rest of the word is passed over. -/
theorem closing?_onWords_escape (h : Literal.closing? (fun _ => true) q ('\\' :: t) = some (a, r))
    (ih : ∀ u b, u.length < t.length → Literal.closing? (fun _ => true) q u = some (b, r) →
      Literal.closing? (fun _ => true) q (onWords f u) = some (onWords f b, onWords f r)) :
    Literal.closing? (fun _ => true) q ('\\' :: onWords f t) = some (onWords f a, onWords f r) := by
  rcases front_cases t with rfl | ⟨d, u, hd, rfl⟩ | ⟨w, u, hw, hu, rfl⟩
  · simp [Literal.closing?, hb.symm] at h
  · rw [closing?_escape] at h
    obtain ⟨⟨b, r'⟩, hcut, he⟩ := Option.map_eq_some_iff.1 h
    obtain ⟨rfl, rfl⟩ := Prod.mk.inj he
    rw [onWords_mark hd, closing?_escape, ih u b (by simp) hcut, onWords_mark isWord_backslash,
      onWords_mark hd]
    rfl
  · obtain ⟨d, v, rfl⟩ := exists_cons_of_ne_nil hw.1
    have hv : ∀ e ∈ v, isWord e = true := fun e he => hw.2 e (.tail _ he)
    rw [cons_append, closing?_escape, closing?_run hq hv, Option.map_map] at h
    obtain ⟨⟨b, r'⟩, hcut, he⟩ := Option.map_eq_some_iff.1 h
    obtain ⟨rfl, rfl⟩ := Prod.mk.inj he
    obtain ⟨d', v', hfw⟩ := exists_cons_of_ne_nil (hf _ hw).1
    have hv' : ∀ e ∈ v', isWord e = true := fun e he => (hf _ hw).2 e (hfw ▸ .tail _ he)
    have hrest := ih u b (by simp only [length_append, length_cons]; omega) hcut
    rw [onWords_run hw hu, hfw, cons_append, closing?_escape, closing?_run hq hv', hrest,
      onWords_mark isWord_backslash, ← cons_append, onWords_of_closing? hw hu hcut, hfw]
    rfl

/-- A literal is closed at the same quote. The induction is on the length of the text,
since a backslash may cut a word. -/
theorem closing?_onWords (h : Literal.closing? (fun _ => true) q s = some (a, r)) :
    Literal.closing? (fun _ => true) q (onWords f s) = some (onWords f a, onWords f r) := by
  induction hn : s.length using Nat.strongRecOn generalizing s a with
  | ind n ih =>
    rcases front_cases s with rfl | ⟨c, t, hc, rfl⟩ | ⟨w, t, hw, ht, rfl⟩
    · cases h
    · rw [onWords_mark hc]
      by_cases hback : c = '\\'
      · subst hback
        refine closing?_onWords_escape hf hq hb h fun u b hu hcut => ih u.length ?_ hcut rfl
        rw [← hn, length_cons]
        omega
      by_cases hquote : c = q
      · subst hquote
        rw [Literal.closing?, if_pos rfl] at h ⊢
        · obtain ⟨rfl, rfl⟩ := Prod.mk.inj (Option.some.inj h)
          rw [onWords_mark hc, onWords_nil]
        · intro d u hd
          exact absurd hd hback
        · intro d u hd
          exact absurd hd hback
      · rw [Literal.closing?_cons hback, if_neg hquote] at h ⊢
        obtain ⟨⟨b, r'⟩, hcut, he⟩ := Option.map_eq_some_iff.1 h
        obtain ⟨rfl, rfl⟩ := Prod.mk.inj he
        rw [ih t.length (by simp at hn; omega) hcut rfl, onWords_mark hc]
        rfl
    · rw [closing?_run hq hw.2] at h
      obtain ⟨⟨b, r'⟩, hcut, he⟩ := Option.map_eq_some_iff.1 h
      obtain ⟨rfl, rfl⟩ := Prod.mk.inj he
      have hpos := length_pos_of_ne_nil hw.1
      rw [onWords_run hw ht, closing?_run hq (hf w hw).2,
        ih t.length (by simp at hn; omega) hcut rfl, onWords_of_closing? hw ht hcut]
      rfl

end Closing

theorem closeBlock?_run (hw : ∀ c ∈ w, isWord c) :
    closeBlock? (w ++ t) = (closeBlock? t).map fun p => (w ++ p.1, p.2) := by
  induction w with
  | nil => simp
  | cons c w ih =>
    have hc := ne_of_isWord (hw c mem_cons_self) isWord_star
    rw [cons_append, closeBlock?_cons fun h => hc h.1, ih fun d hd => hw d (.tail _ hd),
      Option.map_map]
    rfl

theorem scan?_literal {q : Char} (hq : isQuote q)
    (h : Literal.closing? (fun _ => true) q t = some (a, r)) :
    scan? (q :: t) = (scan? r).map (.literal (q :: a) :: ·) := by
  rw [scan?, if_pos hq]
  split
  · rename_i a' r' h'
    rw [h] at h'
    obtain ⟨rfl, rfl⟩ := Prod.mk.inj (Option.some.inj h')
    rfl
  · rename_i h'
    rw [h] at h'
    cases h'

theorem scan?_comment (hc : isQuote c = false)
    (h : comment? (c :: t) = some (a, r)) : scan? (c :: t) = (scan? r).map (.comment a :: ·) := by
  rw [scan?, if_neg (Bool.eq_false_iff.1 hc)]
  split
  · rename_i a' r' h'
    rw [h] at h'
    obtain ⟨rfl, rfl⟩ := Prod.mk.inj (Option.some.inj h')
    rfl
  · rename_i h'
    rw [h] at h'
    cases h'

theorem scan?_block (h : closeBlock? t = some (a, r)) :
    scan? ('/' :: '*' :: t) = (scan? r).map (.comment ('/' :: '*' :: a) :: ·) := by
  refine scan?_comment rfl ?_
  rw [comment?, block?, h]
  rfl

theorem scan?_line :
    scan? ('/' :: '/' :: t) =
      (scan? (t.dropWhile (!endsLineComment ·))).map
        (.comment ('/' :: '/' :: t.takeWhile (!endsLineComment ·)) :: ·) := scan?_comment rfl rfl

/-- No comment starts at the front. -/
def CodeAhead (c : Char) (t : Chars) : Prop :=
  isQuote c = false ∧ (c = '/' → t.head? ≠ some '*' ∧ t.head? ≠ some '/')

theorem scan?_code (h : CodeAhead c t) : scan? (c :: t) = (scan? t).map (.code c :: ·) := by
  have hnone : comment? (c :: t) = none := by
    rw [comment?, block?, line?]
    · rintro u ⟨⟩
      exact (h.2 rfl).2 rfl
    · rintro u ⟨⟩
      exact (h.2 rfl).1 rfl
  rw [scan?, if_neg (Bool.eq_false_iff.1 h.1)]
  split
  · rename_i h'
    rw [hnone] at h'
    cases h'
  · exact if_neg fun hopen => (h.2 hopen.1).1 hopen.2

theorem scan?_cases (h : scan? (c :: t) = some fs) :
    (isQuote c = true ∧ ∃ a r, Literal.closing? (fun _ => true) c t = some (a, r)) ∨
      (∃ u a r, c = '/' ∧ t = '*' :: u ∧ closeBlock? u = some (a, r)) ∨
      (∃ u, c = '/' ∧ t = '/' :: u) ∨ CodeAhead c t := by
  by_cases hq : isQuote c
  · rw [scan?, if_pos hq] at h
    split at h
    · exact .inl ⟨hq, _, _, by assumption⟩
    · cases h
  by_cases hblock : c = '/' ∧ t.head? = some '*'
  · obtain ⟨rfl, ht⟩ := hblock
    obtain ⟨u, rfl⟩ := head?_eq_some_iff.1 ht
    cases hu : closeBlock? u with
    | some p => exact .inr (.inl ⟨u, p.1, p.2, rfl, rfl, hu⟩)
    | none =>
      have hnone : comment? ('/' :: '*' :: u) = none := by
        rw [comment?, block?, hu]
        rfl
      rw [scan?, if_neg hq] at h
      split at h
      · rename_i h'
        rw [hnone] at h'
        cases h'
      · rw [if_pos ⟨rfl, rfl⟩] at h
        cases h
  by_cases hline : c = '/' ∧ t.head? = some '/'
  · obtain ⟨rfl, ht⟩ := hline
    obtain ⟨u, rfl⟩ := head?_eq_some_iff.1 ht
    exact .inr (.inr (.inl ⟨u, rfl, rfl⟩))
  · refine .inr (.inr (.inr ⟨Bool.eq_false_iff.2 hq, fun hc => ⟨?_, ?_⟩⟩))
    · exact fun ht => hblock ⟨hc, ht⟩
    · exact fun ht => hline ⟨hc, ht⟩

theorem scan?_run (hw : ∀ c ∈ w, isWord c) :
    scan? (w ++ t) = (scan? t).map (w.map .code ++ ·) := by
  induction w with
  | nil => simp
  | cons c w ih =>
    have hc := hw c mem_cons_self
    have hcode : CodeAhead c (w ++ t) := by
      refine ⟨?_, fun h => absurd h (ne_of_isWord hc isWord_slash)⟩
      rw [Bool.eq_false_iff]
      intro hq
      rw [isWord_of_isQuote hq] at hc
      cases hc
    rw [cons_append, scan?_code hcode, ih fun d hd => hw d (.tail _ hd), Option.map_map]
    rfl

theorem literalTexts_run : literalTexts (w.map .code ++ fs) = literalTexts fs := by
  induction w with
  | nil => rfl
  | cons c w ih => exact ih

theorem endsLineComment_of_isWord (h : isWord c) : (!endsLineComment c) := by
  rw [endsLineComment, Bool.not_eq_true', Bool.or_eq_false_iff, beq_eq_false_iff_ne, beq_eq_false_iff_ne]
  have hbreak {d : Char} (hd : d.toNat < 128) (h' : (d.isAlphanum || d == '_') = false) : c ≠ d :=
    ne_of_isWord h (isWord_of_symbol hd h')
  exact ⟨hbreak (by decide) (by decide), hbreak (by decide) (by decide)⟩

section OtherWords

variable {f : Chars → Chars} (hf : ∀ w, IsRun w → IsRun (f w))

include hf

theorem CodeAhead.onWords (h : CodeAhead c t) : CodeAhead c (onWords f t) := by
  refine ⟨h.1, fun hc => ?_⟩
  rw [Ne, Ne, head?_onWords hf isWord_star, head?_onWords hf isWord_slash]
  exact h.2 hc

theorem closeBlock?_onWords (h : closeBlock? s = some (a, r)) :
    ∃ a', closeBlock? (onWords f s) = some (a', onWords f r) := by
  induction s using front_induction generalizing a with
  | nil => cases h
  | mark c t hc ih =>
    rw [onWords_mark hc]
    by_cases hend : c = '*' ∧ t.head? = some '/'
    · obtain ⟨rfl, ht⟩ := hend
      obtain ⟨u, rfl⟩ := head?_eq_some_iff.1 ht
      obtain ⟨-, rfl⟩ := Prod.mk.inj (Option.some.inj h)
      rw [onWords_mark isWord_slash]
      exact ⟨_, rfl⟩
    · rw [closeBlock?_cons hend] at h
      obtain ⟨⟨b, r'⟩, hcut, he⟩ := Option.map_eq_some_iff.1 h
      obtain ⟨-, rfl⟩ := Prod.mk.inj he
      obtain ⟨b', hb'⟩ := ih hcut
      rw [closeBlock?_cons (by rwa [head?_onWords hf isWord_slash]), hb']
      exact ⟨_, rfl⟩
  | run w t hw ht ih =>
    rw [closeBlock?_run hw.2] at h
    obtain ⟨⟨b, r'⟩, hcut, he⟩ := Option.map_eq_some_iff.1 h
    obtain ⟨-, rfl⟩ := Prod.mk.inj he
    obtain ⟨b', hb'⟩ := ih hcut
    rw [onWords_run hw ht, closeBlock?_run (hf w hw).2, hb']
    exact ⟨_, rfl⟩

theorem dropWhile_onWords :
    (onWords f s).dropWhile (!endsLineComment ·) = onWords f (s.dropWhile (!endsLineComment ·)) := by
  have hrun {w : Chars} (hw : IsRun w) (t : Chars) :
      (w ++ t).dropWhile (!endsLineComment ·) = t.dropWhile (!endsLineComment ·) :=
    dropWhile_append_of_pos fun c hc => endsLineComment_of_isWord (hw.2 c hc)
  induction s using front_induction with
  | nil => rw [onWords_nil, dropWhile_nil, onWords_nil]
  | mark c t hc ih =>
    rw [onWords_mark hc, dropWhile_cons, dropWhile_cons]
    split
    · exact ih
    · rw [onWords_mark hc]
  | run w t hw ht ih => rw [onWords_run hw ht, hrun (hf w hw), hrun hw, ih]

/-- **The scan of a text with other words.** It has the same literals, with their words
exchanged. -/
theorem scan?_onWords (h : scan? s = some fs) :
    ∃ fs', scan? (onWords f s) = some fs' ∧ literalTexts fs' = (literalTexts fs).map (onWords f) := by
  induction hn : s.length using Nat.strongRecOn generalizing s fs with
  | ind n ih =>
    rcases front_cases s with rfl | ⟨c, t, hc, rfl⟩ | ⟨w, t, hw, ht, rfl⟩
    · rw [scan?] at h
      cases h
      rw [onWords_nil, scan?]
      exact ⟨[], rfl, rfl⟩
    · rw [onWords_mark hc]
      rcases scan?_cases h with ⟨hq, a, r, hcut⟩ | ⟨u, a, r, rfl, rfl, hcut⟩ | ⟨u, rfl, rfl⟩ | hcode
      · rw [scan?_literal hq hcut] at h
        obtain ⟨gs, hgs, rfl⟩ := Option.map_eq_some_iff.1 h
        have hlen := congrArg length (Literal.closing?_append hcut)
        obtain ⟨gs', hgs', hlits⟩ := ih r.length (by simp at hlen hn; omega) hgs rfl
        have hback : c ≠ '\\' := by
          rintro rfl
          cases hq
        rw [scan?_literal hq (closing?_onWords hf hc hback hcut), hgs']
        refine ⟨_, rfl, ?_⟩
        simp [literalTexts] at hlits ⊢
        exact ⟨(onWords_mark hc a).symm, hlits⟩
      · rw [scan?_block hcut] at h
        obtain ⟨gs, hgs, rfl⟩ := Option.map_eq_some_iff.1 h
        have hlen := congrArg length (closeBlock?_append hcut)
        obtain ⟨gs', hgs', hlits⟩ := ih r.length (by simp at hlen hn; omega) hgs rfl
        obtain ⟨a', hcut'⟩ := closeBlock?_onWords hf hcut
        rw [onWords_mark isWord_star, scan?_block hcut', hgs']
        exact ⟨_, rfl, hlits⟩
      · rw [scan?_line] at h
        obtain ⟨gs, hgs, rfl⟩ := Option.map_eq_some_iff.1 h
        have hlen := (dropWhile_suffix (l := u) (!endsLineComment ·)).length_le
        obtain ⟨gs', hgs', hlits⟩ := ih _ (by simp at hn; omega) hgs rfl
        rw [onWords_mark isWord_slash, scan?_line, dropWhile_onWords hf, hgs']
        exact ⟨_, rfl, hlits⟩
      · rw [scan?_code hcode] at h
        obtain ⟨gs, hgs, rfl⟩ := Option.map_eq_some_iff.1 h
        obtain ⟨gs', hgs', hlits⟩ := ih t.length (by simp at hn; omega) hgs rfl
        rw [scan?_code (hcode.onWords hf), hgs']
        exact ⟨_, rfl, hlits⟩
    · rw [scan?_run hw.2] at h
      obtain ⟨gs, hgs, rfl⟩ := Option.map_eq_some_iff.1 h
      have hpos := length_pos_of_ne_nil hw.1
      obtain ⟨gs', hgs', hlits⟩ := ih t.length (by simp at hn; omega) hgs rfl
      rw [onWords_run hw ht, scan?_run (hf w hw).2, hgs']
      refine ⟨_, rfl, ?_⟩
      rw [literalTexts_run, literalTexts_run]
      exact hlits

end OtherWords

end Obscura.Layout

namespace Obscura.Rename

open Text Layout Json List

/-! ## Names in literals and directives -/

/-- No word of the text is a name. -/
def Nameless (names : Names) (s : Chars) : Prop :=
  ∀ w, Chunk.word w ∈ chunks s → ¬IsName names (String.ofList w)

/-- The text is a version directive. -/
def IsDirective (d : Chars) : Prop :=
  ∃ gap c version, gap ≠ [] ∧ (∀ b ∈ gap, isBlank b = true) ∧ isBlank c = true ∧ version ≠ [] ∧
    ';' ∉ version ∧ d = "pragma".toList ++ gap ++ "solidity".toList ++ c :: version ++ [';']

/-- A listed name becomes its new one, any other word stays. -/
def substituted (names : List String) (new : String → Chars) (w : Chars) : Chars :=
  if String.ofList w ∈ names then new (String.ofList w) else w

theorem renamed_eq_onWord (names : List String) (new : String → Chars) :
    renamed names new = Chunk.onWord (substituted names new) := by
  funext k
  cases k <;> rfl

theorem distinct_concat (us : Names) (n : Key × Json) :
    distinct (us ++ [n]) = if (distinct us).any (·.1 = n.1) then distinct us else distinct us ++ [n] :=
  foldl_append

theorem exists_mem_distinct {names : Names} {n : Key × Json} (h : n ∈ names) :
    ∃ m ∈ distinct names, m.1 = n.1 := by
  induction names using reverseRecOn with
  | nil => cases h
  | append_singleton us u ih =>
    rw [distinct_concat]
    rcases mem_append.1 h with h | h
    · obtain ⟨m, hm, hmn⟩ := ih h
      refine ⟨m, ?_, hmn⟩
      split
      · exact hm
      · exact mem_append_left _ hm
    · obtain rfl := mem_singleton.1 h
      split
      · rename_i hany
        simpa using hany
      · exact ⟨n, by simp, rfl⟩

/-- Without a tree every word that looks like a name and is not reserved is one. -/
theorem isName_wordNames {source w : Chars} (hw : Chunk.word w ∈ chunks source)
    (hlook : looksLikeName w) (hfree : isReserved (String.ofList w) = false) :
    IsName (wordNames source) (String.ofList w) := by
  let words := (chunks source).filterMap fun
    | .word w => if looksLikeName w then some (String.ofList w) else none
    | .mark _ => none
  have hmem : String.ofList w ∈ words := mem_filterMap.2 ⟨.word w, hw, if_pos hlook⟩
  obtain ⟨m, hm, hkey⟩ := exists_mem_distinct (mem_map_of_mem (f := fun w => (Key.text w, Json.str w)) hmem)
  obtain ⟨v, -, rfl⟩ := mem_map.1 (mem_of_mem_distinct hm)
  have hv : v = String.ofList w := Key.text.inj hkey
  subst hv
  refine ⟨_, mem_filter.2 ⟨hm, ?_⟩, rfl⟩
  have hne : (String.ofList w).isEmpty = false := by
    cases w with
    | nil => cases hlook
    | cons c w => simp
  simp [isProtected, hfree, hne]

section Words

variable {f : Chars → Chars} (hf : ∀ w, IsRun w → IsRun (f w))

include hf

theorem onWords_eq_self_iff (s : Chars) :
    onWords f s = s ↔ ∀ w, Chunk.word w ∈ chunks s → f w = w := by
  constructor
  · intro h w hw
    have hmap := chunks_onWords hf (s := s)
    rw [h] at hmap
    have hall : (chunks s).map (Chunk.onWord f) = (chunks s).map id := by rw [map_id, ← hmap]
    exact Chunk.word.inj (map_inj_left.1 hall _ hw)
  · intro h
    have hall : (chunks s).map (Chunk.onWord f) = (chunks s).map id := by
      refine map_congr_left fun k hk => ?_
      cases k with
      | mark c => rfl
      | word w => exact congrArg Chunk.word (h w hk)
    rw [onWords, hall, map_id, flatMap_text_chunks]

end Words

theorem chunks_directive {d : Chars} (h : IsDirective d) :
    Chunk.word "solidity".toList ∈ chunks d ∧ isWordAt d.getLast? = false := by
  obtain ⟨gap, c, version, hne, hgap, hc, -, -, rfl⟩ := h
  have hsemicolon : isWord ';' = false := isWord_of_symbol (by decide) rfl
  have hbefore : isWordAt ("pragma".toList ++ gap).getLast? = false := by
    rw [getLast?_append, getLast?_eq_some_getLast hne]
    exact isWord_of_isBlank (hgap _ (getLast_mem hne))
  have hrun : IsRun "solidity".toList := isRun_of_looksLikeName rfl
  have hbehind : isWordAt (c :: version ++ [';']).head? = false := isWord_of_isBlank hc
  refine ⟨?_, ?_⟩
  · rw [append_assoc, append_assoc, chunks_append (.inl hbefore),
      chunks_word hrun.1 hrun.2 hbehind]
    simp
  · rw [getLast?_concat]
    exact hsemicolon

section Substitution

variable {cfg : Settings} {t : Table} {names : Names} {new : String → Chars}
  (hnew : ∀ w, IsName names w → mappedName cfg t w = .ok (new w) ∧
    looksLikeName (new w) = true ∧ ¬IsName names (String.ofList (new w)))

include hnew

theorem isRun_substituted (w : Chars) (hw : IsRun w) :
    IsRun (substituted (longestFirst names) new w) := by
  unfold substituted
  split
  · rename_i hmem
    exact isRun_of_looksLikeName (hnew _ (mem_longestFirst.1 hmem)).2.1
  · exact hw

/-- A text is left alone by the substitution just if it holds no name. -/
theorem onWords_substituted_iff (s : Chars) :
    onWords (substituted (longestFirst names) new) s = s ↔ Nameless names s := by
  rw [onWords_eq_self_iff (isRun_substituted hnew)]
  refine forall_congr' fun w => imp_congr_right fun _ => ?_
  unfold substituted
  split
  · rename_i hmem
    have hw := mem_longestFirst.1 hmem
    refine iff_of_false (fun heq => (hnew _ hw).2.2 ?_) (not_not_intro hw)
    rwa [heq]
  · rename_i hmem
    exact iff_of_true rfl (mem_longestFirst.not.1 hmem)

end Substitution

/-- **When strings and directives survive renaming.** Under the conditions that make
renaming a substitution, the literals of the result are those of the source with the
substitution made in them. So they stay if and only if no name is a word of one of
them; and a version directive stays if and only if no name is a word of it. Where the
names are all the words of the source, every directive changes, since `solidity` is
not reserved. -/
theorem rename_keeps_strings_iff (r : Request) (cfg : Settings) (t : Table) (source : Chars)
    {σ σ' : Session} {names : Names} (hnames : r.names source σ = (.ok names, σ'))
    (hname : ∀ n ∈ names, ∃ w, n.2 = .str w ∧ looksLikeName w.toList = true)
    {new : String → Chars}
    (hnew : ∀ w, IsName names w → mappedName cfg t w = .ok (new w) ∧
      looksLikeName (new w) = true ∧ ¬IsName names (String.ofList (new w)))
    {fs : List Fragment} (hfs : scan? source = some fs) :
    let g := onWords (substituted (longestFirst names) new)
    ∃ t' out σ'' fs', r.run cfg t source σ = (.ok (t', .ok out), σ'') ∧ scan? out = some fs' ∧
      literalTexts fs' = (literalTexts fs).map g ∧
      (literalTexts fs' = literalTexts fs ↔ ∀ l ∈ literalTexts fs, Nameless names l) ∧
      ∀ a d b, source = a ++ d ++ b → isWordAt a.getLast? = false → IsDirective d →
        out = g a ++ g d ++ g b ∧ (g d = d ↔ Nameless names d) ∧ (names = wordNames source → g d ≠ d) := by
  intro g
  have hstays (s : Chars) : g s = s ↔ Nameless names s := onWords_substituted_iff hnew s
  obtain ⟨t', out, hrename, hchunks, -⟩ := renameNames_ok hname hnew source
  obtain ⟨σ'', hran⟩ := Request.run_of_names hnames cfg t
  have hout : out = g source := by
    rw [← flatMap_text_chunks out, hchunks, renamed_eq_onWord]
    rfl
  obtain ⟨fs', hscan, hlits⟩ := scan?_onWords (isRun_substituted hnew) hfs
  refine ⟨t', out, σ'', fs', by rw [hran, hrename], hout ▸ hscan, hlits, ?_, ?_⟩
  · have hsame : (literalTexts fs).map g = literalTexts fs ↔
        (literalTexts fs).map g = (literalTexts fs).map id := by
      rw [List.map_id]
    rw [hlits, hsame, List.map_inj_left]
    exact forall₂_congr fun l _ => hstays l
  · rintro a d b rfl ha hd
    obtain ⟨hword, hend⟩ := chunks_directive hd
    have hend' : isWordAt (a ++ d).getLast? = false := by
      rw [List.getLast?_append]
      cases hlast : d.getLast? with
      | none => exact ha
      | some c => rwa [hlast] at hend
    refine ⟨?_, hstays d, ?_⟩
    · rw [hout]
      show onWords _ _ = _
      rw [onWords_append (.inl hend'), onWords_append (.inl ha)]
    · rintro rfl hkept
      refine (hstays d).1 hkept _ hword (isName_wordNames ?_ rfl (by decide))
      rw [chunks_append (.inl hend'), chunks_append (.inl ha)]
      exact List.mem_append_left _ (List.mem_append_right _ hword)

section Sample

/-- A directive, and a literal that is spelled like a variable. -/
def likeNames : Chars := "pragma solidity 1;a=\"a\";".toList

def likeNamesNew (w : String) : Chars :=
  if w = "a" then "OX86f7e437faa5a7fce15d1ddcb9eaeaea377667".toList
  else "OX9da3f5e0438f4c59505619a3a4b9a59bb5ff12".toList

theorem chunks_likeNames : chunks likeNames =
    [.word "pragma".toList, .mark ' ', .word "solidity".toList, .mark ' ', .word ['1'], .mark ';',
      .word ['a'], .mark '=', .mark '"', .word ['a'], .mark '"', .mark ';'] := by
  decide +kernel

theorem wordNames_likeNames :
    wordNames likeNames = [(.text "solidity", .str "solidity"), (.text "a", .str "a")] := by
  rw [wordNames, chunks_likeNames]
  rfl

theorem isName_likeNames {w : String} : IsName (wordNames likeNames) w ↔ w = "solidity" ∨ w = "a" := by
  simp [wordNames_likeNames, IsName, eq_comm]

theorem names_likeNames : ∃ σ', (Request.own none).names likeNames {} = (.ok (wordNames likeNames), σ') :=
  ⟨_, rfl⟩

theorem looksLikeName_likeNames :
    ∀ n ∈ wordNames likeNames, ∃ w, n.2 = .str w ∧ looksLikeName w.toList := by
  rw [wordNames_likeNames]
  simp only [forall_mem_cons]
  exact ⟨⟨"solidity", rfl, rfl⟩, ⟨"a", rfl, rfl⟩, by simp⟩

theorem new_likeNames (w : String) (hw : IsName (wordNames likeNames) w) :
    mappedName {} [] w = .ok (likeNamesNew w) ∧ looksLikeName (likeNamesNew w) ∧
      ¬IsName (wordNames likeNames) (String.ofList (likeNamesNew w)) := by
  rw [isName_likeNames]
  rcases isName_likeNames.1 hw with rfl | rfl
  · exact ⟨by decide +kernel, rfl, by decide⟩
  · exact ⟨by decide +kernel, rfl, by decide⟩

theorem rename_keeps_strings_iff_likeNames :
    ∃ t' out σ'' fs', (Request.own none).run {} [] likeNames {} = (.ok (t', .ok out), σ'') ∧
      scan? out = some fs' ∧ literalTexts fs' ≠ ["\"a\"".toList] := by
  have hscan : (scan? likeNames).map literalTexts = some ["\"a\"".toList] := by decide +kernel
  obtain ⟨fs, hfs, hlits⟩ := Option.map_eq_some_iff.1 hscan
  obtain ⟨σ', hnames⟩ := names_likeNames
  obtain ⟨t', out, σ'', fs', hrun, hout, -, hkept, -⟩ := rename_keeps_strings_iff (.own none) {} []
    likeNames hnames looksLikeName_likeNames new_likeNames hfs
  refine ⟨t', out, σ'', fs', hrun, hout, fun hsame => ?_⟩
  rw [hlits] at hkept
  have hquoted : chunks "\"a\"".toList = [.mark '"', .word ['a'], .mark '"'] := by decide +kernel
  refine hkept.1 hsame _ List.mem_cons_self ['a'] ?_ (isName_likeNames.2 (.inr rfl))
  rw [hquoted]
  exact .tail _ (.head _)

/-- The literal and the directive are renamed. -/
theorem literal_and_directive_renamed :
    ∃ t' σ'', (Request.own none).run {} [] likeNames {} = (.ok (t', .ok
      ("pragma OX9da3f5e0438f4c59505619a3a4b9a59bb5ff12 1;".toList ++
        "OX86f7e437faa5a7fce15d1ddcb9eaeaea377667=\"OX86f7e437faa5a7fce15d1ddcb9eaeaea377667\";".toList)),
      σ'') := by
  obtain ⟨σ', hnames⟩ := names_likeNames
  obtain ⟨t', out, hrename, hchunks, -⟩ :=
    renameNames_ok looksLikeName_likeNames new_likeNames likeNames
  obtain ⟨σ'', hrun⟩ := Request.run_of_names hnames {} []
  have hrenamed (v : Chars) : renamed (longestFirst (wordNames likeNames)) likeNamesNew (.word v) =
      .word (if String.ofList v = "solidity" ∨ String.ofList v = "a" then likeNamesNew (String.ofList v)
        else v) := by
    simp only [renamed, mem_longestFirst, isName_likeNames]
  have hmark (c : Char) : renamed (longestFirst (wordNames likeNames)) likeNamesNew (.mark c) = .mark c :=
    rfl
  have hout : out = "pragma OX9da3f5e0438f4c59505619a3a4b9a59bb5ff12 1;".toList ++
      "OX86f7e437faa5a7fce15d1ddcb9eaeaea377667=\"OX86f7e437faa5a7fce15d1ddcb9eaeaea377667\";".toList := by
    rw [← flatMap_text_chunks out, hchunks, chunks_likeNames]
    simp only [List.map_cons, List.map_nil, hrenamed, hmark]
    decide +kernel
  exact ⟨t', σ'', by rw [hrun, hrename, hout]⟩

end Sample

end Obscura.Rename
