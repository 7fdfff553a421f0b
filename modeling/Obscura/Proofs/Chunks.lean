import Mathlib.Data.List.TakeWhile
import Obscura.Proofs.Characters

/-
  How a text falls into words. A cut where no word goes on on both sides cuts the
  chunks too (`chunks_append`); so the words among the chunks are the runs of word
  characters that stand between two boundaries (`word_between`).
-/

namespace Obscura.Text

open List

variable {js ks : List Chunk} {w t : Chars}

theorem chunks_nil : chunks [] = [] := by
  rw [chunks]

theorem chunks_mark {c : Char} (hc : isWord c = false) (t : Chars) :
    chunks (c :: t) = .mark c :: chunks t := by
  rw [chunks, if_neg (by simp [hc])]

theorem chunks_word (hne : w ≠ []) (hw : ∀ c ∈ w, isWord c) {t : Chars}
    (ht : isWordAt t.head? = false) : chunks (w ++ t) = .word w :: chunks t := by
  obtain ⟨c, v, rfl⟩ := exists_cons_of_ne_nil hne
  have hv : ∀ x ∈ v, isWord x = true := fun x hx => hw x (.tail _ hx)
  have hend : ∀ x, t.head? = some x → isWord x = false := by
    intro x hx
    rwa [hx] at ht
  rw [cons_append, chunks, if_pos (hw c mem_cons_self), takeWhile_run hv hend,
    dropWhile_run hv hend]

/-- Chunks that a text can be cut into. -/
def Separated : List Chunk → Prop
  | [] => True
  | .mark c :: ks => isWord c = false ∧ Separated ks
  | .word w :: ks => (w ≠ [] ∧ ∀ c ∈ w, isWord c = true) ∧
      isWordAt (ks.flatMap Chunk.text).head? = false ∧ Separated ks

theorem separated_chunks (s : Chars) : Separated (chunks s) := by
  fun_induction chunks s with
  | case1 => trivial
  | case2 c t hc ih =>
    refine ⟨⟨cons_ne_nil _ _, fun x hx => ?_⟩, ?_, ih⟩
    · rcases mem_cons.1 hx with rfl | hx
      · exact hc
      · exact mem_takeWhile_imp hx
    · rw [flatMap_text_chunks]
      cases h : (t.dropWhile isWord).head? with
      | none => rfl
      | some x => exact dropWhile_stops h
  | case3 c t hc ih => exact ⟨by simpa using hc, ih⟩

theorem chunks_of_separated (h : Separated ks) : chunks (ks.flatMap Chunk.text) = ks := by
  induction ks with
  | nil => exact chunks_nil
  | cons k ks ih =>
    cases k with
    | mark c =>
      have := chunks_mark h.1 (ks.flatMap Chunk.text)
      rw [ih h.2] at this
      exact this
    | word w =>
      have := chunks_word h.1.1 h.1.2 h.2.1
      rw [ih h.2.2] at this
      exact this

theorem Separated.right (js : List Chunk) (h : Separated (js ++ ks)) : Separated ks := by
  induction js with
  | nil => exact h
  | cons j js ih =>
    cases j with
    | mark c => exact ih h.2
    | word w => exact ih h.2.2

theorem isWordAt_of_getLast?_append {u v : Chars} (h : isWordAt (u ++ v).getLast? = false) :
    isWordAt v.getLast? = false := by
  rw [getLast?_append] at h
  cases hv : v.getLast? with
  | none => rfl
  | some c => rwa [hv] at h

theorem isWordAt_getLast? (hne : w ≠ []) (hw : ∀ c ∈ w, isWord c) :
    isWordAt w.getLast? := by
  rw [getLast?_eq_some_getLast hne]
  exact hw _ (getLast_mem hne)

theorem isWordAt_head?_append (hne : w ≠ []) (hw : ∀ c ∈ w, isWord c) : isWordAt (w ++ t).head? := by
  obtain ⟨c, v, rfl⟩ := exists_cons_of_ne_nil hne
  exact hw c mem_cons_self

theorem Separated.append (hj : Separated js) (hk : Separated ks)
    (h : isWordAt (js.flatMap Chunk.text).getLast? = false ∨
      isWordAt (ks.flatMap Chunk.text).head? = false) : Separated (js ++ ks) := by
  induction js with
  | nil => exact hk
  | cons j js ih =>
    rw [flatMap_cons] at h
    have hrest := h.imp_left isWordAt_of_getLast?_append
    cases j with
    | mark c => exact ⟨hj.1, ih hj.2 hrest⟩
    | word w =>
      refine ⟨hj.1, ?_, ih hj.2.2 hrest⟩
      show isWordAt ((js ++ ks).flatMap Chunk.text).head? = false
      rw [flatMap_append]
      cases htext : js.flatMap Chunk.text with
      | nil =>
        rw [htext, append_nil] at h
        rcases h with h | h
        · rw [Chunk.text, isWordAt_getLast? hj.1.1 hj.1.2] at h
          cases h
        · exact h
      | cons c t =>
        have hhead := hj.2.1
        rw [htext] at hhead
        exact hhead

theorem chunks_append {a b : Chars}
    (h : isWordAt a.getLast? = false ∨ isWordAt b.head? = false) :
    chunks (a ++ b) = chunks a ++ chunks b := by
  have hsep := (separated_chunks a).append (separated_chunks b)
    (by rwa [flatMap_text_chunks, flatMap_text_chunks])
  have := chunks_of_separated hsep
  rwa [flatMap_append, flatMap_text_chunks, flatMap_text_chunks] at this

theorem word_between (h : Separated (js ++ .word w :: ks)) :
    isWordAt (js.flatMap Chunk.text).getLast? = false ∧
      isWordAt (ks.flatMap Chunk.text).head? = false := by
  refine ⟨?_, (h.right js).2.1⟩
  induction js with
  | nil => rfl
  | cons j js ih =>
    rw [flatMap_cons, getLast?_append]
    cases htext : (js.flatMap Chunk.text).getLast? with
    | some c =>
      have hsep : Separated (js ++ .word w :: ks) := h.right [j]
      have := ih hsep
      rwa [htext] at this
    | none =>
      rw [getLast?_eq_none_iff] at htext
      cases j with
      | mark c => exact h.1
      | word v =>
        have hword := (h.right (.word v :: js)).1
        have hnext : isWordAt ((js ++ .word w :: ks).flatMap Chunk.text).head? = false := h.2.1
        rw [flatMap_append, htext, nil_append, flatMap_cons, Chunk.text,
          isWordAt_head?_append hword.1 hword.2] at hnext
        cases hnext

/-- The words of a text are the runs of word characters between two boundaries. -/
theorem exists_word_iff {s : Chars} {n : Nat} :
    (∃ js ks, chunks s = js ++ .word w :: ks ∧ (js.flatMap Chunk.text).length = n) ↔
      (w ≠ [] ∧ ∀ c ∈ w, isWord c) ∧ ∃ a b, s = a ++ w ++ b ∧ a.length = n ∧
        isWordAt a.getLast? = false ∧ isWordAt b.head? = false := by
  constructor
  · rintro ⟨js, ks, hcut, rfl⟩
    have hsep := separated_chunks s
    rw [hcut] at hsep
    obtain ⟨hbefore, hbehind⟩ := word_between hsep
    refine ⟨(hsep.right js).1, _, _, ?_, rfl, hbefore, hbehind⟩
    rw [← flatMap_text_chunks s, hcut, flatMap_append, flatMap_cons, append_assoc]
    rfl
  · rintro ⟨hw, a, b, rfl, rfl, hbefore, hbehind⟩
    refine ⟨chunks a, chunks b, ?_, by rw [flatMap_text_chunks]⟩
    rw [append_assoc, chunks_append (.inl hbefore), chunks_word hw.1 hw.2 hbehind]

end Obscura.Text
