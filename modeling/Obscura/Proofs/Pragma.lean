import Mathlib.Data.List.TakeWhile
import Obscura.Literal.Integer
import Obscura.Proofs.Characters

/-
  Version directives as they are read. A word in any case is found as a front of the
  text (`stripCaseless?_iff`), and so is a whole directive (`directive?_iff`): the rest
  of the project goes by its parts.
-/

namespace Obscura.Text

open List

variable {a b p r s w x : Chars} {c l : Char}

/-! ## Words in any case -/

theorem toLower_eq_or (c : Char) : c.toLower = c ∨ c.toNat < 128 := by
  unfold Char.toLower
  split
  · rename_i h
    exact .inr (Nat.lt_of_le_of_lt (UInt32.le_iff_toNat_le.1 h.2) (by decide))
  · exact .inl rfl

theorem eq_or_eq_toUpper (h : c.toLower = l) : c = l ∨ c = l.toUpper := by
  subst h
  rcases toLower_eq_or c with hsame | hascii
  · exact .inl hsame.symm
  · exact forall_ascii (P := fun d => d = d.toLower ∨ d = d.toLower.toUpper) (by decide) hascii

theorem sameLetter_p (h : sameLetter 'p' c) : c = 'p' ∨ c = 'P' :=
  eq_or_eq_toUpper (by simpa [sameLetter] using h)

theorem sameLetter_s (h : sameLetter 's' c) : c = 's' ∨ c = 'S' ∨ c = 'ſ' := by
  have hcases : c.toLower = 's' ∨ c.toNat = 383 := by simpa [sameLetter] using h
  rcases hcases with hlower | hlong
  · exact (eq_or_eq_toUpper hlower).imp_right .inl
  · exact .inr (.inr (Char.ext (UInt32.toNat.inj hlong)))

theorem stripCaseless?_iff :
    stripCaseless? w s = some r ↔ ∃ p, s = p ++ r ∧ stripCaseless? w p = some [] := by
  fun_induction stripCaseless? w s with
  | case1 s => simp [stripCaseless?, eq_comm]
  | case2 l w =>
    refine ⟨fun h => (by cases h), ?_⟩
    rintro ⟨p, hp, h⟩
    rw [(append_eq_nil_iff.1 hp.symm).1] at h
    cases h
  | case3 l w c s hsame ih =>
    rw [ih]
    constructor
    · rintro ⟨p, rfl, hp⟩
      exact ⟨c :: p, rfl, by rw [stripCaseless?, if_pos hsame, hp]⟩
    · rintro ⟨_ | ⟨d, p⟩, hp, h⟩
      · cases h
      · obtain ⟨rfl, rfl⟩ := cons.inj hp
        rw [stripCaseless?, if_pos hsame] at h
        exact ⟨p, rfl, h⟩
  | case4 l w c s hsame =>
    refine ⟨fun h => (by cases h), ?_⟩
    rintro ⟨_ | ⟨d, p⟩, hp, h⟩
    · cases h
    · obtain ⟨rfl, -⟩ := cons.inj hp
      rw [stripCaseless?, if_neg hsame] at h
      cases h

theorem suffix_of_stripCaseless? (h : stripCaseless? w s = some r) : r <:+ s := by
  obtain ⟨p, rfl, -⟩ := stripCaseless?_iff.1 h
  exact suffix_append p r

theorem exists_sameLetter (h : stripCaseless? w p = some []) : ∀ c ∈ p, ∃ l ∈ w, sameLetter l c := by
  induction w generalizing p with
  | nil =>
    cases h
    exact nofun
  | cons l w ih =>
    cases p with
    | nil => cases h
    | cons c p =>
      rw [stripCaseless?] at h
      split at h
      · rename_i hsame
        refine forall_mem_cons.2 ⟨⟨l, mem_cons_self, hsame⟩, fun d hd => ?_⟩
        exact (ih h d hd).imp fun _ hl => ⟨.tail _ hl.1, hl.2⟩
      · cases h

theorem not_mem_of_stripCaseless? (hc : ∀ l ∈ w, sameLetter l c = false)
    (h : stripCaseless? w p = some []) : c ∉ p := by
  intro hmem
  obtain ⟨l, hl, hsame⟩ := exists_sameLetter h c hmem
  rw [hc l hl] at hsame
  cases hsame

theorem exists_head_of_stripCaseless? (h : stripCaseless? (l :: w) p = some r) :
    ∃ c q, p = c :: q ∧ sameLetter l c := by
  cases p with
  | nil => cases h
  | cons c q =>
    rw [stripCaseless?] at h
    split at h
    · rename_i hsame
      exact ⟨c, q, rfl, hsame⟩
    · cases h

/-- A character that the word does not have stands behind the word. -/
theorem exists_of_stripCaseless? (hc : ∀ l ∈ w, sameLetter l c = false)
    (h : stripCaseless? w (a ++ c :: x) = some r) : ∃ b, r = b ++ c :: x := by
  obtain ⟨p, hp, hw⟩ := stripCaseless?_iff.1 h
  rcases append_eq_append_iff.1 hp with ⟨d, rfl, hd⟩ | ⟨b, -, rfl⟩
  · cases d with
    | nil => exact ⟨[], hd.symm⟩
    | cons e d =>
      obtain ⟨rfl, -⟩ := cons.inj hd
      exact absurd (mem_append_right _ mem_cons_self) (not_mem_of_stripCaseless? hc hw)
  · exact ⟨b, rfl⟩

theorem isBlank_head_pragma (h : stripCaseless? "pragma".toList p = some []) :
    ∀ c, (p ++ r).head? = some c → (c = 'p' ∨ c = 'P') ∧ isBlank c = false := by
  obtain ⟨d, p', rfl, hd⟩ := exists_head_of_stripCaseless? h
  rintro c ⟨⟩
  refine ⟨sameLetter_p hd, ?_⟩
  rcases sameLetter_p hd with rfl | rfl <;> decide

theorem isBlank_head_solidity (h : stripCaseless? "solidity".toList p = some []) :
    ∀ c, (p ++ r).head? = some c → isBlank c = false := by
  obtain ⟨d, q', rfl, hd⟩ := exists_head_of_stripCaseless? h
  rintro c ⟨⟩
  rcases sameLetter_s hd with rfl | rfl | rfl <;> decide

end Obscura.Text

namespace Obscura.Layout

open Text List

variable {c : Char} {r s w : Chars}

/-! ## Directives -/

theorem blanks?_iff : blanks? s = some r ↔
    ∃ v, s = v ++ r ∧ v ≠ [] ∧ (∀ c ∈ v, isBlank c) ∧ ∀ c, r.head? = some c → isBlank c = false := by
  constructor
  · intro h
    cases s with
    | nil => cases h
    | cons c s =>
      rw [blanks?] at h
      split at h
      · rename_i hc
        cases h
        exact ⟨c :: s.takeWhile isBlank, by rw [cons_append, takeWhile_append_dropWhile], cons_ne_nil _ _,
          forall_mem_cons.2 ⟨hc, fun d hd => mem_takeWhile_imp hd⟩, fun d hd => dropWhile_stops hd⟩
      · cases h
  · rintro ⟨v, rfl, hne, hv, hr⟩
    obtain ⟨c, v, rfl⟩ := exists_cons_of_ne_nil hne
    obtain ⟨hc, hv⟩ := forall_mem_cons.1 hv
    rw [cons_append, blanks?, if_pos hc, dropWhile_run hv hr]

theorem directiveWords?_iff : directiveWords? s = some r ↔
    ∃ p v q, s = p ++ (v ++ (q ++ r)) ∧ stripCaseless? "pragma".toList p = some [] ∧ v ≠ [] ∧
      (∀ x ∈ v, isBlank x) ∧ stripCaseless? "solidity".toList q = some [] := by
  have hbind : directiveWords? s = (stripCaseless? "pragma".toList s).bind fun a =>
      (blanks? a).bind (stripCaseless? "solidity".toList) := by
    unfold directiveWords?
    cases stripCaseless? "pragma".toList s with
    | none => rfl
    | some a => cases h : blanks? a <;> simp only [Option.bind_some, Option.bind_none, h]
  rw [hbind]
  simp only [Option.bind_eq_some_iff]
  constructor
  · rintro ⟨a, ha, b, hb, h⟩
    obtain ⟨p, rfl, hp⟩ := stripCaseless?_iff.1 ha
    obtain ⟨v, rfl, hne, hv, -⟩ := blanks?_iff.1 hb
    obtain ⟨q, rfl, hq⟩ := stripCaseless?_iff.1 h
    exact ⟨p, v, q, rfl, hp, hne, hv, hq⟩
  · rintro ⟨p, v, q, rfl, hp, hne, hv, hq⟩
    exact ⟨_, stripCaseless?_iff.2 ⟨p, rfl, hp⟩, _, blanks?_iff.2 ⟨v, rfl, hne, hv, isBlank_head_solidity hq⟩,
      stripCaseless?_iff.2 ⟨q, rfl, hq⟩⟩

theorem eq_of_cut (hw : s.takeWhile (· != ';') = w) (hr : s.dropWhile (· != ';') = c :: r) :
    s = w ++ ';' :: r ∧ ';' ∉ w := by
  have hc := dropWhile_stops (p := (· != ';')) (s := s) (by rw [hr]; rfl)
  obtain rfl : c = ';' := by simpa using hc
  refine ⟨by rw [← hw, ← hr, takeWhile_append_dropWhile], fun hmem => ?_⟩
  exact absurd (mem_takeWhile_imp (hw ▸ hmem)) (by decide)

theorem cut_semicolon (hw : ';' ∉ w) (r : Chars) : (w ++ ';' :: r).takeWhile (· != ';') = w ∧
    (w ++ ';' :: r).dropWhile (· != ';') = ';' :: r := by
  have hwhile : ∀ z ∈ w, (z != ';') = true := fun z hz => bne_iff_ne.2 fun heq => hw (heq ▸ hz)
  have hend : ∀ z, (';' :: r).head? = some z → (z != ';') = false := by
    rintro z ⟨⟩
    rfl
  exact ⟨takeWhile_run hwhile hend, dropWhile_run hwhile hend⟩

/-- The front of a directive: the two words with blanks between them, and a blank. -/
def Opening (x : Chars) : Prop :=
  ∃ p v q c, x = p ++ (v ++ (q ++ [c])) ∧ stripCaseless? "pragma".toList p = some [] ∧ v ≠ [] ∧
    (∀ d ∈ v, isBlank d) ∧ stripCaseless? "solidity".toList q = some [] ∧ isBlank c

/-- A directive is its front, some text without semicolon, and a semicolon. -/
theorem directive?_iff : directive? s = some (w, r) ↔
    ∃ x, s = x ++ (w ++ ';' :: r) ∧ Opening x ∧ w ≠ [] ∧ ';' ∉ w := by
  constructor
  · intro h
    unfold directive? at h
    split at h
    · rename_i c t hwords
      obtain ⟨p, v, q, rfl, hp, hne, hv, hq⟩ := directiveWords?_iff.1 hwords
      split at h
      · rename_i hc
        split at h
        · rename_i y ys z rest hy hdrop
          cases h
          obtain ⟨rfl, hsemi⟩ := eq_of_cut hy hdrop
          exact ⟨_, by simp, ⟨p, v, q, c, rfl, hp, hne, hv, hq, hc⟩, cons_ne_nil _ _, hsemi⟩
        · cases h
      · cases h
    · cases h
  · rintro ⟨_, rfl, ⟨p, v, q, c, rfl, hp, hne, hv, hq, hc⟩, hw, hsemi⟩
    obtain ⟨htake, hdrop⟩ := cut_semicolon hsemi r
    rw [directive?, (directiveWords?_iff (r := c :: (w ++ ';' :: r))).2 ⟨p, v, q, by simp, hp, hne, hv, hq⟩]
    dsimp only
    rw [if_pos hc, htake, hdrop]
    obtain ⟨y, w, rfl⟩ := exists_cons_of_ne_nil hw
    rfl

end Obscura.Layout

namespace Obscura.Literal

open Text List

variable {a b r s t w : Chars} {c : Char}

/-- A version directive, indented or not: blanks, the two words with blanks between them, a
blank, some text without semicolon, and a semicolon. -/
def IsDirective (t : Chars) : Prop :=
  ∃ u p v q c w, t = u ++ (p ++ (v ++ (q ++ (c :: (w ++ [';']))))) ∧ (∀ x ∈ u, isBlank x = true) ∧
    stripCaseless? "pragma".toList p = some [] ∧ v ≠ [] ∧ (∀ x ∈ v, isBlank x = true) ∧
    stripCaseless? "solidity".toList q = some [] ∧ isBlank c = true ∧ w ≠ [] ∧ ';' ∉ w

theorem version?_iff : version? s = some r ↔ ∃ t, s = t ++ r ∧ IsDirective t := by
  constructor
  · intro h
    obtain ⟨⟨w, r⟩, hd, rfl⟩ := Option.map_eq_some_iff.1 h
    obtain ⟨_, hs, ⟨p, v, q, c, rfl, hp, hne, hv, hq, hc⟩, hw⟩ := Layout.directive?_iff.1 hd
    refine ⟨_, ?_, s.takeWhile isBlank, p, v, q, c, w, rfl, fun x hx => mem_takeWhile_imp hx, hp,
      hne, hv, hq, hc, hw⟩
    have hall := takeWhile_append_dropWhile (p := isBlank) (l := s)
    rw [hs] at hall
    exact hall.symm.trans (by simp)
  · rintro ⟨t, rfl, u, p, v, q, c, w, rfl, hu, hp, hne, hv, hq, hc, hw⟩
    simp only [append_assoc, cons_append, nil_append]
    rw [version?, dropWhile_run hu fun x hx => (isBlank_head_pragma hp x hx).2,
      (Layout.directive?_iff (w := w) (r := r)).2 ⟨_, by simp, ⟨p, v, q, c, rfl, hp, hne, hv, hq, hc⟩, hw⟩]
    rfl

namespace IsDirective

theorem head (h : IsDirective t) (b : Chars) :
    ∃ c r, (t ++ b).dropWhile isBlank = c :: r ∧ (c = 'p' ∨ c = 'P') := by
  obtain ⟨u, p, v, q, c, w, rfl, hu, hp, -⟩ := h
  obtain ⟨d, p', rfl, hd⟩ := exists_head_of_stripCaseless? hp
  rw [append_assoc, append_assoc, dropWhile_run hu fun x hx => (isBlank_head_pragma hp x hx).2]
  exact ⟨d, _, rfl, sameLetter_p hd⟩

theorem version? (h : IsDirective t) (b : Chars) : version? (t ++ b) = some b :=
  version?_iff.2 ⟨t, rfl, h⟩

theorem exists_eq_concat (h : IsDirective t) : ∃ u, t = u ++ [';'] ∧ ';' ∉ u := by
  obtain ⟨u, p, v, q, c, w, rfl, hu, hp, -, hv, hq, hc, -, hw⟩ := h
  have hblank {c : Char} (hc : isBlank c) : c ≠ ';' := by
    rintro rfl
    exact absurd hc (by decide)
  refine ⟨u ++ (p ++ (v ++ (q ++ c :: w))), by simp, ?_⟩
  simp only [mem_append, mem_cons, not_or]
  exact ⟨fun hx => hblank (hu _ hx) rfl, not_mem_of_stripCaseless? (forall_mem_of_all rfl) hp,
    fun hx => hblank (hv _ hx) rfl, not_mem_of_stripCaseless? (forall_mem_of_all rfl) hq,
    (hblank hc).symm, hw⟩

end IsDirective

/-- A version directive ends with its first semicolon. -/
theorem exists_eq_append_semicolon (h : version? s = some r) : ∃ u, s = u ++ ';' :: r ∧ ';' ∉ u := by
  obtain ⟨t, rfl, ht⟩ := version?_iff.1 h
  obtain ⟨u, rfl, hu⟩ := ht.exists_eq_concat
  exact ⟨u, by simp, hu⟩

end Obscura.Literal
