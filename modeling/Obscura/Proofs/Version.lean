import Obscura.Pipeline.Progress
import Obscura.Proofs.Files
import Obscura.Proofs.Pragma

/-
  Which version a source asks for. The directive, its first word and the form of a
  version are said without the scan, and the scan finds these (`firstVersionText?_iff`,
  `firstWord_iff`, `isVersion_iff`). A directive of relations and blanks has no word at all:
  that is where the detection fails.
-/

namespace Obscura.Text

open List

theorem joinWith_splitAt (sep : Char) (s : Chars) : joinWith [sep] (splitAt sep s) = s := by
  induction s with
  | nil => rfl
  | cons b s ih =>
    rw [splitAt]
    cases h : splitAt sep s with
    | nil =>
      rw [h] at ih
      obtain rfl : [] = s := ih
      cases h
    | cons l ls =>
      rw [h] at ih
      split
      · rename_i hb
        rw [joinWith, ih, beq_iff_eq.1 hb]
        · rfl
        · exact cons_ne_nil l ls
      · rw [← ih]
        cases ls <;> rfl

end Obscura.Text

namespace Obscura.Pipeline

open Text List

variable {s t w source : Chars}

/-- A version directive with the text `t` stands at the front. -/
def Asks (s t : Chars) : Prop :=
  ∃ v c r, s = "pragma".toList ++ (v ++ ("solidity".toList ++ c :: (t ++ ';' :: r))) ∧ v ≠ [] ∧
    (∀ x ∈ v, isBlank x = true) ∧ isBlank c = true ∧ t ≠ [] ∧ ';' ∉ t

/-- The first version directive of the source has the text `t`. -/
def FirstAsks (s t : Chars) : Prop :=
  ∃ a b, s = a ++ b ∧ Asks b t ∧ ∀ x y, s = x ++ y → x.length < a.length → ∀ u, ¬Asks y u

/-- The first of the words between the blanks of a text. -/
def FirstWord (s w : Chars) : Prop :=
  ∃ u r, s = u ++ (w ++ r) ∧ (∀ c ∈ u, isBlank c = true) ∧ w ≠ [] ∧ (∀ c ∈ w, isBlank c = false) ∧
    ∀ c, r.head? = some c → isBlank c = true

/-- Three runs of digits with points between them. -/
def IsVersion (s : Chars) : Prop :=
  ∃ a b c, s = a ++ '.' :: (b ++ '.' :: c) ∧ ∀ l ∈ [a, b, c], l ≠ [] ∧ ∀ d ∈ l, isDecimal d = true

/-- The source asks for `w`: the first word of its first directive without relations. -/
def AsksFor (s w : Chars) : Prop :=
  ∃ t, FirstAsks s t ∧ FirstWord (t.filter (!isRelation ·)) w

theorem versionText?_iff : versionText? s = some t ↔ Asks s t := by
  simp only [versionText?, bind, Option.bind_eq_some_iff, stripFront?_eq_some_iff, Layout.blanks?_iff]
  constructor
  · rintro ⟨_, rfl, _, ⟨v, rfl, hne, hv, -⟩, r, rfl, h⟩
    split at h
    · cases h
    · rename_i c u
      split at h
      · rename_i hc
        split at h
        · rename_i x xs z r hx hdrop
          cases h
          obtain ⟨rfl, hsemi⟩ := Layout.eq_of_cut hx hdrop
          exact ⟨v, c, r, rfl, hne, hv, hc, cons_ne_nil _ _, hsemi⟩
        · cases h
      · cases h
  · rintro ⟨v, c, r, rfl, hne, hv, hc, ht, hsemi⟩
    refine ⟨_, rfl, _, ⟨v, rfl, hne, hv, ?_⟩, _, rfl, ?_⟩
    · rintro d ⟨⟩
      decide
    · obtain ⟨htake, hdrop⟩ := Layout.cut_semicolon hsemi r
      dsimp only
      rw [if_pos hc, htake, hdrop]
      obtain ⟨x, t, rfl⟩ := exists_cons_of_ne_nil ht
      rfl

theorem firstVersionText?_iff : firstVersionText? s = some t ↔ FirstAsks s t := by
  induction s with
  | nil =>
    refine ⟨nofun, ?_⟩
    rintro ⟨a, b, hs, ⟨v, c, r, rfl, -⟩, -⟩
    simp at hs
  | cons c s ih =>
    rw [firstVersionText?]
    split
    · rename_i u hu
      rw [versionText?_iff] at hu
      constructor
      · rintro ⟨⟩
        exact ⟨[], _, rfl, hu, fun x y _ hlt => absurd hlt (Nat.not_lt_zero _)⟩
      · rintro ⟨_ | ⟨d, a⟩, b, hs, hb, hfirst⟩
        · rw [hs, nil_append, ← versionText?_iff] at hu
          rw [← hu, versionText?_iff.2 hb]
        · exact absurd hu (hfirst [] _ rfl (Nat.succ_pos _) u)
    · rename_i hnone
      have hnot (u : Chars) : ¬Asks (c :: s) u := by
        rw [← versionText?_iff, hnone]
        exact nofun
      rw [ih]
      constructor
      · rintro ⟨a, b, rfl, hb, hfirst⟩
        refine ⟨c :: a, b, rfl, hb, fun x y hxy hlt u hu => ?_⟩
        cases x with
        | nil => exact hnot u (by rw [hxy]; exact hu)
        | cons d x => exact hfirst x y (cons.inj hxy).2 (Nat.lt_of_succ_lt_succ hlt) u hu
      · rintro ⟨_ | ⟨d, a⟩, b, hs, hb, hfirst⟩
        · exact absurd (hs ▸ hb) (hnot t)
        · refine ⟨a, b, (cons.inj hs).2, hb, fun x y hxy hlt => ?_⟩
          exact hfirst (c :: x) y (congrArg _ hxy) (Nat.succ_lt_succ hlt)

theorem firstWord_iff : FirstWord s w ↔ firstWord s = w ∧ w ≠ [] := by
  constructor
  · rintro ⟨u, r, rfl, hu, hne, hw, hr⟩
    have hhead : ∀ c, (w ++ r).head? = some c → isBlank c = false := by
      obtain ⟨d, w, rfl⟩ := exists_cons_of_ne_nil hne
      rintro c ⟨⟩
      exact hw d mem_cons_self
    rw [firstWord, dropWhile_run hu hhead, takeWhile_run (by simpa using hw) (by simpa using hr)]
    exact ⟨rfl, hne⟩
  · rintro ⟨rfl, hne⟩
    refine ⟨s.takeWhile isBlank, (s.dropWhile isBlank).dropWhile (!isBlank ·), ?_,
      fun c hc => mem_takeWhile_imp hc,
      hne, fun c hc => by simpa using mem_takeWhile_imp hc, fun c hc => by simpa using dropWhile_stops hc⟩
    rw [firstWord, takeWhile_append_dropWhile, takeWhile_append_dropWhile]

theorem firstWord_eq_nil_iff : firstWord s = [] ↔ ∀ c ∈ s, isBlank c := by
  rw [← dropWhile_eq_nil_iff, firstWord]
  cases h : s.dropWhile isBlank with
  | nil => simp
  | cons c r =>
    have hc : isBlank c = false := dropWhile_stops (by rw [h]; rfl)
    simp [hc]

theorem isDigits_iff : isDigits s ↔ s ≠ [] ∧ ∀ d ∈ s, isDecimal d := by
  simp [isDigits]

theorem isVersion_iff : isVersion s ↔ IsVersion s := by
  unfold isVersion
  constructor
  · intro h
    split at h
    · rename_i a b c hsplit
      have hs := joinWith_splitAt '.' s
      rw [hsplit] at hs
      refine ⟨a, b, c, by simp [← hs, joinWith], ?_⟩
      simpa [isDigits_iff, and_assoc] using h
    · cases h
  · rintro ⟨a, b, c, rfl, h⟩
    have hdot {l : Chars} (hl : l ∈ [a, b, c]) : '.' ∉ l := fun hmem => absurd ((h l hl).2 _ hmem) (by decide)
    rw [splitAt_append (hdot (by simp)), splitAt_append (hdot (by simp)), splitAt_of_not_mem (hdot (by simp))]
    simpa [isDigits_iff, and_assoc] using h

/-- The word that a directive with this text asks for, if it has one. -/
def askedWord (t : Chars) : Chars :=
  firstWord (t.filter (!isRelation ·))

theorem askedWord_eq_nil_iff : askedWord t = [] ↔ ∀ c ∈ t, isBlank c ∨ isRelation c := by
  simp only [askedWord, firstWord_eq_nil_iff, mem_filter, Bool.not_eq_true', and_imp]
  refine forall₂_congr fun c _ => ?_
  cases isRelation c <;> simp

theorem detectVersion_eq (σ : Session) : (detectVersion source σ).1 =
    (firstVersionText? source).elim (.ok defaultVersion) fun t => if askedWord t = [] then .error .outOfRange
      else .ok (if isVersion (askedWord t) then String.ofList (askedWord t) else defaultVersion) := by
  unfold detectVersion askedVersion askedWord
  cases firstVersionText? source with
  | none => rfl
  | some t =>
    dsimp only [Option.elim]
    generalize firstWord (t.filter (!isRelation ·)) = w
    cases w with
    | nil => rfl
    | cons c w =>
      dsimp only
      cases isVersion (c :: w) <;> rfl

/-- **Which version is detected.** The detection fails exactly when the first directive has
no word but relations. Otherwise it gives a version: the word that the source asks for, or the
default one if that is none. -/
theorem detectVersion_exactly (source : Chars) (σ : Session) :
    (∃ t, FirstAsks source t ∧ ∀ c ∈ t, isBlank c = true ∨ isRelation c = true) ∧
        (detectVersion source σ).1 = .error .outOfRange ∨
      (¬∃ t, FirstAsks source t ∧ ∀ c ∈ t, isBlank c = true ∨ isRelation c = true) ∧
        ∃ v, (detectVersion source σ).1 = .ok v ∧ IsVersion v.toList ∧
          (AsksFor source v.toList ∨ v = "0.8.30" ∧ ∀ w, AsksFor source w → ¬IsVersion w) := by
  have hdefault : IsVersion defaultVersion.toList := isVersion_iff.1 (by decide)
  have hword (t w : Chars) : FirstWord (t.filter (!isRelation ·)) w ↔ askedWord t = w ∧ w ≠ [] := firstWord_iff
  simp only [AsksFor, ← firstVersionText?_iff, ← askedWord_eq_nil_iff, hword]
  rw [detectVersion_eq]
  cases firstVersionText? source with
  | none => exact .inr ⟨by simp, _, rfl, hdefault, .inr ⟨rfl, by simp⟩⟩
  | some t =>
    by_cases hnil : askedWord t = []
    · exact .inl ⟨⟨t, rfl, hnil⟩, if_pos hnil⟩
    refine .inr ⟨by simpa using hnil, _, if_neg hnil, ?_⟩
    split
    · rename_i hversion
      rw [String.toList_ofList]
      exact ⟨isVersion_iff.1 hversion, .inl ⟨t, rfl, rfl, hnil⟩⟩
    · rename_i hversion
      refine ⟨hdefault, .inr ⟨rfl, ?_⟩⟩
      rintro w ⟨_, ⟨⟩, rfl, -⟩ hw
      exact hversion (isVersion_iff.2 hw)

theorem relation_without_version_fails : FirstAsks "pragma solidity ^;".toList ['^'] ∧
    (detectVersion "pragma solidity ^;".toList {}).1 = .error .outOfRange :=
  ⟨firstVersionText?_iff.1 (by decide), by decide⟩

end Obscura.Pipeline
