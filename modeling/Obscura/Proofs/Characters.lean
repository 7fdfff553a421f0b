import Obscura.Text.Word

/-
  Character classes against each other. The tables start beyond ASCII, so that below
  128 the classes are those of ASCII; and no table of letters or numerals meets that
  of the blanks, so that no blank is part of a word. A run of a class ends before the
  first character outside of it.
-/

namespace Obscura.Text

open List

variable {c : Char} {n : Nat} {p : Char → Bool} {r u : Chars}

/-- No code point lies in both tables. -/
def Ranges.Apart (t u : Ranges) : Prop :=
  ∀ r ∈ t, ∀ v ∈ u, r.2 < v.1 ∨ v.2 < r.1

instance (t u : Ranges) : Decidable (t.Apart u) :=
  inferInstanceAs (Decidable (∀ r ∈ t, ∀ v ∈ u, r.2 < v.1 ∨ v.2 < r.1))

theorem Ranges.Apart.mem_eq_false {t u : Ranges} (h : t.Apart u) (hn : t.mem n) :
    u.mem n = false := by
  rw [Bool.eq_false_iff]
  intro hu
  obtain ⟨r, hr, hrn⟩ := Ranges.mem_eq_true.1 hn
  obtain ⟨v, hv, hvn⟩ := Ranges.mem_eq_true.1 hu
  have := h r hr v hv
  omega

/-! ## ASCII -/

def asciiRange : Ranges := [(0, 127)]

theorem mem_asciiRange (h : n < 128) : asciiRange.mem n :=
  Ranges.mem_eq_true.2 ⟨(0, 127), mem_singleton.2 rfl, Nat.zero_le _, Nat.le_of_lt_succ h⟩

theorem isDecimal_eq_isDigit (hc : c.toNat < 128) : isDecimal c = c.isDigit := by
  have hd : asciiRange.Apart decimalRanges := by decide
  rw [isDecimal, hd.mem_eq_false (mem_asciiRange hc), Bool.or_false]

theorem isLetter_eq_isAlpha (hc : c.toNat < 128) : isLetter c = c.isAlpha := by
  have hl : asciiRange.Apart letterRanges := by decide +kernel
  rw [isLetter, hl.mem_eq_false (mem_asciiRange hc), Bool.or_false]

theorem isFigure_eq_isDigit (hc : c.toNat < 128) : isFigure c = c.isDigit := by
  have hf : asciiRange.Apart figureRanges := by decide
  rw [isFigure, isDecimal_eq_isDigit hc, hf.mem_eq_false (mem_asciiRange hc), Bool.or_false]

theorem isWord_eq (hc : c.toNat < 128) : isWord c = (c.isAlphanum || c == '_') := by
  have hr : asciiRange.Apart fractionRanges := by decide
  rw [isWord, isAlnum, isLetter_eq_isAlpha hc, isNumeral, isFigure_eq_isDigit hc,
    hr.mem_eq_false (mem_asciiRange hc), Bool.or_false, Char.isAlphanum]

theorem isWord_of_symbol (hc : c.toNat < 128) (h : (c.isAlphanum || c == '_') = false) : isWord c = false := by
  rw [isWord_eq hc, h]

theorem toNat_lt_of_isAlphanum (h : c.isAlphanum) : c.toNat < 128 := by
  change ((decide (c.val ≥ 'A'.val ∧ c.val ≤ 'Z'.val) || _ && decide (c.val ≤ 'z'.val))
    || _ && decide (c.val ≤ '9'.val)) = true at h
  simp only [Bool.or_eq_true, Bool.and_eq_true, decide_eq_true_eq, UInt32.le_iff_toNat_le] at h
  have hval : c.toNat = c.val.toNat := rfl
  have hZ : 'Z'.val.toNat = 90 := rfl
  have hz : 'z'.val.toNat = 122 := rfl
  have h9 : '9'.val.toNat = 57 := rfl
  omega

theorem toNat_lt_of_isDigit (h : c.isDigit) : c.toNat < 128 :=
  toNat_lt_of_isAlphanum (by simp [Char.isAlphanum, h])

theorem forall_ascii {P : Char → Prop} (h : ∀ n, n < 128 → P (Char.ofNat n)) {c : Char}
    (hc : c.toNat < 128) : P c := by
  have := h c.toNat hc
  rwa [Char.ofNat_toNat] at this

theorem forall_mem_of_all {α : Type} {P : α → Prop} [DecidablePred P] {s : List α}
    (h : s.all (fun c => decide (P c)) = true) : ∀ c ∈ s, P c :=
  fun c hc => of_decide_eq_true (all_eq_true.1 h c hc)

theorem forall_mem_mem_of_all {α : Type} {P : α → Prop} [DecidablePred P] {ss : List (List α)}
    (h : ss.all (fun s => s.all fun c => decide (P c)) = true) : ∀ s ∈ ss, ∀ c ∈ s, P c :=
  fun s hs => forall_mem_of_all (all_eq_true.1 h s hs)

/-! ## Blanks -/

theorem isWord_of_isBlank (h : isBlank c) : isWord c = false := by
  by_cases hc : c.toNat < 128
  · rw [isWord_eq hc]
    exact forall_ascii (P := fun c => isBlank c = true → (c.isAlphanum || c == '_') = false)
      (by decide) hc h
  · have hl : blankRanges.Apart letterRanges := by decide +kernel
    have hd : blankRanges.Apart decimalRanges := by decide
    have hf : blankRanges.Apart figureRanges := by decide
    have hr : blankRanges.Apart fractionRanges := by decide
    have hm : blankRanges.mem c.toNat := by
      simp only [isBlank, Bool.or_eq_true, Bool.and_eq_true, decide_eq_true_eq] at h
      rcases h with (h | h) | h
      · omega
      · omega
      · exact h
    have halpha : c.isAlphanum = false := Bool.eq_false_iff.2 fun h' => hc (toNat_lt_of_isAlphanum h')
    have hlow : (c == '_') = false := by
      refine beq_eq_false_iff_ne.2 fun h' => hc ?_
      rw [h']
      decide
    rw [Char.isAlphanum, Bool.or_eq_false_iff] at halpha
    rw [isWord, isAlnum, isLetter, isNumeral, isFigure, isDecimal, halpha.1, halpha.2, hlow,
      hl.mem_eq_false hm, hd.mem_eq_false hm, hf.mem_eq_false hm, hr.mem_eq_false hm]
    rfl

theorem isDecimal_of_isWord_eq_false (h : isWord c = false) : isDecimal c = false := by
  rw [Bool.eq_false_iff]
  intro hd
  have := isNumeral_of_isFigure (isFigure_of_isDecimal hd)
  simp [isWord, isAlnum, this] at h

/-! ## Runs -/

theorem takeWhile_of_head? (h : ∀ c, r.head? = some c → p c = false) : r.takeWhile p = [] := by
  cases r with
  | nil => rfl
  | cons c r => rw [takeWhile_cons, h c rfl]; rfl

theorem dropWhile_of_head? (h : ∀ c, r.head? = some c → p c = false) : r.dropWhile p = r := by
  cases r with
  | nil => rfl
  | cons c r => rw [dropWhile_cons, h c rfl]; rfl

theorem takeWhile_run (hu : ∀ c ∈ u, p c)
    (h : ∀ c, r.head? = some c → p c = false) : (u ++ r).takeWhile p = u := by
  rw [takeWhile_append_of_pos hu, takeWhile_of_head? h, append_nil]

theorem dropWhile_run (hu : ∀ c ∈ u, p c)
    (h : ∀ c, r.head? = some c → p c = false) : (u ++ r).dropWhile p = r := by
  rw [dropWhile_append_of_pos hu, dropWhile_of_head? h]

theorem dropWhile_stops {s : Chars} (h : (s.dropWhile p).head? = some c) : p c = false := by
  induction s with
  | nil => cases h
  | cons d s ih =>
    rw [dropWhile_cons] at h
    split at h
    · exact ih h
    · rename_i hd
      cases h
      exact Bool.eq_false_iff.2 hd

/-! ## Fronts -/

theorem stripFront?_eq_some_iff {α : Type} [BEq α] [LawfulBEq α] {p s r : List α} :
    stripFront? p s = some r ↔ s = p ++ r := by
  induction p generalizing s with
  | nil =>
    rw [stripFront?, Option.some.injEq, nil_append]
  | cons a p ih =>
    cases s with
    | nil => simp [stripFront?]
    | cons b s =>
      by_cases hab : a = b
      · subst hab
        simp [stripFront?, ih]
      · simp [stripFront?, hab, Ne.symm hab]

/-! ## Trimming -/

theorem trimLeft_append {a : Chars} (h : ∀ c, u.head? = some c → isBlank c = false) :
    trimLeft (a ++ u) = trimLeft a ++ u := by
  rw [trimLeft, trimLeft, dropWhile_append, dropWhile_of_head? h]
  split
  · rename_i hnil
    rw [isEmpty_iff.1 hnil, nil_append]
  · rfl

theorem trimRight_append {b : Chars} (h : ∀ c, u.getLast? = some c → isBlank c = false) :
    trimRight (u ++ b) = u ++ trimRight b := by
  have hleft := trimLeft_append (a := b.reverse) (u := u.reverse) fun c hc =>
    h c (head?_reverse.symm.trans hc)
  rw [trimRight, reverse_append, ← trimLeft, hleft, reverse_append, reverse_reverse]
  rfl

theorem trim_of_ends (hhead : ∀ c, u.head? = some c → isBlank c = false)
    (hlast : ∀ c, u.getLast? = some c → isBlank c = false) : trim u = u := by
  have hright := trimRight_append (b := []) hlast
  rw [trim, trimLeft, dropWhile_of_head? hhead]
  simpa [trimRight] using hright

/-! ## Joined texts -/

theorem joinWith_append (sep : Chars) (us : List Chars) {vs : List Chars}
    (hvs : vs ≠ []) : joinWith sep (us ++ vs) = us.flatMap (· ++ sep) ++ joinWith sep vs := by
  induction us with
  | nil => rfl
  | cons u us ih =>
    have hne : us ++ vs ≠ [] := fun h => hvs (append_eq_nil_iff.1 h).2
    rw [cons_append, joinWith, ih, flatMap_cons, append_assoc (u ++ sep)]
    exact hne

theorem joinWith_append_right (sep : Chars) (us vs : List Chars) :
    ∃ b, joinWith sep (us ++ vs) = joinWith sep us ++ b := by
  fun_induction joinWith sep us with
  | case1 => exact ⟨joinWith sep vs, rfl⟩
  | case2 u =>
    cases vs with
    | nil => exact ⟨[], (append_nil u).symm⟩
    | cons v vs => exact ⟨sep ++ joinWith sep (v :: vs), append_assoc u sep _⟩
  | case3 u us hne ih =>
    obtain ⟨b, hb⟩ := ih
    refine ⟨b, ?_⟩
    rw [cons_append, joinWith, hb, append_assoc _ (joinWith sep us)]
    intro h
    exact hne (append_eq_nil_iff.1 h).1

end Obscura.Text
