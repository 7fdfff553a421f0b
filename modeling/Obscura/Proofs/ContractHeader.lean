import Obscura.Proofs.Nesting
import Obscura.Proofs.Renaming

/-
  The header that a helper is put behind: the first place where the word `contract`,
  blanks and a name stand, with a brace on the line of the name. The last brace of
  that line counts (`bodyStart?_eq_some_iff`). Which place this is depends on the text
  up to the end of that line only (`bodyStart?_append`), and it stays where it is, and
  is read as before, when the promises of functions are weakened
  (`Weakened.bodyStart?_eq`, `Weakened.opensContract_iff`).
-/

namespace Obscura.Flow

open Text List

variable {a rest t t' v w s v' : Chars} {c c' d : Char} {i n : Nat} {x x' : Nesting}

/-! ## Headers -/

/-- The text is the header of a contract up to the last brace of the line of its name; behind the
brace follows `rest`. -/
def IsHeader (h rest : Chars) : Prop :=
  ∃ gap c v, h = "contract".toList ++ (gap ++ c :: v) ∧ gap ≠ [] ∧ (∀ e ∈ gap, isBlank e = true) ∧
    isWord c = true ∧ '\n' ∉ v ∧ '\x7b' ∉ rest.takeWhile (· != '\n')

/-- The text is `a`, a brace and `rest`; a header ends with `a`, and none starts before it. -/
def FirstHeader (t a rest : Chars) : Prop :=
  t = a ++ '\x7b' :: rest ∧ ∃ u h, a = u ++ h ∧ IsHeader h rest ∧
    ∀ u₁ u₂, u = u₁ ++ u₂ → u₂ ≠ [] →
      ∀ h' rest', u₂ ++ h ++ '\x7b' :: rest = h' ++ '\x7b' :: rest' → ¬IsHeader h' rest'

theorem lastBrace?_eq_none_iff : lastBrace? i t = none ↔ '\x7b' ∉ t.takeWhile (· != '\n') := by
  induction t generalizing i with
  | nil => simp [lastBrace?]
  | cons c t ih =>
    rw [lastBrace?]
    by_cases hc : c = '\n'
    · simp [hc]
    · have hkeep : (c != '\n') := bne_iff_ne.2 hc
      rw [if_neg hc, takeWhile_cons, if_pos hkeep, mem_cons, not_or, ← ih (i := i + 1)]
      cases lastBrace? (i + 1) t with
      | some j => simp
      | none =>
        by_cases hbrace : c = '\x7b'
        · simp [hbrace]
        · simp [hbrace, Ne.symm hbrace]

theorem lastBrace?_append (hv : '\n' ∉ v) (hrest : '\x7b' ∉ rest.takeWhile (· != '\n')) :
    lastBrace? i (v ++ '\x7b' :: rest) = some (i + v.length + 1) := by
  induction v generalizing i with
  | nil =>
    rw [nil_append, lastBrace?, if_neg (by decide), lastBrace?_eq_none_iff.2 hrest]
    rfl
  | cons c v ih =>
    rw [mem_cons, not_or] at hv
    rw [cons_append, lastBrace?, if_neg (Ne.symm hv.1), ih hv.2]
    simp only [length_cons]
    congr 1
    omega

theorem lastBrace?_eq_some_iff {j : Nat} :
    lastBrace? i t = some j ↔ ∃ v rest, t = v ++ '\x7b' :: rest ∧ '\n' ∉ v ∧
      '\x7b' ∉ rest.takeWhile (· != '\n') ∧ j = i + v.length + 1 := by
  constructor
  · intro h
    induction t generalizing i with
    | nil => cases h
    | cons c t ih =>
      rw [lastBrace?] at h
      split at h
      · cases h
      rename_i hc
      split at h
      · rename_i k hk
        cases h
        obtain ⟨v, rest, rfl, hv, hrest, rfl⟩ := ih hk
        refine ⟨c :: v, rest, rfl, ?_, hrest, by simp only [length_cons]; omega⟩
        rw [mem_cons, not_or]
        exact ⟨Ne.symm hc, hv⟩
      · rename_i hnone
        split at h
        · rename_i hbrace
          cases h
          exact ⟨[], t, by rw [hbrace]; rfl, not_mem_nil, lastBrace?_eq_none_iff.1 hnone, rfl⟩
        · cases h
  · rintro ⟨v, rest, rfl, hv, hrest, rfl⟩
    exact lastBrace?_append hv hrest

theorem header?_eq_some_iff :
    header? s = some n ↔ ∃ h rest, s = h ++ '\x7b' :: rest ∧ IsHeader h rest ∧ n = h.length + 1 := by
  constructor
  · intro h
    unfold header? at h
    split at h
    · cases h
    rename_i r hr
    rw [stripFront?_eq_some_iff] at hr
    dsimp only at h
    split at h
    · rename_i g gap c t hgap htail
      split at h
      · rename_i hc
        obtain ⟨j, hj, rfl⟩ := Option.map_eq_some_iff.1 h
        obtain ⟨v, rest, rfl, hfeed, hrest, rfl⟩ := lastBrace?_eq_some_iff.1 hj
        have hsplit : r = (g :: gap) ++ c :: (v ++ '\x7b' :: rest) := by
          rw [← hgap, ← htail, takeWhile_append_dropWhile]
        refine ⟨"contract".toList ++ ((g :: gap) ++ c :: v), rest, ?_,
          ⟨g :: gap, c, v, rfl, cons_ne_nil _ _, ?_, hc, hfeed, hrest⟩, ?_⟩
        · rw [hr, hsplit]
          simp only [append_assoc, cons_append]
        · rw [← hgap]
          exact fun e he => mem_takeWhile_imp he
        · rw [hgap]
          simp only [length_append, length_cons]
          have : "contract".toList.length = 8 := by decide
          omega
      · cases h
    · cases h
  · rintro ⟨h, rest, rfl, ⟨gap, c, v, rfl, hne, hgap, hc, hfeed, hrest⟩, rfl⟩
    have hstrip : stripFront? "contract".toList ("contract".toList ++ (gap ++ c :: v) ++ '\x7b' :: rest) =
        some (gap ++ c :: (v ++ '\x7b' :: rest)) := by
      rw [stripFront?_eq_some_iff]
      simp only [append_assoc, cons_append]
    have hblank : ∀ d, (c :: (v ++ '\x7b' :: rest)).head? = some d → isBlank d = false := by
      rintro d ⟨⟩
      cases hd : isBlank c with
      | false => rfl
      | true =>
        rw [isWord_of_isBlank hd] at hc
        cases hc
    obtain ⟨g, gap, rfl⟩ := exists_cons_of_ne_nil hne
    unfold header?
    rw [hstrip]
    dsimp only
    rw [takeWhile_run hgap hblank, dropWhile_run hgap hblank]
    dsimp only
    rw [if_pos hc, lastBrace?_append hfeed hrest]
    have hlen : "contract".toList.length = 8 := by decide
    simp only [length_append, length_cons, Option.map_some]
    congr 1
    omega

theorem bodyStart?_eq_some_iff :
    bodyStart? s = some n ↔ ∃ a rest, FirstHeader s a rest ∧ n = a.length + 1 := by
  induction s generalizing n with
  | nil =>
    refine ⟨nofun, ?_⟩
    rintro ⟨a, rest, ⟨ht, -⟩, -⟩
    simp at ht
  | cons c s ih =>
    rw [bodyStart?]
    cases hheader : header? (c :: s) with
    | some m =>
      obtain ⟨h, rest, hs, hh, rfl⟩ := header?_eq_some_iff.1 hheader
      constructor
      · rintro ⟨⟩
        refine ⟨h, rest, ⟨hs, [], h, rfl, hh, fun u₁ u₂ hu hne => ?_⟩, rfl⟩
        exact absurd (append_eq_nil_iff.1 hu.symm).2 hne
      · rintro ⟨a, rest', ⟨hs', u, h', rfl, hh', hfirst⟩, rfl⟩
        cases u with
        | nil =>
          have hsame := header?_eq_some_iff.2 ⟨h', rest', hs', hh', rfl⟩
          rw [hheader] at hsame
          exact hsame
        | cons d u =>
          refine absurd hh (hfirst [] (d :: u) rfl (cons_ne_nil d u) h rest ?_)
          rw [← hs', hs]
    | none =>
      have hnot : ∀ h rest, c :: s = h ++ '\x7b' :: rest → ¬IsHeader h rest := by
        intro h rest hs hh
        rw [header?_eq_some_iff.2 ⟨h, rest, hs, hh, rfl⟩] at hheader
        cases hheader
      constructor
      · intro hn
        obtain ⟨k, hk, rfl⟩ := Option.map_eq_some_iff.1 hn
        obtain ⟨a, rest, ⟨hs, u, h, rfl, hh, hfirst⟩, rfl⟩ := ih.1 hk
        refine ⟨c :: (u ++ h), rest, ⟨congrArg (c :: ·) hs, c :: u, h, rfl, hh,
          fun u₁ u₂ hu hne h' rest' heq => ?_⟩, rfl⟩
        cases u₁ with
        | nil =>
          cases hu
          refine hnot h' rest' ?_
          rw [← heq, hs]
          rfl
        | cons d u₁ =>
          cases hu
          exact hfirst u₁ u₂ rfl hne h' rest' heq
      · rintro ⟨a, rest, ⟨hs, u, h, rfl, hh, hfirst⟩, rfl⟩
        cases u with
        | nil => exact absurd hh (hnot h rest hs)
        | cons d u =>
          cases hs
          refine Option.map_eq_some_iff.2 ⟨(u ++ h).length + 1,
            ih.2 ⟨u ++ h, rest, ⟨rfl, u, h, rfl, hh, ?_⟩, rfl⟩, rfl⟩
          exact fun u₁ u₂ hu => hfirst (c :: u₁) u₂ (congrArg (c :: ·) hu)

/-! ## What stands behind the line -/

theorem takeWhile_line : (s ++ '\n' :: v).takeWhile (· != '\n') = s.takeWhile (· != '\n') := by
  induction s with
  | nil => rfl
  | cons c s ih => rw [cons_append, takeWhile_cons, takeWhile_cons, ih]

theorem exists_append_cons (h : s ++ v = a ++ c :: rest)
    (hlt : a.length < s.length) : ∃ t, s = a ++ c :: t ∧ rest = t ++ v := by
  rcases append_eq_append_iff.1 h with ⟨t, ha, -⟩ | ⟨t, hs, hrest⟩
  · rw [ha, length_append] at hlt
    omega
  · cases t with
    | nil =>
      rw [hs, append_nil] at hlt
      exact absurd hlt (Nat.lt_irrefl _)
    | cons d t =>
      cases hrest
      exact ⟨t, hs, rfl⟩

theorem IsHeader.rest_append {h : Chars} (hh : IsHeader h (t ++ '\n' :: v)) :
    IsHeader h (t ++ '\n' :: v') := by
  obtain ⟨gap, c, w, hw, hne, hgap, hc, hfeed, hrest⟩ := hh
  rw [takeWhile_line] at hrest
  exact ⟨gap, c, w, hw, hne, hgap, hc, hfeed, by rwa [takeWhile_line]⟩

theorem header?_append (v' : Chars) (h : header? (s ++ '\n' :: v) = some n)
    (hn : n ≤ s.length) : header? (s ++ '\n' :: v') = some n := by
  obtain ⟨a, rest, hs, hh, rfl⟩ := header?_eq_some_iff.1 h
  obtain ⟨t, rfl, rfl⟩ := exists_append_cons hs hn
  exact header?_eq_some_iff.2 ⟨a, t ++ '\n' :: v', by rw [append_assoc]; rfl, hh.rest_append, rfl⟩

/-- A header that goes on behind the line has no brace in the line. -/
theorem notMem_of_header? (h : header? (s ++ '\n' :: v) = some n) (hn : s.length < n) :
    '\x7b' ∉ s := by
  obtain ⟨a, rest, hs, ⟨gap, c, w, ha, -, hgap, hc, hfeed, -⟩, rfl⟩ := header?_eq_some_iff.1 h
  have hlt : s.length < a.length := by
    refine Nat.lt_of_le_of_ne (Nat.le_of_lt_succ hn) fun hlen => ?_
    cases (append_inj hs hlen).2
  obtain ⟨b, hb, -⟩ := exists_append_cons hs.symm hlt
  have hblank : '\x7b' ∉ "contract".toList ++ gap := by
    rw [mem_append, not_or]
    exact ⟨by decide, fun hmem => absurd (hgap _ hmem) (by decide)⟩
  have hword : '\n' ∉ c :: w := by
    rw [mem_cons, not_or]
    refine ⟨?_, hfeed⟩
    rintro rfl
    cases (isWord_of_isBlank (by decide : isBlank '\n')).symm.trans hc
  rw [ha, ← append_assoc] at hb
  rcases append_eq_append_iff.1 hb with ⟨r, hs, hrest⟩ | ⟨r, hall, -⟩
  · exact absurd (hrest ▸ mem_append_right r mem_cons_self) hword
  · exact fun hmem => hblank (hall ▸ mem_append_left r hmem)

/-- **The first header is found in its line.** -/
theorem bodyStart?_append (h : bodyStart? (s ++ '\n' :: v) = some n)
    (hn : n ≤ s.length) : bodyStart? (s ++ '\n' :: v') = some n := by
  induction s generalizing n with
  | nil =>
    obtain ⟨a, rest, -, rfl⟩ := bodyStart?_eq_some_iff.1 h
    cases hn
  | cons c s ih =>
    rw [cons_append, bodyStart?] at h ⊢
    cases hheader : header? (c :: (s ++ '\n' :: v)) with
    | some m =>
      rw [hheader] at h
      cases h
      have hsame : header? (c :: (s ++ '\n' :: v')) = some n := header?_append (s := c :: s) v' hheader hn
      rw [hsame]
    | none =>
      rw [hheader] at h
      obtain ⟨k, hk, rfl⟩ := Option.map_eq_some_iff.1 h
      have hkn : k ≤ s.length := Nat.le_of_succ_le_succ hn
      have hbrace : '\x7b' ∈ s := by
        obtain ⟨a, rest, ⟨hs, -⟩, rfl⟩ := bodyStart?_eq_some_iff.1 hk
        obtain ⟨t, rfl, -⟩ := exists_append_cons hs hkn
        exact mem_append_right a mem_cons_self
      have hnone : header? (c :: (s ++ '\n' :: v')) = none := by
        rw [Option.eq_none_iff_forall_ne_some]
        intro m hm
        by_cases hlen : m ≤ (c :: s).length
        · have := header?_append (s := c :: s) v hm hlen
          rw [cons_append, hheader] at this
          cases this
        · exact notMem_of_header? (s := c :: s) hm (Nat.lt_of_not_le hlen) (.tail c hbrace)
      rw [hnone, ih hk hkn]
      rfl

/-! ## Weaker promises -/

/-- The second text is the first with the word `view` in place of some words `pure`. -/
inductive Weakened : Chars → Chars → Prop
  | nil : Weakened [] []
  | char (c : Char) {s s' : Chars} (h : Weakened s s') : Weakened (c :: s) (c :: s')
  | word {s s' : Chars} (h : Weakened s s') :
    Weakened ('p' :: 'u' :: 'r' :: 'e' :: s) ('v' :: 'i' :: 'e' :: 'w' :: s')

theorem weakened_replaceWord (before : Option Char) :
    Weakened s (replaceWord "pure".toList "view".toList before s) := by
  fun_induction replaceWord "pure".toList "view".toList before s with
  | case1 => exact .nil
  | case2 before c t h ih =>
    obtain ⟨r, hr, -⟩ := wordAhead_iff.1 h.2
    rw [hr, drop_left] at ih ⊢
    exact .word ih
  | case3 before c t h ih => exact .char c ih

namespace Weakened

variable {s s' : Chars}

theorem length_eq (h : Weakened s s') : s'.length = s.length := by
  induction h with
  | nil => rfl
  | char c _ ih => rw [length_cons, length_cons, ih]
  | word _ ih => simp only [length_cons, ih]

/-- A text is cut in the same place where the cut is in no exchanged word. -/
theorem cut (h : Weakened s s') {r : Chars} (hs : s = a ++ d :: r) (hd : d ∉ ['p', 'u', 'r', 'e']) :
    ∃ a' r', s' = a' ++ d :: r' ∧ Weakened a a' := by
  induction h generalizing a with
  | nil => simp at hs
  | @char c s s' h ih =>
    cases a with
    | nil =>
      cases hs
      exact ⟨[], s', rfl, .nil⟩
    | cons b a =>
      cases hs
      obtain ⟨a', r', rfl, ha⟩ := ih rfl
      exact ⟨c :: a', r', rfl, .char c ha⟩
  | @word s s' h ih =>
    have hskip : ∀ {e : Char} {t b : Chars}, e ∈ ['p', 'u', 'r', 'e'] → e :: t = b ++ d :: r →
        ∃ b', b = e :: b' ∧ t = b' ++ d :: r := by
      intro e t b he hb
      cases b with
      | nil =>
        cases hb
        exact absurd he hd
      | cons f b =>
        cases hb
        exact ⟨b, rfl, rfl⟩
    obtain ⟨a₁, rfl, hs₁⟩ := hskip (by decide) hs
    obtain ⟨a₂, rfl, hs₂⟩ := hskip (by decide) hs₁
    obtain ⟨a₃, rfl, hs₃⟩ := hskip (by decide) hs₂
    obtain ⟨a₄, rfl, hs₄⟩ := hskip (by decide) hs₃
    obtain ⟨a', r', rfl, ha⟩ := ih hs₄
    exact ⟨'v' :: 'i' :: 'e' :: 'w' :: a', r', rfl, .word ha⟩

/-! ### The header stays in its place -/

def Same (c c' : Char) : Prop :=
  c = c' ∨ isWord c = true ∧ isWord c' = true

theorem isWord_of_mem (hd : d ∈ ['p', 'u', 'r', 'e', 'v', 'i', 'w']) : isWord d := by
  have hall : ∀ d ∈ ['p', 'u', 'r', 'e', 'v', 'i', 'w'], d.toNat < 128 ∧ (d.isAlphanum || d == '_') :=
    forall_mem_of_all rfl
  rw [isWord_eq (hall d hd).1]
  exact (hall d hd).2

theorem same (h : Weakened s s') : Forall₂ Same s s' := by
  have hboth {c d : Char} (h : c ∈ ['p', 'u', 'r', 'e', 'v', 'i', 'w'] ∧
      d ∈ ['p', 'u', 'r', 'e', 'v', 'i', 'w']) :
      Same c d := .inr ⟨isWord_of_mem h.1, isWord_of_mem h.2⟩
  induction h with
  | nil => exact .nil
  | char c _ ih => exact .cons (.inl rfl) ih
  | word _ ih =>
    exact .cons (hboth (by decide)) (.cons (hboth (by decide))
      (.cons (hboth (by decide)) (.cons (hboth (by decide)) ih)))

theorem Same.isWord_eq (h : Same c c') : isWord c' = isWord c := by
  rcases h with rfl | ⟨hc, hc'⟩
  · rfl
  · rw [hc, hc']

theorem Same.eq_iff (h : Same c c') (hd : isWord d = false) : c' = d ↔ c = d := by
  rcases h with rfl | ⟨hc, hc'⟩
  · exact Iff.rfl
  · refine iff_of_false ?_ ?_
    · rintro rfl
      rw [hd] at hc'
      cases hc'
    · rintro rfl
      rw [hd] at hc
      cases hc

theorem Same.isBlank_eq (h : Same c c') : isBlank c' = isBlank c := by
  have hblank {d : Char} (hd : isWord d) : isBlank d = false := by
    rw [Bool.eq_false_iff]
    intro hd'
    rw [isWord_of_isBlank hd'] at hd
    cases hd
  rcases h with rfl | ⟨hc, hc'⟩
  · rfl
  · rw [hblank hc, hblank hc']

theorem lastBrace?_eq (h : Forall₂ Same t t') : lastBrace? i t' = lastBrace? i t := by
  have hfeed : isWord '\n' = false := isWord_of_isBlank (by decide)
  have hbrace : isWord '\x7b' = false := isWord_of_symbol (by decide) rfl
  induction h generalizing i with
  | nil => rfl
  | cons hc _ ih => simp only [lastBrace?, ih, hc.eq_iff hfeed, hc.eq_iff hbrace]

theorem blanks_eq (h : Forall₂ Same t t') :
    t'.takeWhile isBlank = t.takeWhile isBlank ∧ Forall₂ Same (t.dropWhile isBlank) (t'.dropWhile isBlank) := by
  induction h with
  | nil => exact ⟨rfl, .nil⟩
  | @cons c c' t t' hc ht ih =>
    rw [takeWhile_cons, takeWhile_cons, dropWhile_cons, dropWhile_cons, hc.isBlank_eq]
    cases hblank : isBlank c with
    | false => exact ⟨rfl, .cons hc ht⟩
    | true =>
      have hsame : c = c' := by
        refine hc.resolve_right fun hword => ?_
        rw [isWord_of_isBlank hblank] at hword
        cases hword.1
      rw [if_pos rfl, if_pos rfl, if_pos rfl, if_pos rfl, hsame, ih.1]
      exact ⟨rfl, ih.2⟩

/-- A word without the letters that change at the front is found in both texts or in none. -/
theorem stripFront?_cases (hw : 'p' ∉ w ∧ 'v' ∉ w) (h : Weakened s s') :
    stripFront? w s = none ∧ stripFront? w s' = none ∨
      ∃ r r', stripFront? w s = some r ∧ stripFront? w s' = some r' ∧ Weakened r r' := by
  induction w generalizing s s' with
  | nil => exact .inr ⟨s, s', rfl, rfl, h⟩
  | cons a w ih =>
    simp only [mem_cons, not_or] at hw
    cases h with
    | nil => exact .inl ⟨rfl, rfl⟩
    | @char c t t' h =>
      rw [stripFront?, stripFront?]
      split
      · exact ih ⟨hw.1.2, hw.2.2⟩ h
      · exact .inl ⟨rfl, rfl⟩
    | word h =>
      rw [stripFront?, stripFront?, beq_eq_false_iff_ne.2 (Ne.symm hw.1.1),
        beq_eq_false_iff_ne.2 (Ne.symm hw.2.1)]
      exact .inl ⟨rfl, rfl⟩

theorem header?_eq (h : Weakened s s') : header? s' = header? s := by
  unfold header?
  rcases h.stripFront?_cases (w := "contract".toList) ⟨by decide, by decide⟩ with ⟨hs, hs'⟩ |
    ⟨r, r', hs, hs', hr⟩
  · rw [hs, hs']
  rw [hs, hs']
  obtain ⟨htake, hdrop⟩ := blanks_eq hr.same
  dsimp only
  rw [htake]
  generalize r.dropWhile isBlank = t at hdrop ⊢
  generalize r'.dropWhile isBlank = t' at hdrop ⊢
  cases r.takeWhile isBlank with
  | nil => rfl
  | cons g gap =>
    cases hdrop with
    | nil => rfl
    | cons hc ht =>
      dsimp only
      rw [hc.isWord_eq, lastBrace?_eq ht]

theorem bodyStart?_eq (h : Weakened s s') : bodyStart? s' = bodyStart? s := by
  have hother {c : Char} (hc : c ≠ 'c') (t : Chars) : bodyStart? (c :: t) = (bodyStart? t).map (· + 1) := by
    have hnone : header? (c :: t) = none := by
      rw [Option.eq_none_iff_forall_ne_some]
      intro n hn
      obtain ⟨h, rest, hs, ⟨gap, d, v, rfl, -⟩, -⟩ := header?_eq_some_iff.1 hn
      exact hc (cons.inj hs).1
    rw [bodyStart?, hnone]
  induction h with
  | nil => rfl
  | char c h ih => rw [bodyStart?, bodyStart?, (h.char c).header?_eq, ih]
  | word h ih =>
    rw [hother (by decide), hother (by decide), hother (by decide), hother (by decide), hother (by decide),
      hother (by decide), hother (by decide), hother (by decide), ih]

end Weakened

/-! ### The text before it is read as before -/

namespace Nesting

/-- The word goes on to no word that announces a contract. -/
def Off (w : Chars) : Prop :=
  ∃ c ∈ w, c ∉ "contract".toList

theorem Off.append (h : Off w) (t : Chars) : Off (w ++ t) := by
  obtain ⟨c, hc, hne⟩ := h
  exact ⟨c, mem_append_left t hc, hne⟩

theorem settle_of_off (h : Off x.word) : x.settle = ⟨[], x.contract, x.depth⟩ := by
  obtain ⟨c, hc, hne⟩ := h
  have hword : (x.word == "contract".toList) = false := beq_eq_false_iff_ne.2 fun heq => hne (heq ▸ hc)
  rw [settle, hword, Bool.and_false, Bool.or_false]

/-- The readings are the same, or differ in a word that announces nothing. -/
def Alike (x x' : Nesting) : Prop :=
  x = x' ∨ Off x.word ∧ Off x'.word ∧ x.contract = x'.contract ∧ x.depth = x'.depth

theorem Alike.settle (h : Alike x x') : x.settle = x'.settle := by
  rcases h with rfl | ⟨hx, hx', hcontract, hdepth⟩
  · rfl
  · rw [settle_of_off hx, settle_of_off hx', hcontract, hdepth]

theorem Alike.contract_depth (h : Alike x x') : x.contract = x'.contract ∧ x.depth = x'.depth := by
  rcases h with rfl | ⟨-, -, h⟩
  · exact ⟨rfl, rfl⟩
  · exact h

theorem keeps_alike : reader.Keeps Alike where
  letter := by
    rintro x x' c (rfl | ⟨hx, hx', h⟩)
    · exact .inl rfl
    · exact .inr ⟨hx.append [c], hx'.append [c], h⟩
  blank := fun x x' h => .inl h.settle
  mark := fun x x' c h => .inl (congrArg (mark · c) h.settle)
  quoted := fun x x' _ h => .inl h.settle

theorem run_letters (hw : ∀ c ∈ w, isNameChar c) :
    reader.run (.code, x) w = (.code, { x with word := x.word ++ w }) := by
  refine Reader.run_name (fun x w => { x with word := x.word ++ w }) (fun x => ?_) (fun x c w => ?_) (x := x) hw
  · rw [append_nil]
  · rw [append_cons]
    rfl

end Nesting

namespace Weakened

open Nesting

variable {s s' : Chars}

theorem run_word (h : Alike x x') (m : Mode) :
    (reader.run (m, x) ['p', 'u', 'r', 'e']).1 = (reader.run (m, x') ['v', 'i', 'e', 'w']).1 ∧
      Alike (reader.run (m, x) ['p', 'u', 'r', 'e']).2 (reader.run (m, x') ['v', 'i', 'e', 'w']).2 := by
  have hname {w : Chars} (hw : w ⊆ ['p', 'u', 'r', 'e', 'v', 'i', 'w']) : ∀ d ∈ w, isNameChar d := by
    intro d hd
    rw [isNameChar, isWord_of_mem (hw hd)]
    rfl
  have hcode {z z' : Nesting} (hz : Alike z z') :
      (reader.run (.code, z) ['p', 'u', 'r', 'e']).1 = (reader.run (.code, z') ['v', 'i', 'e', 'w']).1 ∧
        Alike (reader.run (.code, z) ['p', 'u', 'r', 'e']).2
        (reader.run (.code, z') ['v', 'i', 'e', 'w']).2 := by
    rw [run_letters (hname (by decide)), run_letters (hname (by decide))]
    refine ⟨rfl, .inr ⟨⟨'p', ?_, by decide⟩, ⟨'v', ?_, by decide⟩, hz.contract_depth⟩⟩
    · exact mem_append_right _ (by decide)
    · exact mem_append_right _ (by decide)
  cases m with
  | code => exact hcode h
  | slash =>
    have hmark {z : Nesting} {c : Char} {w : Chars} (hc : c ≠ '/' ∧ c ≠ '*') :
        reader.run (.slash, z) (c :: w) = reader.run (.code, reader.mark z '/') (c :: w) := by
      rw [Reader.run_cons, Reader.run_cons, Reader.step_slash hc.1 hc.2]
    rw [hmark (by decide), hmark (by decide)]
    exact hcode (keeps_alike.mark x x' '/' h)
  | line => exact ⟨rfl, h⟩
  | block => exact ⟨rfl, h⟩
  | star => exact ⟨rfl, h⟩
  | quote d =>
    cases d <;> exact ⟨rfl, .inl (congrArg (fun z => z.settle.settle.settle) h.settle)⟩
  | escape d =>
    cases d <;> exact ⟨rfl, .inl (congrArg (fun z => z.settle.settle.settle) h.settle)⟩

theorem run (h : Weakened s s') (hx : Alike x x') (m : Mode) :
    (reader.run (m, x) s).1 = (reader.run (m, x') s').1 ∧
    Alike (reader.run (m, x) s).2 (reader.run (m, x') s').2 := by
  induction h generalizing m x x' with
  | nil => exact ⟨rfl, hx⟩
  | char c h ih =>
    rw [Reader.run_cons, Reader.run_cons]
    exact ih (keeps_alike.step hx m c) (m.next c).1
  | @word t t' h ih =>
    obtain ⟨hmode, halike⟩ := run_word hx m
    have hold : reader.run (m, x) ('p' :: 'u' :: 'r' :: 'e' :: t) =
        reader.run (reader.run (m, x) ['p', 'u', 'r', 'e']) t := rfl
    have hnew : reader.run (m, x') ('v' :: 'i' :: 'e' :: 'w' :: t') =
        reader.run (reader.run (m, x') ['v', 'i', 'e', 'w']) t' := rfl
    rw [hold, hnew]
    generalize reader.run (m, x) ['p', 'u', 'r', 'e'] = y at hmode halike ⊢
    generalize reader.run (m, x') ['v', 'i', 'e', 'w'] = y' at hmode halike ⊢
    obtain ⟨m₁, z⟩ := y
    obtain ⟨m₂, z'⟩ := y'
    obtain rfl : m₁ = m₂ := hmode
    exact ih halike m₁

theorem opensContract_iff (h : Weakened s s') : OpensContract s' ↔ OpensContract s := by
  obtain ⟨hmode, halike⟩ := h.run (.inl rfl) .code
  rw [OpensContract, OpensContract, Reader.read, Reader.read, hmode, halike.settle, halike.contract_depth.2]

theorem inMemberRemark_iff (h : Weakened s s') : InMemberRemark s' ↔ InMemberRemark s := by
  obtain ⟨hmode, halike⟩ := h.run (.inl rfl) .code
  rw [InMemberRemark, InMemberRemark, Reader.read, Reader.read, hmode, halike.contract_depth.1,
    halike.contract_depth.2]

end Weakened

end Obscura.Flow
