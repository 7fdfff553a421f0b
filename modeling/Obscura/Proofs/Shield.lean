import Mathlib.Data.List.TakeWhile
import Obscura.Literal.Truth
import Obscura.Proofs.Characters

/-
  Scans for comments and strings over a text in which words have been exchanged.
  What is put in is plain: it holds no quote, backslash or line end, and a blank
  stands behind each of its slashes and stars. If no exchanged word was marked, the
  scans mark in the new text what they marked in the old one (`shielded_newOf`).
-/

namespace Obscura.Literal

open Text Layout List

variable {a b : List Bool} {c : Char} {p r s t u w : Chars}

/-! ## Plain texts -/

/-- A character that neither quotes nor ends a line. -/
def isQuiet (c : Char) : Bool :=
  c != '"' && c != '\'' && c != '\\' && c != '\n' && c != '\r'

def isPlain : Chars → Bool
  | [] => true
  | c :: t => isQuiet c && (c != '/' && c != '*' || t.head? == some ' ') && isPlain t

theorem isPlain_cons (h : isPlain (c :: t)) :
    isQuiet c ∧ (c ≠ '/' ∧ c ≠ '*' ∨ t.head? = some ' ') ∧ isPlain t := by
  simpa [isPlain, and_assoc] using h

theorem isPlain_append {v : Chars} (hu : isPlain u) (hv : isPlain v) :
    isPlain (u ++ v) := by
  induction u with
  | nil => exact hv
  | cons c u ih =>
    obtain ⟨hc, hnext, hu⟩ := isPlain_cons hu
    have hnext' : (c != '/' && c != '*' || (u ++ v).head? == some ' ') := by
      rcases hnext with h | h
      · simp [h]
      · simp [head?_append, h]
    rw [cons_append, isPlain, hc, hnext', ih hu]
    rfl

theorem isPlain_of_forall (h : ∀ c ∈ u, isQuiet c ∧ c ≠ '/' ∧ c ≠ '*') : isPlain u := by
  induction u with
  | nil => rfl
  | cons c u ih =>
    obtain ⟨hc, hs, ht⟩ := h c mem_cons_self
    simp [isPlain, hc, hs, ht, ih fun x hx => h x (.tail _ hx)]

/-! ## Exchanged texts -/

/-- A character that stays, or a word and the text that is put in its place. -/
inductive Seg where
  | char (c : Char)
  | swap (w f : Chars)

variable {ss : List Seg}

def Seg.old : Seg → Chars
  | .char c => [c]
  | .swap w _ => w

def Seg.new : Seg → Chars
  | .char c => [c]
  | .swap _ f => f

/-- A truth value, and a plain text that starts with a bracket. -/
def Seg.Tame : Seg → Prop
  | .char _ => True
  | .swap w f => (truthWord? w).isSome = true ∧ isPlain f = true ∧ ∃ g, f = '(' :: g

def oldOf (ss : List Seg) : Chars :=
  ss.flatMap Seg.old

def newOf (ss : List Seg) : Chars :=
  ss.flatMap Seg.new

/-- No exchanged word is marked. -/
def Free : List Bool → List Seg → Prop
  | _, [] => True
  | m, s :: ss => (∀ w f, s = .swap w f → true ∉ m.take w.length) ∧ Free (m.drop s.old.length) ss

/-- The marks of the old text brought to the places of the new one. -/
def carried : List Bool → List Seg → List Bool
  | _, [] => []
  | m, .char _ :: ss => m.take 1 ++ carried (m.drop 1) ss
  | m, .swap w f :: ss => List.replicate f.length false ++ carried (m.drop w.length) ss

theorem truthWord_cases (h : (truthWord? w).isSome) : w = "true".toList ∨ w = "false".toList := by
  unfold truthWord? at h
  split at h
  · exact .inl ‹_›
  · split at h
    · exact .inr ‹_›
    · cases h

theorem Seg.Tame.ne_nil {f : Chars} (h : (Seg.swap w f).Tame) : w ≠ [] := by
  rcases truthWord_cases h.1 with rfl | rfl <;> exact cons_ne_nil _ _

theorem isPlain_truthWord (h : (truthWord? w).isSome) : isPlain w := by
  rcases truthWord_cases h with rfl | rfl <;> decide

/-- The texts start alike, except that a bracket may stand for a letter. -/
theorem head?_newOf (ht : ∀ s ∈ ss, s.Tame) : (newOf ss).head? = (oldOf ss).head? ∨
      (∃ c, (oldOf ss).head? = some c ∧ c.isAlpha) ∧ (newOf ss).head? = some '(' := by
  cases ss with
  | nil => exact .inl rfl
  | cons s ss =>
    cases s with
    | char c => exact .inl rfl
    | swap w f =>
      obtain ⟨hw, -, g, rfl⟩ := ht _ mem_cons_self
      rcases truthWord_cases hw with rfl | rfl
      · exact .inr ⟨⟨'t', rfl, rfl⟩, rfl⟩
      · exact .inr ⟨⟨'f', rfl, rfl⟩, rfl⟩

theorem exists_char_of_head? (ht : ∀ s ∈ ss, s.Tame) (hc : c ≠ '(')
    (h : (newOf ss).head? = some c) : ∃ ss', ss = .char c :: ss' := by
  cases ss with
  | nil => cases h
  | cons s ss =>
    cases s with
    | char d =>
      cases h
      exact ⟨ss, rfl⟩
    | swap w f =>
      obtain ⟨-, -, g, rfl⟩ := ht _ mem_cons_self
      cases h
      exact absurd rfl hc

/-! ## Recognisers -/

/-- A recogniser that looks no further than the piece that it finds and the character
behind it, and that finds nothing new where words are exchanged. -/
structure Scanner (find? : Chars → Option Chars) : Prop where
  /-- A piece is found again before a text that starts alike. -/
  again : ∀ {s r}, find? s = some r → ∃ u, u ≠ [] ∧ s = u ++ r ∧
    ∀ r', (r'.head? = r.head? ∨ (∃ c, r.head? = some c ∧ c.isAlpha = true) ∧ r'.head? = some '(') →
      find? (u ++ r') = some r'
  stays_none : ∀ {c ss}, (∀ s ∈ ss, Seg.Tame s) → find? (c :: oldOf ss) = none →
    find? (c :: newOf ss) = none
  plain : ∀ {c u}, isPlain (c :: u) = true → ∀ t, find? (c :: (u ++ t)) = none

section Marks

variable {find? : Chars → Option Chars}

theorem marks_none (h : find? (c :: t) = none) : marks find? (c :: t) = false :: marks find? t := by
  rw [marks, h]

theorem marks_some (hu : u ≠ []) (h : find? (u ++ r) = some r) :
    marks find? (u ++ r) = replicate u.length true ++ marks find? r := by
  obtain ⟨c, v, rfl⟩ := exists_cons_of_ne_nil hu
  rw [cons_append] at h ⊢
  rw [marks, h]
  dsimp only
  rw [if_pos (by rw [length_cons, length_append]; omega)]
  congr 2
  simp
  omega

theorem marks_plain (hF : Scanner find?) (hu : isPlain u) :
    marks find? (u ++ t) = replicate u.length false ++ marks find? t := by
  induction u with
  | nil => rfl
  | cons c u ih =>
    rw [cons_append, marks_none (hF.plain hu t), ih (isPlain_cons hu).2.2]
    rfl

theorem exists_of_free {m : List Bool} (ss : List Seg) (hs : oldOf ss = u ++ r)
    (hf : Free (replicate u.length true ++ m) ss) (hne : ∀ w f, .swap w f ∈ ss → w ≠ []) :
    ∃ ss', ss = u.map .char ++ ss' ∧ oldOf ss' = r ∧ Free m ss' := by
  induction u generalizing ss with
  | nil => exact ⟨ss, rfl, hs, hf⟩
  | cons c u ih =>
    cases ss with
    | nil => cases hs
    | cons s ss =>
      cases s with
      | char d =>
        obtain ⟨rfl, hrest⟩ := cons.inj hs
        obtain ⟨ss', rfl, hr, hfree⟩ := ih ss hrest hf.2 fun w f hmem => hne w f (.tail _ hmem)
        exact ⟨ss', rfl, hr, hfree⟩
      | swap w f =>
        obtain ⟨d, w, rfl⟩ := exists_cons_of_ne_nil (hne w f mem_cons_self)
        exact absurd mem_cons_self (hf.1 (d :: w) f rfl)

theorem carried_chars (m : List Bool) :
    carried (replicate u.length true ++ m) (u.map .char ++ ss) =
      replicate u.length true ++ carried m ss := by
  induction u with
  | nil => rfl
  | cons c u ih => exact congrArg (true :: ·) ih

/-- **A scan of the new text** marks what it marked in the old one. -/
theorem marks_newOf (hF : Scanner find?) {ss : List Seg} (ht : ∀ s ∈ ss, s.Tame)
    (hf : Free (marks find? (oldOf ss)) ss) :
    marks find? (newOf ss) = carried (marks find? (oldOf ss)) ss := by
  match ss with
  | [] =>
    rw [newOf, flatMap_nil, marks]
    rfl
  | .swap w f :: ss =>
    have ht' : ∀ s ∈ ss, s.Tame := fun s hs => ht s (.tail _ hs)
    obtain ⟨hw, hplain, -⟩ := ht _ mem_cons_self
    have hold : marks find? (oldOf (.swap w f :: ss)) =
        replicate w.length false ++ marks find? (oldOf ss) :=
      marks_plain hF (isPlain_truthWord hw)
    have hdrop : (marks find? (oldOf (.swap w f :: ss))).drop w.length = marks find? (oldOf ss) := by
      rw [hold, drop_left' length_replicate]
    have hf' := hf.2
    rw [Seg.old, hdrop] at hf'
    rw [carried, hdrop, ← marks_newOf hF ht' hf']
    exact marks_plain hF hplain
  | .char c :: ss =>
    have ht' : ∀ s ∈ ss, s.Tame := fun s hs => ht s (.tail _ hs)
    cases hfind : find? (c :: oldOf ss) with
    | none =>
      have hold : marks find? (oldOf (.char c :: ss)) = false :: marks find? (oldOf ss) :=
        marks_none hfind
      rw [hold] at hf ⊢
      have hnew := marks_newOf hF ht' hf.2
      exact (marks_none (hF.stays_none ht' hfind)).trans (congrArg _ hnew)
    | some r =>
      -- the piece is the same in both texts, and the scans go on behind it
      obtain ⟨u, hu, hs, hagain⟩ := hF.again hfind
      have hold : marks find? (oldOf (.char c :: ss)) =
          replicate u.length true ++ marks find? r := by
        show marks find? (c :: oldOf ss) = _
        rw [hs] at hfind ⊢
        exact marks_some hu hfind
      rw [hold] at hf ⊢
      obtain ⟨ss', hsplit, rfl, hfree⟩ :=
        exists_of_free (.char c :: ss) hs hf fun w f hmem => (ht _ hmem).ne_nil
      have hlen : ss'.length < ss.length + 1 := by
        have := congrArg length hsplit
        have := length_pos_iff.2 hu
        simp at *
        omega
      have ht'' : ∀ s ∈ ss', s.Tame := fun s hs => ht s (hsplit ▸ mem_append_right _ hs)
      have hnew : newOf (.char c :: ss) = u ++ newOf ss' := by
        rw [hsplit, newOf, flatMap_append, newOf]
        congr 1
        simp [flatMap_map, Seg.new]
      rw [hsplit, carried_chars, ← hsplit, hnew, marks_some hu (hagain _ (head?_newOf ht'')),
        marks_newOf hF ht'' hfree]
  termination_by ss.length

end Marks

/-! ## Block comments -/

theorem closeBlock?_again (h : closeBlock? s = some (p, r)) (r' : Chars) :
    closeBlock? (p ++ r') = some (p, r') := by
  induction s generalizing p with
  | nil => cases h
  | cons c s ih =>
    by_cases hc : c = '*' ∧ s.head? = some '/'
    · obtain ⟨rfl, hs⟩ := hc
      obtain ⟨t, rfl⟩ := head?_eq_some_iff.1 hs
      cases h
      rfl
    · rw [closeBlock?_cons hc] at h
      obtain ⟨⟨q, t⟩, hq, he⟩ := Option.map_eq_some_iff.1 h
      cases he
      have hq' : ¬(c = '*' ∧ (q ++ r').head? = some '/') := by
        rintro ⟨rfl, hhead⟩
        refine hc ⟨rfl, ?_⟩
        rw [← closeBlock?_append hq]
        obtain ⟨d, v, rfl⟩ := exists_cons_of_ne_nil (closeBlock?_ne_nil hq)
        exact hhead
      rw [cons_append, closeBlock?_cons hq', ih hq]
      rfl

theorem closeBlock?_plain (hu : isPlain u) :
    closeBlock? (u ++ t) = none ↔ closeBlock? t = none := by
  induction u with
  | nil => rfl
  | cons c u ih =>
    obtain ⟨-, hnext, hplain⟩ := isPlain_cons hu
    have hc : ¬(c = '*' ∧ (u ++ t).head? = some '/') := by
      rintro ⟨rfl, hhead⟩
      rcases hnext with h | h
      · exact h.2 rfl
      · rw [head?_append, h] at hhead
        cases hhead
    rw [cons_append, closeBlock?_cons hc, Option.map_eq_none_iff, ih hplain]

theorem closeBlock?_newOf (ht : ∀ s ∈ ss, s.Tame)
    (h : closeBlock? (oldOf ss) = none) : closeBlock? (newOf ss) = none := by
  induction ss with
  | nil => rfl
  | cons s ss ih =>
    have ht' : ∀ s ∈ ss, s.Tame := fun s hs => ht s (.tail _ hs)
    cases s with
    | char c =>
      have hold : closeBlock? (c :: oldOf ss) = none := h
      have hc : ¬(c = '*' ∧ (oldOf ss).head? = some '/') := by
        rintro ⟨rfl, hhead⟩
        obtain ⟨t, hs⟩ := head?_eq_some_iff.1 hhead
        rw [hs] at hold
        cases hold
      rw [closeBlock?_cons hc, Option.map_eq_none_iff] at hold
      have hc' : ¬(c = '*' ∧ (newOf ss).head? = some '/') := by
        rintro ⟨rfl, hhead⟩
        rcases head?_newOf ht' with hn | ⟨-, hn⟩
        · exact hc ⟨rfl, hn ▸ hhead⟩
        · rw [hn] at hhead
          cases hhead
      show closeBlock? (c :: newOf ss) = none
      rw [closeBlock?_cons hc', ih ht' hold]
      rfl
    | swap w f =>
      obtain ⟨hw, hplain, -⟩ := ht _ mem_cons_self
      exact (closeBlock?_plain hplain).2 (ih ht' ((closeBlock?_plain (isPlain_truthWord hw)).1 h))

theorem scanner_block : Scanner fun t => (block? t).map (·.2) where
  again := by
    intro s r h
    obtain ⟨⟨a, r⟩, hb, rfl⟩ := Option.map_eq_some_iff.1 h
    unfold block? at hb
    split at hb
    · obtain ⟨⟨p, r⟩, hp, he⟩ := Option.map_eq_some_iff.1 hb
      cases he
      refine ⟨'/' :: '*' :: p, cons_ne_nil _ _, ?_, fun r' _ => ?_⟩
      · rw [← closeBlock?_append hp]
        rfl
      · show ((closeBlock? (p ++ r')).map _).map _ = _
        rw [closeBlock?_again hp r']
        rfl
    · cases hb
  stays_none := by
    intro c ss ht h
    rw [Option.map_eq_none_iff] at h ⊢
    by_cases hc : c = '/' ∧ (newOf ss).head? = some '*'
    · obtain ⟨rfl, hhead⟩ := hc
      obtain ⟨ss', rfl⟩ := exists_char_of_head? ht (by decide) hhead
      have hclose : closeBlock? (oldOf ss') = none := Option.map_eq_none_iff.1 h
      have := closeBlock?_newOf (fun s hs => ht s (.tail _ hs)) hclose
      exact Option.map_eq_none_iff.2 this
    · exact block?_cons hc
  plain := by
    intro c u hu t
    obtain ⟨-, hnext, -⟩ := isPlain_cons hu
    rw [block?_cons]
    · rfl
    · rintro ⟨rfl, hhead⟩
      rcases hnext with h | h
      · exact h.1 rfl
      · rw [head?_append, h] at hhead
        cases hhead

/-! ## Line comments -/

theorem scanner_line : Scanner fun t => (line? t).map (·.2) where
  again := by
    intro s r h
    obtain ⟨⟨a, r⟩, hb, rfl⟩ := Option.map_eq_some_iff.1 h
    unfold line? at hb
    split at hb
    · rename_i t
      cases hb
      refine ⟨'/' :: '/' :: t.takeWhile (!endsLineComment ·), cons_ne_nil _ _, ?_, ?_⟩
      · simp [takeWhile_append_dropWhile]
      · intro r' hr'
        have hend : ∀ c, (t.dropWhile (!endsLineComment ·)).head? = some c →
            endsLineComment c := by
          intro c hc
          simpa using dropWhile_stops hc
        have hhead : ∀ c, r'.head? = some c → (!endsLineComment c) = false := by
          intro c hc
          rcases hr' with h | ⟨⟨d, hd, halpha⟩, -⟩
          · simp [hend c (h ▸ hc)]
          · have := hend d hd
            simp only [endsLineComment, Bool.or_eq_true, beq_iff_eq] at this
            rcases this with rfl | rfl <;> cases halpha
        show some ((t.takeWhile (!endsLineComment ·) ++ r').dropWhile (!endsLineComment ·)) = some r'
        rw [dropWhile_run (fun c hc => mem_takeWhile_imp hc) hhead]
    · cases hb
  stays_none := by
    intro c ss ht h
    rw [Option.map_eq_none_iff] at h ⊢
    refine line?_cons ?_
    rintro ⟨rfl, hhead⟩
    obtain ⟨ss', rfl⟩ := exists_char_of_head? ht (by decide) hhead
    cases h
  plain := by
    intro c u hu t
    obtain ⟨-, hnext, -⟩ := isPlain_cons hu
    rw [line?_cons]
    · rfl
    · rintro ⟨rfl, hhead⟩
      rcases hnext with h | h
      · exact h.1 rfl
      · rw [head?_append, h] at hhead
        cases hhead

/-! ## Strings -/

section Closing

variable {escapes : Char → Bool} {q : Char}

theorem closing?_escape :
    closing? escapes q ('\\' :: c :: s) = none ↔ (escapes c → closing? escapes q s = none) := by
  rw [closing?]
  split <;> simp [*]

theorem closing?_plain (hq : isQuiet q = false) (hu : isPlain u)
    (t : Chars) : closing? escapes q (u ++ t) = none ↔ closing? escapes q t = none := by
  induction u with
  | nil => rfl
  | cons c u ih =>
    obtain ⟨hc, -, hplain⟩ := isPlain_cons hu
    have hback : c ≠ '\\' := by
      rintro rfl
      cases hc
    have hne : c ≠ q := by
      rintro rfl
      rw [hc] at hq
      cases hq
    rw [cons_append, closing?_cons hback, if_neg hne, Option.map_eq_none_iff, ih hplain]

theorem closing?_step (hc : c ≠ '\\') {s' : Chars} (h : closing? escapes q (c :: s) = none)
    (hs : closing? escapes q s = none → closing? escapes q s' = none) :
    closing? escapes q (c :: s') = none := by
  rw [closing?_cons hc] at h ⊢
  split at h
  · cases h
  · rename_i hne
    rw [if_neg hne, Option.map_eq_none_iff]
    exact hs (Option.map_eq_none_iff.1 h)

/-- A string that is not closed in the old text is not closed in the new one. A
backslash takes the first character of what stands behind it, exchanged or not. -/
theorem closing?_newOf (hq : isQuiet q = false) (he : ∀ c, c ≠ '\n' → escapes c) :
    ∀ {ss : List Seg}, (∀ s ∈ ss, s.Tame) → closing? escapes q (oldOf ss) = none →
      closing? escapes q (newOf ss) = none
  | [], _, h => h
  | .swap w f :: ss, ht, h => by
    obtain ⟨hw, hplain, -⟩ := ht _ mem_cons_self
    have hold := (closing?_plain hq (isPlain_truthWord hw) (oldOf ss)).1 h
    exact (closing?_plain hq hplain _).2
      (closing?_newOf hq he (fun s hs => ht s (.tail _ hs)) hold)
  | [.char c], _, h => h
  | .char c :: .char d :: ss, ht, h => by
    by_cases hc : c = '\\'
    · subst hc
      refine closing?_escape.2 fun hd => ?_
      exact closing?_newOf hq he (fun s hs => ht s (.tail _ (.tail _ hs)))
        (closing?_escape.1 h hd)
    · exact closing?_step hc h (closing?_newOf hq he fun s hs => ht s (.tail _ hs))
  | .char c :: .swap w f :: ss, ht, h => by
    by_cases hc : c = '\\'
    · subst hc
      obtain ⟨hw, hplain, g, rfl⟩ := ht (.swap w f) (.tail _ mem_cons_self)
      have hrest : closing? escapes q (oldOf ss) = none := by
        rcases truthWord_cases hw with rfl | rfl
        · exact (closing?_plain hq (u := "rue".toList) (by decide) _).1
            (closing?_escape.1 h (he 't' (by decide)))
        · exact (closing?_plain hq (u := "alse".toList) (by decide) _).1
            (closing?_escape.1 h (he 'f' (by decide)))
      refine closing?_escape.2 fun _ => ?_
      exact (closing?_plain hq (isPlain_cons hplain).2.2 _).2
        (closing?_newOf hq he (fun s hs => ht s (.tail _ (.tail _ hs))) hrest)
    · exact closing?_step hc h (closing?_newOf hq he fun s hs => ht s (.tail _ hs))

end Closing

theorem scanner_quoted : Scanner afterQuoted? where
  again := by
    intro s r h
    match s with
    | [] => cases h
    | c :: s =>
      rw [afterQuoted?] at h
      split at h
      · rename_i hc
        obtain ⟨⟨p, r⟩, hp, rfl⟩ := Option.map_eq_some_iff.1 h
        have hback : c ≠ '\\' := by
          rintro rfl
          rcases hc with h | h <;> cases h
        refine ⟨c :: p, cons_ne_nil _ _, ?_, fun r' _ => ?_⟩
        · rw [← closing?_append hp]
          rfl
        · rw [cons_append, afterQuoted?, if_pos hc, (closing_of_closing? hp).2.closing? hback r']
          rfl
      · cases h
  stays_none := by
    intro c ss ht h
    rw [afterQuoted?] at h ⊢
    split
    · rename_i hc
      rw [if_pos hc, Option.map_eq_none_iff] at h
      rw [Option.map_eq_none_iff]
      have hq : isQuiet c = false := by
        rcases hc with rfl | rfl <;> decide
      exact closing?_newOf hq (fun d hd => by simpa using hd) ht h
    · rfl
  plain := by
    intro c u hu t
    have hc : ¬(c = '"' ∨ c = '\'') := by
      rintro (rfl | rfl) <;> cases (isPlain_cons hu).1
    rw [afterQuoted?, if_neg hc]

/-! ## All marks together -/

theorem length_marks {find? : Chars → Option Chars} :
    (marks find? s).length = s.length := by
  fun_induction marks find? s with
  | case1 => rfl
  | case2 c t r _ hr ih => simp [ih] at *; omega
  | case3 c t r _ _ ih => simp [ih]
  | case4 c t _ ih => simp [ih]

theorem not_mem_of_orMarks (hab : a.length = b.length) (h : true ∉ orMarks a b) :
    true ∉ a ∧ true ∉ b := by
  induction a generalizing b with
  | nil =>
    rw [length_eq_zero_iff.1 hab.symm]
    exact ⟨not_mem_nil, not_mem_nil⟩
  | cons x a ih =>
    cases b with
    | nil => cases hab
    | cons y b =>
      obtain ⟨hxy, h⟩ := not_or.1 (mem_cons.not.1 h)
      obtain ⟨ha, hb⟩ := ih (Nat.succ.inj hab) h
      cases x <;> cases y <;> simp_all

theorem Free.of_orMarks (hab : a.length = b.length)
    (h : Free (orMarks a b) ss) : Free a ss ∧ Free b ss := by
  induction ss generalizing a b with
  | nil => exact ⟨trivial, trivial⟩
  | cons s ss ih =>
    have hlen (n : Nat) : (a.take n).length = (b.take n).length := by
      rw [length_take, length_take, hab]
    have hmarks : ∀ w f, s = .swap w f → true ∉ a.take w.length ∧ true ∉ b.take w.length := by
      intro w f hs
      refine not_mem_of_orMarks (hlen _) ?_
      rw [orMarks, ← take_zipWith]
      exact h.1 w f hs
    have hrest := h.2
    rw [orMarks, drop_zipWith] at hrest
    obtain ⟨ha, hb⟩ := ih (by rw [length_drop, length_drop, hab]) hrest
    exact ⟨⟨fun w f hs => (hmarks w f hs).1, ha⟩, ⟨fun w f hs => (hmarks w f hs).2, hb⟩⟩

theorem carried_orMarks (hab : a.length = b.length) :
    carried (orMarks a b) ss = orMarks (carried a ss) (carried b ss) := by
  induction ss generalizing a b with
  | nil => rfl
  | cons s ss ih =>
    have hdrop (n : Nat) : (a.drop n).length = (b.drop n).length := by
      rw [length_drop, length_drop, hab]
    cases s with
    | char c =>
      have htake : (a.take 1).length = (b.take 1).length := by
        rw [length_take, length_take, hab]
      rw [carried, carried, carried, orMarks, orMarks, zipWith_append htake, take_zipWith,
        drop_zipWith]
      exact congrArg _ (ih (hdrop 1))
    | swap w f =>
      have hfalse : zipWith (· || ·) (replicate f.length false)
          (replicate f.length false) = replicate f.length false := by
        rw [zipWith_replicate, Nat.min_self]
        rfl
      rw [carried, carried, carried, orMarks, orMarks, zipWith_append rfl, hfalse,
        drop_zipWith]
      exact congrArg _ (ih (hdrop _))

/-- **What is shielded in the new text** is what was shielded in the old one. -/
theorem shielded_newOf (ht : ∀ s ∈ ss, s.Tame) (hf : Free (shielded (oldOf ss)) ss) :
    shielded (newOf ss) = carried (shielded (oldOf ss)) ss := by
  have hlen₁ : (marks (fun t => (block? t).map (·.2)) (oldOf ss)).length =
      (marks (fun t => (line? t).map (·.2)) (oldOf ss)).length := by
    rw [length_marks, length_marks]
  have hlen₂ : (orMarks (marks (fun t => (block? t).map (·.2)) (oldOf ss))
      (marks (fun t => (line? t).map (·.2)) (oldOf ss))).length =
      (marks afterQuoted? (oldOf ss)).length := by
    rw [orMarks, length_zipWith, hlen₁, Nat.min_self, length_marks, length_marks]
  obtain ⟨hcomments, hquoted⟩ := hf.of_orMarks hlen₂
  obtain ⟨hblock, hline⟩ := hcomments.of_orMarks hlen₁
  rw [shielded, marks_newOf scanner_block ht hblock, marks_newOf scanner_line ht hline,
    marks_newOf scanner_quoted ht hquoted, shielded, carried_orMarks hlen₂, carried_orMarks hlen₁]

end Obscura.Literal
