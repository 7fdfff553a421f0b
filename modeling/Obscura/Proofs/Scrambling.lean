import Mathlib.Data.List.TakeWhile
import Obscura.Layout.Scramble
import Obscura.Literal.Lexeme
import Obscura.Proofs.Characters
import Obscura.Proofs.Except

/-
  What scrambling does to string literals. The scramble keeps each literal while
  it treats the code around it, but the last step writes the whole text anew, the
  literals included. That step changes nothing but the runs of blanks: it is a
  `regap`, which reads a run with the characters on its two sides and writes
  another run. So it leaves a literal alone exactly if it leaves alone every run
  of blanks inside (`Options.Keeps`), and since no other runs are left in what it
  writes, a literal with another run is nowhere in the outcome.
-/

namespace Obscura.Layout

open Text List

variable {b c q r : Char} {before : Option Char} {g held m s t u v : Chars} {o : Options}
  {ts : List Chars} {next : Option Char → Chars → Option Char → Chars}

/-! ## Runs of blanks -/

/-- A run of blanks, which may be empty, between two characters that are none. -/
structure Gap where
  before : Char
  blanks : Chars
  behind : Char
deriving Repr, DecidableEq

variable {x : Gap}

/-- The gaps of a text behind a character, where the blanks `held` have been read
since that character. -/
def gapsFrom (before : Option Char) (held : Chars) : Chars → List Gap
  | [] => []
  | c :: s =>
    if isBlank c then gapsFrom before (held ++ [c]) s
    else (before.map fun b => ⟨b, held, c⟩).toList ++ gapsFrom (some c) [] s

/-- The runs of blanks between characters that are none. -/
def gaps (s : Chars) : List Gap :=
  gapsFrom none [] s

/-- Write every run of blanks anew, also those at the ends of the text. -/
def regap (write : Option Char → Chars → Option Char → Chars) (before : Option Char)
    (held : Chars) : Chars → Chars
  | [] => write before held none
  | c :: s =>
    if isBlank c then regap write before (held ++ [c]) s
    else write before held (some c) ++ c :: regap write (some c) [] s

/-- Only blanks are written for blanks. -/
def WritesBlanks (write : Option Char → Chars → Option Char → Chars) : Prop :=
  ∀ a g b, (∀ c ∈ g, isBlank c = true) → ∀ c ∈ write a g b, isBlank c = true

section

variable {write : Option Char → Chars → Option Char → Chars}

theorem WritesBlanks.comp (hwrite : WritesBlanks write) (hnext : WritesBlanks next) :
    WritesBlanks fun a g b => next a (write a g b) b :=
  fun a g b hg => hnext a _ b (hwrite a g b hg)

theorem isBlank_concat (hheld : ∀ c ∈ held, isBlank c) (hc : isBlank c) :
    ∀ d ∈ held ++ [c], isBlank d :=
  forall_mem_append.2 ⟨hheld, forall_mem_singleton.2 hc⟩

theorem gapsFrom_blanks (hg : ∀ c ∈ g, isBlank c) :
    gapsFrom before held (g ++ s) = gapsFrom before (held ++ g) s := by
  induction g generalizing held with
  | nil => simp
  | cons c g ih =>
    obtain ⟨hc, hg⟩ := forall_mem_cons.1 hg
    simp [gapsFrom, hc, ih hg]

theorem regap_blanks (hg : ∀ c ∈ g, isBlank c) :
    regap write before held (g ++ s) = regap write before (held ++ g) s := by
  induction g generalizing held with
  | nil => simp
  | cons c g ih =>
    obtain ⟨hc, hg⟩ := forall_mem_cons.1 hg
    simp [regap, hc, ih hg]

theorem gapsFrom_cons (hc : isBlank c = false) : gapsFrom before held (c :: s) =
    (before.map fun b => ⟨b, held, c⟩).toList ++ gapsFrom (some c) [] s := by
  rw [gapsFrom, if_neg (by simp [hc])]

theorem regap_cons (hc : isBlank c = false) : regap write before held (c :: s) =
    write before held (some c) ++ c :: regap write (some c) [] s := by
  rw [regap, if_neg (by simp [hc])]

theorem gapsFrom_append (hc : isBlank c = false) : gapsFrom before held (u ++ c :: v) =
    gapsFrom before held (u ++ [c]) ++ gapsFrom (some c) [] v := by
  induction u generalizing before held with
  | nil => simp [gapsFrom_cons hc, gapsFrom]
  | cons d u ih =>
    rw [cons_append, cons_append, gapsFrom, gapsFrom]
    split
    · exact ih
    · rw [ih, append_assoc]

/-- The gaps of a part of a text that starts and ends with no blank are gaps of
the text. -/
theorem mem_gaps_of_mem (hq : isBlank q = false) (hr : isBlank r = false)
    (hx : x ∈ gaps (q :: (m ++ [r]))) : x ∈ gaps (u ++ q :: (m ++ r :: v)) := by
  rw [gaps, gapsFrom_cons hq] at hx
  rw [gaps, gapsFrom_append hq, gapsFrom_append hr]
  exact mem_append_right _ (mem_append_left _ hx)

/-- What is written for the front of a text does not hang on what follows. -/
theorem exists_regap_append (before : Option Char) (held u : Chars) :
    ∃ w before' held', ∀ v,
      regap write before held (u ++ v) = w ++ regap write before' held' v := by
  induction u generalizing before held with
  | nil => exact ⟨[], before, held, fun v => rfl⟩
  | cons c u ih =>
    by_cases hc : isBlank c
    · obtain ⟨w, before', held', h⟩ := ih before (held ++ [c])
      refine ⟨w, before', held', fun v => ?_⟩
      rw [cons_append, regap, if_pos hc, h]
    · obtain ⟨w, before', held', h⟩ := ih (some c) []
      refine ⟨write before held (some c) ++ c :: w, before', held', fun v => ?_⟩
      rw [cons_append, regap, if_neg hc, h]
      simp

/-- A text stays as it is up to a character that is no blank, if its gaps are
written as they are. -/
theorem regap_append_of_fixed (hr : isBlank r = false)
    (h : ∀ x ∈ gapsFrom (some b) held (m ++ [r]),
      write (some x.before) x.blanks (some x.behind) = x.blanks) :
    regap write (some b) held (m ++ r :: v) = held ++ m ++ r :: regap write (some r) [] v := by
  induction m generalizing b held with
  | nil =>
    have hfixed := h ⟨b, held, r⟩ (by simp [gapsFrom_cons hr])
    rw [nil_append, regap_cons hr, hfixed, append_nil]
  | cons c m ih =>
    rw [cons_append] at h ⊢
    by_cases hc : isBlank c
    · rw [gapsFrom, if_pos hc] at h
      rw [regap, if_pos hc, ih h]
      simp
    · rw [Bool.not_eq_true] at hc
      rw [gapsFrom_cons hc] at h
      have hfixed := h ⟨b, held, c⟩ (by simp)
      rw [regap_cons hc, hfixed, ih fun x hx => h x (mem_append_right _ hx)]
      simp

theorem gapsFrom_regap (hwrite : WritesBlanks write) (hheld : ∀ c ∈ held, isBlank c) :
    gapsFrom before [] (regap write before held s) =
      (gapsFrom before held s).map fun x =>
        ⟨x.before, write (some x.before) x.blanks (some x.behind), x.behind⟩ := by
  induction s generalizing before held with
  | nil =>
    have : gapsFrom before [] (write before held none ++ []) = gapsFrom before _ [] :=
      gapsFrom_blanks (hwrite before held none hheld)
    rw [append_nil] at this
    rw [regap, this]
    rfl
  | cons c s ih =>
    by_cases hc : isBlank c
    · rw [regap, if_pos hc, gapsFrom, if_pos hc, ih (isBlank_concat hheld hc)]
    · rw [Bool.not_eq_true] at hc
      rw [regap_cons hc, gapsFrom_cons hc, gapsFrom_blanks (hwrite _ _ _ hheld),
        gapsFrom_cons hc, ih (by simp)]
      cases before <;> simp

theorem mem_gapsFrom_blanks (hheld : ∀ c ∈ held, isBlank c) (hx : x ∈ gapsFrom before held s) :
    ∀ c ∈ x.blanks, isBlank c := by
  induction s generalizing before held with
  | nil => simp [gapsFrom] at hx
  | cons c s ih =>
    by_cases hc : isBlank c
    · rw [gapsFrom, if_pos hc] at hx
      exact ih (isBlank_concat hheld hc) hx
    · rw [Bool.not_eq_true] at hc
      rw [gapsFrom_cons hc, mem_append] at hx
      rcases hx with hx | hx
      · cases before with
        | none => simp at hx
        | some b =>
          rw [mem_singleton.1 hx]
          exact hheld
      · exact ih (by simp) hx

theorem regap_regap (hwrite : WritesBlanks write) (hheld : ∀ c ∈ held, isBlank c) :
    regap next before [] (regap write before held s) =
      regap (fun a g b => next a (write a g b) b) before held s := by
  induction s generalizing before held with
  | nil =>
    have : regap next before [] (write before held none ++ []) =
        regap next before (write before held none) [] :=
      regap_blanks (hwrite before held none hheld)
    rw [append_nil] at this
    rw [regap, this]
    rfl
  | cons c s ih =>
    by_cases hc : isBlank c
    · rw [regap, if_pos hc, regap, if_pos hc]
      exact ih (isBlank_concat hheld hc)
    · rw [Bool.not_eq_true] at hc
      rw [regap_cons hc, regap_cons hc, regap_blanks (hwrite _ _ _ hheld), regap_cons hc,
        ih (by simp), nil_append]

theorem regap_congr (h : ∀ b g e, write (some b) g e = next (some b) g e) :
    regap write (some b) held s = regap next (some b) held s := by
  induction s generalizing b held with
  | nil => exact h ..
  | cons c s ih =>
    rw [regap, regap]
    split
    · exact ih
    · rw [h, ih]

theorem trimLeft_regap (hwrite : WritesBlanks write) (hheld : ∀ c ∈ held, isBlank c) :
    trimLeft (regap write none held s) =
      regap (fun a g b => if a = none then [] else write a g b) none held s := by
  induction s generalizing held with
  | nil => exact dropWhile_eq_nil_iff.2 (hwrite none held none hheld)
  | cons c s ih =>
    by_cases hc : isBlank c
    · rw [regap, if_pos hc, regap, if_pos hc]
      exact ih (isBlank_concat hheld hc)
    · rw [Bool.not_eq_true] at hc
      rw [regap_cons hc, regap_cons hc, trimLeft, dropWhile_run (hwrite _ _ _ hheld) (by simp [hc]),
        if_pos rfl, nil_append]
      exact congrArg (c :: ·) (regap_congr fun b g e => (if_neg (by simp)).symm)

theorem trimRight_regap (hwrite : WritesBlanks write) (hheld : ∀ c ∈ held, isBlank c) :
    trimRight (regap write before held s) =
      regap (fun a g b => if b = none then [] else write a g b) before held s := by
  induction s generalizing before held with
  | nil =>
    have : (write before held none).reverse.dropWhile isBlank = [] :=
      dropWhile_eq_nil_iff.2 fun c hc =>
        hwrite before held none hheld c (mem_reverse.1 hc)
    rw [regap, trimRight, this]
    rfl
  | cons c s ih =>
    by_cases hc : isBlank c
    · rw [regap, if_pos hc, regap, if_pos hc]
      exact ih (isBlank_concat hheld hc)
    · rw [Bool.not_eq_true] at hc
      have hlast : ∀ d, (write before held (some c) ++ [c]).getLast? = some d → isBlank d = false := by
        simp [hc]
      have htrim := trimRight_append (b := regap write (some c) [] s) hlast
      rw [append_assoc, singleton_append, append_assoc, singleton_append] at htrim
      rw [regap_cons hc, regap_cons hc, htrim, ih (by simp), if_neg (by simp)]

end

/-! ## The last step -/

/-- One space for any blanks. -/
def singleGap (_ : Option Char) (g : Chars) (_ : Option Char) : Chars :=
  if g = [] then [] else [' ']

/-- A line feed, if the run is at a break. -/
def breakGap (here : Option Char → Option Char → Bool) (a : Option Char) (g : Chars)
    (b : Option Char) : Chars :=
  if here a b then ['\n'] else g

def afterGap (mark : Char) : Option Char → Chars → Option Char → Chars :=
  breakGap fun a _ => a == some mark

def beforeGap (mark : Char) : Option Char → Chars → Option Char → Chars :=
  breakGap fun _ b => b == some mark

theorem collapseBlanks_eq : regap singleGap before held s =
    (if held = [] then [] else [' ']) ++ collapseBlanks (!held.isEmpty) s := by
  induction s generalizing before held with
  | nil => simp [regap, singleGap, collapseBlanks]
  | cons c s ih =>
    by_cases hc : isBlank c
    · rw [regap, if_pos hc, ih]
      cases held <;> simp [collapseBlanks, hc]
    · rw [Bool.not_eq_true] at hc
      rw [regap_cons hc, ih]
      simp [singleGap, collapseBlanks, hc]

theorem breakAfter_eq {mark : Char} (hmark : isBlank mark = false) :
    regap (afterGap mark) before held s =
      if before = some mark then '\n' :: breakAfter mark true s
      else held ++ breakAfter mark false s := by
  induction s generalizing before held with
  | nil => simp [regap, afterGap, breakGap, breakAfter]
  | cons c s ih =>
    by_cases hc : isBlank c
    · have hne : c ≠ mark := fun h => by rw [h, hmark] at hc; simp at hc
      rw [regap, if_pos hc, ih]
      simp [breakAfter, hc, hne]
    · rw [Bool.not_eq_true] at hc
      rw [regap_cons hc, ih, afterGap, breakGap]
      by_cases hb : before = some mark <;> by_cases hm : c = mark <;>
        simp [breakAfter, hb, hc, hm, hmark]

theorem breakBefore_eq (mark : Char) :
    regap (beforeGap mark) before held s = breakBefore mark held.reverse s := by
  induction s generalizing before held with
  | nil => simp [regap, beforeGap, breakGap, breakBefore]
  | cons c s ih =>
    by_cases hc : isBlank c
    · rw [regap, if_pos hc, ih, breakBefore, if_pos hc]
      simp
    · rw [regap, if_neg hc, ih, breakBefore, if_neg hc, beforeGap, breakGap]
      by_cases hm : c = mark <;> simp [hm]

theorem joinBlankLines_append (hg : ∀ c ∈ g, isBlank c) (hc : isBlank c = false) :
    joinBlankLines (g ++ c :: s) = joinBlankLines g ++ c :: joinBlankLines s := by
  have hnl : c ≠ '\n' := fun h => by rw [h] at hc; revert hc; decide
  have hjoin : joinBlankLines (c :: s) = c :: joinBlankLines s := by
    rw [joinBlankLines, if_neg hnl]
  induction g with
  | nil => simpa [joinBlankLines] using hjoin
  | cons d g ih =>
    obtain ⟨hd, hg⟩ := forall_mem_cons.1 hg
    have hhead : ∀ e, (c :: s).head? = some e → isBlank e = false := by simp [hc]
    have htake : g.takeWhile isBlank = g := takeWhile_eq_self_iff.2 hg
    have hdrop : g.dropWhile isBlank = [] := dropWhile_eq_nil_iff.2 hg
    rw [cons_append, joinBlankLines, joinBlankLines, takeWhile_run hg hhead,
      dropWhile_run hg hhead, htake, hdrop]
    by_cases hd : d = '\n'
    · rw [if_pos hd, if_pos hd]
      cases afterLastNewline? g with
      | none => simp [ih hg]
      | some r => simp [hjoin, joinBlankLines]
    · rw [if_neg hd, if_neg hd, ih hg, cons_append]

theorem joinBlankLines_eq (hheld : ∀ c ∈ held, isBlank c) :
    regap (fun _ g _ => joinBlankLines g) before held s = joinBlankLines (held ++ s) := by
  induction s generalizing before held with
  | nil => simp [regap]
  | cons c s ih =>
    by_cases hc : isBlank c
    · rw [regap, if_pos hc, ih (isBlank_concat hheld hc)]
      simp
    · rw [Bool.not_eq_true] at hc
      rw [regap_cons hc, ih (by simp), joinBlankLines_append hheld hc, nil_append]

theorem joinBlankLines_of_not_mem (hg : '\n' ∉ g) : joinBlankLines g = g := by
  induction g with
  | nil => simp [joinBlankLines]
  | cons c g ih =>
    rw [mem_cons, not_or] at hg
    rw [joinBlankLines, if_neg (Ne.symm hg.1), ih hg.2]

theorem joinBlankLines_of_count (hg : g.count '\n' ≤ 1) : joinBlankLines g = g := by
  induction g with
  | nil => simp [joinBlankLines]
  | cons c g ih =>
    by_cases hn : c = '\n'
    · rw [hn, count_cons_self] at hg
      have hnot : '\n' ∉ g := count_eq_zero.1 (by omega)
      have hrun : '\n' ∉ g.takeWhile isBlank := fun h => hnot (takeWhile_subset _ h)
      rw [joinBlankLines, if_pos hn, hn]
      simp [afterLastNewline?, hrun, joinBlankLines_of_not_mem hnot]
    · rw [count_cons_of_ne hn] at hg
      rw [joinBlankLines, if_neg hn, ih hg]

theorem joinBlankLines_newline (hg : ∀ c ∈ g, isBlank c) :
    joinBlankLines ('\n' :: g) = '\n' :: (g.reverse.takeWhile (· != '\n')).reverse := by
  by_cases hn : '\n' ∈ g
  · have htake : g.takeWhile isBlank = g := takeWhile_eq_self_iff.2 hg
    have hdrop : g.dropWhile isBlank = [] := dropWhile_eq_nil_iff.2 hg
    rw [joinBlankLines, if_pos rfl, htake, hdrop, afterLastNewline?]
    simp [hn, joinBlankLines]
  · have htake : g.reverse.takeWhile (· != '\n') = g.reverse :=
      takeWhile_eq_self_iff.2 fun c hc =>
        bne_iff_ne.2 fun h => hn (h ▸ mem_reverse.1 hc)
    rw [htake, reverse_reverse]
    exact joinBlankLines_of_count (by simp [count_eq_zero.2 hn])

/-- Of the line feeds in a run of blanks one is left, and no other blank is new. -/
theorem joinBlankLines_blanks (hg : ∀ c ∈ g, isBlank c) :
    (joinBlankLines g).count '\n' ≤ 1 ∧ ∀ c ∈ joinBlankLines g, c ∈ g := by
  induction g with
  | nil => simp [joinBlankLines]
  | cons c g ih =>
    obtain ⟨-, hg⟩ := forall_mem_cons.1 hg
    by_cases hn : c = '\n'
    · rw [hn, joinBlankLines_newline hg]
      constructor
      · have : '\n' ∉ (g.reverse.takeWhile (· != '\n')).reverse := fun h => by
          simpa using mem_takeWhile_imp (mem_reverse.1 h)
        rw [count_cons_self, count_eq_zero.2 this]
      · intro d hd
        rcases mem_cons.1 hd with rfl | hd
        · exact mem_cons_self
        · have := takeWhile_subset _ (mem_reverse.1 hd)
          exact mem_cons_of_mem _ (mem_reverse.1 this)
    · rw [joinBlankLines, if_neg hn, count_cons_of_ne hn]
      exact ⟨(ih hg).1, fun d hd => by
        rcases mem_cons.1 hd with rfl | hd
        · exact mem_cons_self
        · exact mem_cons_of_mem _ ((ih hg).2 d hd)⟩

theorem writesBlanks_singleGap : WritesBlanks singleGap := by
  intro a g b hg c hc
  unfold singleGap at hc
  split at hc
  · simp at hc
  · rw [mem_singleton.1 hc]
    decide

theorem writesBlanks_breakGap (here : Option Char → Option Char → Bool) :
    WritesBlanks (breakGap here) := by
  intro a g b hg c hc
  unfold breakGap at hc
  split at hc
  · rw [mem_singleton.1 hc]
    decide
  · exact hg c hc

theorem writesBlanks_breaks :
    WritesBlanks fun a g b =>
      beforeGap '\x7d' a (afterGap '\x7b' a (afterGap ';' a g b) b) b :=
  ((writesBlanks_breakGap _).comp (writesBlanks_breakGap _)).comp (writesBlanks_breakGap _)

/-- What the last step writes for a run of blanks. -/
def Options.write (o : Options) (a : Option Char) (g : Chars) (b : Option Char) : Chars :=
  if o.oneLine then
    if b = none then [] else if a = none then [] else singleGap a g b
  else joinBlankLines (beforeGap '\x7d' a (afterGap '\x7b' a (afterGap ';' a g b) b) b)

theorem onOneLine_eq :
    onOneLine s =
      regap (fun a g b => if b = none then [] else if a = none then [] else singleGap a g b)
        none [] s := by
  have hleft : WritesBlanks fun a g b => if a = none then [] else singleGap a g b := by
    intro a g b hg c hc
    dsimp only at hc
    split at hc
    · simp at hc
    · exact writesBlanks_singleGap a g b hg c hc
  have h : regap singleGap none [] s = _ := collapseBlanks_eq
  rw [if_pos rfl, nil_append] at h
  have hnil : ∀ c ∈ ([] : Chars), isBlank c := by simp
  rw [onOneLine, trim, ← trimRight_regap hleft hnil, ← trimLeft_regap writesBlanks_singleGap hnil, h]
  rfl

theorem onManyLines_eq :
    onManyLines s =
      regap (fun a g b =>
        joinBlankLines (beforeGap '\x7d' a (afterGap '\x7b' a (afterGap ';' a g b) b) b))
        none [] s := by
  have hnil : ∀ c ∈ ([] : Chars), isBlank c := by simp
  have hafter : ∀ (mark : Char), isBlank mark = false → ∀ t,
      breakAfter mark false t = regap (afterGap mark) none [] t := by
    intro mark hmark t
    rw [breakAfter_eq hmark, if_neg (by simp), nil_append]
  have hbefore : ∀ t, breakBefore '\x7d' [] t = regap (beforeGap '\x7d') none [] t :=
    fun t => Eq.symm (breakBefore_eq '\x7d')
  have hjoin : ∀ t, joinBlankLines t = regap (fun _ g _ => joinBlankLines g) none [] t :=
    fun t => (joinBlankLines_eq hnil).symm
  have hone : WritesBlanks (afterGap ';') := writesBlanks_breakGap _
  have htwo : WritesBlanks (afterGap '\x7b') := writesBlanks_breakGap _
  rw [onManyLines, hafter ';' (by decide), hafter '\x7b' (by decide), hbefore, hjoin,
    regap_regap hone hnil, regap_regap (hone.comp htwo) hnil, regap_regap writesBlanks_breaks hnil]

/-- The last step writes the runs of blanks anew and nothing else. -/
theorem lastStep_eq :
    (if o.oneLine then onOneLine s else onManyLines s) = regap o.write none [] s := by
  have hwrite : o.write = if o.oneLine then
      fun a g b => if b = none then [] else if a = none then [] else singleGap a g b
      else fun a g b =>
        joinBlankLines (beforeGap '\x7d' a (afterGap '\x7b' a (afterGap ';' a g b) b) b) := by
    funext a g b
    unfold Options.write
    split <;> rfl
  rw [hwrite]
  split
  · exact onOneLine_eq
  · exact onManyLines_eq

theorem writesBlanks_write : WritesBlanks o.write := by
  intro a g b hg c hc
  unfold Options.write at hc
  split at hc
  · split at hc
    · simp at hc
    split at hc
    · simp at hc
    · exact writesBlanks_singleGap a g b hg c hc
  · have hbreaks := writesBlanks_breaks a g b hg
    exact hbreaks c ((joinBlankLines_blanks hbreaks).2 c hc)

/-! ## Gaps that are kept -/

/-- The last step keeps a gap of this form: on one line nothing or a single space,
on many lines a line feed at semicolons and braces, and elsewhere no blank line. -/
def Options.Keeps (o : Options) (x : Gap) : Prop :=
  if o.oneLine then x.blanks = [] ∨ x.blanks = [' ']
  else if x.before = ';' ∨ x.before = '\x7b' ∨ x.behind = '\x7d' then x.blanks = ['\n']
  else x.blanks.count '\n' ≤ 1

instance (o : Options) (x : Gap) : Decidable (o.Keeps x) :=
  inferInstanceAs (Decidable (if o.oneLine then x.blanks = [] ∨ x.blanks = [' ']
    else if x.before = ';' ∨ x.before = '\x7b' ∨ x.behind = '\x7d' then x.blanks = ['\n']
    else x.blanks.count '\n' ≤ 1))

theorem write_eq :
    o.write (some x.before) x.blanks (some x.behind) =
      if o.oneLine then if x.blanks = [] then [] else [' ']
      else if x.before = ';' ∨ x.before = '\x7b' ∨ x.behind = '\x7d' then ['\n']
      else joinBlankLines x.blanks := by
  have hnewline : joinBlankLines ['\n'] = ['\n'] := joinBlankLines_of_count (by decide)
  unfold Options.write
  split
  · simp [singleGap]
  · by_cases h1 : x.before = ';' <;> by_cases h2 : x.before = '\x7b' <;>
      by_cases h3 : x.behind = '\x7d' <;> simp [beforeGap, afterGap, breakGap, h1, h2, h3, hnewline]

theorem write_of_keeps (hx : o.Keeps x) :
    o.write (some x.before) x.blanks (some x.behind) = x.blanks := by
  rw [write_eq]
  by_cases hline : o.oneLine
  · rw [Options.Keeps, if_pos hline] at hx
    rw [if_pos hline]
    rcases hx with h | h <;> simp [h]
  · rw [Options.Keeps, if_neg hline] at hx
    rw [if_neg hline]
    split
    · rename_i hmark
      rw [if_pos hmark] at hx
      exact hx.symm
    · rename_i hmark
      rw [if_neg hmark] at hx
      exact joinBlankLines_of_count hx

theorem keeps_write (hx : ∀ c ∈ x.blanks, isBlank c) :
    o.Keeps ⟨x.before, o.write (some x.before) x.blanks (some x.behind), x.behind⟩ := by
  rw [write_eq]
  unfold Options.Keeps
  dsimp only
  split
  · split <;> simp
  split
  · rfl
  · exact (joinBlankLines_blanks hx).1

theorem keeps_of_mem_gaps (o : Options) (s : Chars) :
    ∀ x ∈ gaps (regap o.write none [] s), o.Keeps x := by
  intro x hx
  have hnil : ∀ c ∈ ([] : Chars), isBlank c := by simp
  rw [gaps, gapsFrom_regap writesBlanks_write hnil] at hx
  obtain ⟨y, hy, rfl⟩ := mem_map.1 hx
  exact keeps_write (mem_gapsFrom_blanks hnil hy)

/-! ## Literals -/

def Segment.isClosed : Segment → Bool
  | .quoted (q :: t) => Literal.closing? (fun _ => true) q t == some (t, [])
  | _ => false

def closedTexts (segs : List Segment) : List Chars :=
  (segs.filter Segment.isClosed).map Segment.text

/-- The closed string literals of a text, in order. -/
def literals (s : Chars) : List Chars :=
  closedTexts (segments s)

/-- Texts stand in a text, one behind the other. -/
def OccurInOrder : List Chars → Chars → Prop
  | [], _ => True
  | t :: ts, s => ∃ u v, s = u ++ t ++ v ∧ OccurInOrder ts v

theorem OccurInOrder.append (h : OccurInOrder ts s) (u : Chars) : OccurInOrder ts (u ++ s) := by
  cases ts with
  | nil => trivial
  | cons t ts =>
    obtain ⟨a, b, rfl, hb⟩ := h
    exact ⟨u ++ a, b, by simp, hb⟩

theorem OccurInOrder.exists_append (h : OccurInOrder ts s) (ht : t ∈ ts) : ∃ u v, s = u ++ t ++ v := by
  induction ts generalizing s with
  | nil => simp at ht
  | cons a ts ih =>
    obtain ⟨u, v, rfl, hv⟩ := h
    rcases mem_cons.1 ht with rfl | ht
    · exact ⟨u, v, rfl⟩
    · obtain ⟨u', v', rfl⟩ := ih hv ht
      exact ⟨u ++ a ++ u', v', by simp⟩

theorem isBlank_of_isQuote (h : isQuote q) : isBlank q = false := by
  simp only [isQuote, Bool.or_eq_true, beq_iff_eq] at h
  rcases h with rfl | rfl <;> decide

theorem isQuote_of_mem_segments (h : .quoted t ∈ segments s) : ∃ q u, t = q :: u ∧ isQuote q := by
  fun_induction segments s with
  | case1 => simp at h
  | case2 c r hc ih =>
    rcases mem_cons.1 h with h | h
    · rw [Segment.quoted.injEq] at h
      exact ⟨c, _, h, hc⟩
    · exact ih h
  | case3 c r hc ih =>
    rcases mem_cons.1 h with h | h
    · simp at h
    · exact ih h

theorem exists_of_mem_literals (h : t ∈ literals s) :
    ∃ q m, t = q :: (m ++ [q]) ∧ isBlank q = false := by
  obtain ⟨x, hx, rfl⟩ := mem_map.1 h
  obtain ⟨hx, hclosed⟩ := mem_filter.1 hx
  cases x with
  | code t => simp [Segment.isClosed] at hclosed
  | quoted t =>
    obtain ⟨q, u, rfl, hq⟩ := isQuote_of_mem_segments hx
    obtain ⟨m, rfl⟩ := Literal.exists_of_closing? (beq_iff_eq.1 hclosed)
    exact ⟨q, m, rfl, isBlank_of_isQuote hq⟩

theorem regap_literal (hq : isBlank q = false) (h : ∀ x ∈ gaps (q :: (m ++ [q])), o.Keeps x) :
    regap o.write before held (q :: (m ++ [q]) ++ v) =
      o.write before held (some q) ++ q :: (m ++ [q]) ++ regap o.write (some q) [] v := by
  rw [gaps, gapsFrom_cons hq] at h
  have hfixed := regap_append_of_fixed (v := v) hq fun x hx =>
    write_of_keeps (h x (mem_append_right _ hx))
  rw [cons_append, append_assoc, singleton_append, regap_cons hq, hfixed]
  simp

theorem occurInOrder_regap {segs : List Segment} {parts : List Chars}
    (hparts : segs.mapM (scrambleSegment o) = .ok parts)
    (hshape : ∀ t ∈ closedTexts segs, ∃ q m, t = q :: (m ++ [q]) ∧ isBlank q = false)
    (hkeeps : ∀ t ∈ closedTexts segs, ∀ x ∈ gaps t, o.Keeps x)
    (before : Option Char) (held : Chars) :
    OccurInOrder (closedTexts segs) (regap o.write before held parts.flatten) := by
  have hsteps := forall₂_of_mapM hparts
  clear hparts
  induction hsteps generalizing before held with
  | nil => trivial
  | @cons x part segs parts hx _ ih =>
    rw [flatten_cons]
    by_cases hclosed : x.isClosed
    · have htexts : closedTexts (x :: segs) = x.text :: closedTexts segs := by
        simp [closedTexts, hclosed]
      rw [htexts] at hshape hkeeps ⊢
      have hpart : part = x.text := by
        cases x with
        | code t => simp [Segment.isClosed] at hclosed
        | quoted t => exact (Except.ok.inj hx).symm
      obtain ⟨q, m, hm, hq⟩ := hshape _ mem_cons_self
      have hthis := hkeeps _ mem_cons_self
      rw [hm] at hthis
      rw [hpart, hm, regap_literal hq hthis]
      exact ⟨_, _, rfl, ih (fun t ht => hshape t (.tail _ ht)) (fun t ht => hkeeps t (.tail _ ht))
        _ _⟩
    · have htexts : closedTexts (x :: segs) = closedTexts segs := by
        simp [closedTexts, hclosed]
      rw [htexts] at hshape hkeeps ⊢
      obtain ⟨w, before', held', h⟩ := exists_regap_append before held part
      rw [h]
      exact (ih hshape hkeeps before' held').append w

theorem scrambleCode_of_error {e : TemplateError}
    (h : directiveTemplate o.version = .error e) : scrambleCode o t = .error e := by
  rw [scrambleCode, setVersion, h]
  rfl

theorem scrambleSegment_cases (o : Options) (x : Segment) :
    (∃ t, scrambleSegment o x = .ok t) ∨
      ∃ e t, directiveTemplate o.version = .error e ∧ x = .code t ∧
        scrambleSegment o x = .error e := by
  cases x with
  | quoted t => exact .inl ⟨t, rfl⟩
  | code t =>
    cases h : directiveTemplate o.version with
    | ok r => exact .inl ⟨_, by simp only [scrambleSegment, scrambleCode, setVersion, h]; rfl⟩
    | error e => exact .inr ⟨e, t, rfl, rfl, scrambleCode_of_error h⟩

/-- Every part of a text can be scrambled, unless the version is no template and
the text has code. -/
theorem mapM_scrambleSegment_cases (o : Options) (s : Chars) :
    (∃ e t, directiveTemplate o.version = .error e ∧ .code t ∈ segments s ∧
      (segments s).mapM (scrambleSegment o) = .error e) ∨
      ((∃ r, directiveTemplate o.version = .ok r) ∨ ∀ t, .code t ∉ segments s) ∧
        ∃ parts, (segments s).mapM (scrambleSegment o) = .ok parts := by
  by_cases hfail : ∃ x ∈ segments s, ∃ e, scrambleSegment o x = .error e
  · obtain ⟨x, hx, e, hxe⟩ := hfail
    rcases scrambleSegment_cases o x with ⟨t, ht⟩ | ⟨e, t, he, rfl, hxe⟩
    · rw [ht] at hxe
      cases hxe
    · refine .inl ⟨e, t, he, hx, mapM_error hx hxe fun y _ => ?_⟩
      rcases scrambleSegment_cases o y with hy | ⟨e', u, he', -, hye⟩
      · exact .inl hy
      · rw [he, Except.error.injEq] at he'
        exact .inr (he' ▸ hye)
  · have hall : ∀ x ∈ segments s, ∃ t, scrambleSegment o x = .ok t ∧ True := by
      intro x hx
      rcases scrambleSegment_cases o x with ⟨t, ht⟩ | ⟨e, t, -, -, hxe⟩
      · exact ⟨t, ht, trivial⟩
      · exact absurd ⟨x, hx, e, hxe⟩ hfail
    obtain ⟨parts, hparts, -⟩ := exists_mapM (R := fun _ _ => True) hall
    refine .inr ⟨?_, parts, hparts⟩
    cases hd : directiveTemplate o.version with
    | ok r => exact .inl ⟨r, rfl⟩
    | error e =>
      exact .inr fun t ht => hfail ⟨_, ht, e, scrambleCode_of_error hd⟩

/-- Scrambling fails only if the version is no template and the text has code.
Otherwise the closed literals of the text stand in the outcome, in their order,
exactly if the last step keeps the gaps of each. -/
theorem scramble_keeps_literals_exactly (o : Options) (s : Chars) :
    (∃ e t, directiveTemplate o.version = .error e ∧ .code t ∈ segments s ∧
      scramble o s = .error e) ∨
      ((∃ r, directiveTemplate o.version = .ok r) ∨ ∀ t, .code t ∉ segments s) ∧
        ∃ out, scramble o s = .ok out ∧
          (OccurInOrder (literals s) out ↔ ∀ t ∈ literals s, ∀ x ∈ gaps t, o.Keeps x) := by
  rcases mapM_scrambleSegment_cases o s with ⟨e, t, he, ht, hparts⟩ | ⟨hversion, parts, hparts⟩
  · exact .inl ⟨e, t, he, ht, by rw [scramble, hparts]; rfl⟩
  · refine .inr ⟨hversion, regap o.write none [] parts.flatten, ?_, ?_, ?_⟩
    · rw [scramble, hparts, ← lastStep_eq]
      rfl
    · intro hocc t ht
      obtain ⟨u, v, hout⟩ := hocc.exists_append ht
      obtain ⟨q, m, rfl, hq⟩ := exists_of_mem_literals ht
      intro x hx
      refine keeps_of_mem_gaps o parts.flatten x ?_
      rw [hout, List.append_assoc, List.cons_append, List.append_assoc, List.singleton_append]
      exact mem_gaps_of_mem hq hq hx
    · intro hkeeps
      exact occurInOrder_regap hparts (fun t ht => exists_of_mem_literals ht) hkeeps none []

/-- Two spaces in a literal become one. -/
theorem double_space_in_literal_lost :
    literals "string s = \"a  b\";".toList = ["\"a  b\"".toList] ∧
      scramble {} "string s = \"a  b\";".toList = .ok "string s =\"a b\";".toList ∧
      ¬ "\"a  b\"".toList <:+: "string s =\"a b\";".toList := by
  decide +kernel

end Obscura.Layout
