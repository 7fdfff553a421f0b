import Obscura.Proofs.Quotes
import Obscura.Proofs.Reading

/-
  The bodies of the contracts and libraries of a source, and the accessors that each
  of them declares. A body opens with the first brace behind the word `contract` or
  `library` outside of all braces, and declares the functions whose names stand behind
  the word `function` directly in it.
-/

namespace Obscura.Literal

open Text Layout List

variable {t : Chars}

/-- The functions that build tables and those that look constants up. -/
def accessorNames : List Chars :=
  ["__const_ints", "__get_int", "__const_bools", "__get_bool"].map String.toList

/-- What has been read of the structure of a source. -/
structure Outline where
  /-- The word being read. -/
  word : Chars := []
  /-- The word `function` stands before. -/
  awaits : Bool := false
  /-- A contract or library has been announced. -/
  heads : Bool := false
  /-- The number of open braces. -/
  depth : Nat := 0
  /-- The accessors that the bodies read so far declare. -/
  closed : List (List Chars) := []
  /-- The accessors of the body that is open. -/
  current : Option (List Chars) := none
deriving Repr, DecidableEq

variable {y : Mode × Outline} {c : Char}

namespace Outline

/-- The end of a word. -/
def settle (x : Outline) : Outline :=
  if x.word = [] then x
  else if x.word = "function".toList then { x with word := [], awaits := true }
  else if (x.word = "contract".toList ∨ x.word = "library".toList) ∧ x.depth = 0 then
    { x with word := [], awaits := false, heads := true }
  else if x.awaits ∧ x.depth = 1 ∧ x.word ∈ accessorNames then
    { x with word := [], awaits := false, current := x.current.map (· ++ [x.word]) }
  else { x with word := [], awaits := false }

/-- A mark of code behind a word. -/
def mark (x : Outline) (c : Char) : Outline :=
  if c = '\x7b' then
    { x with
      awaits := false, heads := false, depth := x.depth + 1
      current := if x.depth = 0 then (if x.heads then some [] else none) else x.current }
  else if c = '\x7d' then
    if x.depth ≤ 1 then
      { x with
        awaits := false, heads := false, depth := 0
        closed := x.closed ++ x.current.toList, current := none }
    else { x with awaits := false, heads := false, depth := x.depth - 1 }
  else if c = ';' then { x with awaits := false, heads := false }
  else { x with awaits := false }

/-- A character of a literal. -/
def hush (x : Outline) : Outline :=
  { x.settle with awaits := false }

/-- The accessors of the bodies, closed and open. -/
def bodies (x : Outline) : List (List Chars) :=
  x.closed ++ x.current.toList

/-- The reading of the structure of a source. -/
def reader : Reader Outline where
  start := {}
  letter x c := { x with word := x.word ++ [c] }
  blank := settle
  mark x c := x.settle.mark c
  quoted x _ := x.hush

end Outline

/-- The accessors that each contract and library of a source declares, in order. -/
def accessorsOf (s : Chars) : List (List Chars) :=
  (Outline.reader.read s).2.bodies

/-- The contract or library in whose body a place of a source lies. -/
def bodyAt (s : Chars) (p : Nat) : Option Nat :=
  (Outline.reader.read (s.take p)).2.current.map fun _ => (Outline.reader.read (s.take p)).2.closed.length

/-- The contract or library whose body opens right before the place where accessors are put. -/
def openedBody? (s : Chars) : Option Nat := do
  let p ← contractBody? s
  let y := Outline.reader.read (s.take p)
  if y.1 = .code ∧ y.2.depth = 1 then bodyAt s p else none

/-- In code at the place, the word before it was `function` and the name is to come. -/
def AwaitsName (s : Chars) (p : Nat) : Prop :=
  (Outline.reader.read (s.take p)).1 = .code ∧ (Outline.reader.read (s.take p)).2.word = [] ∧
    (Outline.reader.read (s.take p)).2.awaits = true

instance (s : Chars) (p : Nat) : Decidable (AwaitsName s p) :=
  inferInstanceAs (Decidable (_ ∧ _ ∧ _))

namespace Outline

theorem settle_of_nil {x : Outline} (h : x.word = []) : x.settle = x := by
  rw [settle, if_pos h]

theorem word_settle (x : Outline) : x.settle.word = [] := by
  unfold settle
  split
  · assumption
  split
  · rfl
  split
  · rfl
  split
  · rfl
  · rfl

theorem word_mark (x : Outline) : (x.mark c).word = x.word := by
  unfold mark
  split
  · rfl
  split
  · split
    · rfl
    · rfl
  split
  · rfl
  · rfl

theorem settle_settle (x : Outline) : x.settle.settle = x.settle := settle_of_nil x.word_settle

theorem blank_reader (x : Outline) : reader.blank x = x.settle := rfl

theorem mark_reader (x : Outline) : reader.mark x c = x.settle.mark c := rfl

theorem quoted_reader (x : Outline) : reader.quoted x c = x.hush := rfl

theorem hush_hush (x : Outline) : x.hush.hush = x.hush := by
  have hword : x.hush.settle = x.hush := settle_of_nil x.word_settle
  rw [hush, hword]
  rfl

theorem lumps_reader : reader.Lumps where
  blank := settle_settle
  quoted x _ _ := x.hush_hush

/-! ## Words end with the last character -/

/-- A word is being read in code only, and its last character is the last one read. -/
def Fresh (t : Chars) (y : Mode × Outline) : Prop :=
  y.2.word = [] ∨ y.1 = .code ∧ ∃ w c, y.2.word = w ++ [c] ∧ isNameChar c = true ∧ t.getLast? = some c

theorem Fresh.step (h : Fresh t y) (c : Char) : Fresh (t ++ [c]) (reader.step y c) := by
  obtain ⟨m, x⟩ := y
  cases hrole : (m.next c).2 with
  | letter =>
    obtain ⟨hcode, hname⟩ := Mode.next_of_letter hrole
    refine .inr ⟨hcode, (if m.afterMark c then reader.mark x '/' else x).word, c, ?_, hname, ?_⟩
    · rw [Reader.step, hrole]
      rfl
    · exact getLast?_concat
  | blank =>
    refine .inl ?_
    rw [Reader.step, hrole]
    exact word_settle _
  | mark =>
    refine .inl ?_
    rw [Reader.step, hrole]
    exact (word_mark _).trans (word_settle _)
  | quoted =>
    refine .inl ?_
    rw [Reader.step, hrole]
    exact word_settle _
  | silent =>
    have hcode : m ≠ .code := by
      rintro rfl
      exact Mode.inCode_ne_silent hrole
    have hword : x.word = [] := h.resolve_right fun hm => hcode hm.1
    refine .inl ?_
    rw [Reader.step, hrole]
    show (if m.afterMark c then reader.mark x '/' else x).word = []
    split
    · exact (word_mark _).trans x.word_settle
    · exact hword

theorem Fresh.run (h : Fresh t y) (s : Chars) : Fresh (t ++ s) (reader.run y s) := by
  induction s generalizing t y with
  | nil => rwa [append_nil]
  | cons c s ih =>
    rw [append_cons, Reader.run_cons]
    exact ih (h.step c)

theorem fresh_read (t : Chars) : Fresh t (reader.read t) := by
  have hstart : Fresh [] (.code, reader.start) := .inl rfl
  exact hstart.run t

/-- Behind what is no part of a word, a word is empty or ends with a dollar sign. -/
theorem Fresh.word (h : Fresh t y) (ht : isWordAt t.getLast? = false) :
    y.2.word = [] ∨ '$' ∈ y.2.word := by
  rcases h with hnil | ⟨-, w, c, hw, hname, hlast⟩
  · exact .inl hnil
  · rw [hlast] at ht
    have hdollar : c = '$' := by
      rw [isNameChar, show isWord c = false from ht, Bool.false_or] at hname
      exact eq_of_beq hname
    rw [hw, hdollar]
    exact .inr (mem_append_right w mem_cons_self)

/-! ## Readings that differ in a word -/

/-- The outline without the word that is being read. -/
def clear (x : Outline) : Outline :=
  { x with word := [], awaits := false }

/-- The word announces nothing. -/
def Plain (w : Chars) : Prop :=
  w ≠ [] ∧ w ≠ "function".toList ∧ w ≠ "contract".toList ∧ w ≠ "library".toList

theorem settle_of_plain {x : Outline} (h : Plain x.word) (hname : x.awaits → x.word ∉ accessorNames) :
    x.settle = x.clear := by
  obtain ⟨hne, hfunction, hcontract, hlibrary⟩ := h
  rw [settle, if_neg hne, if_neg hfunction, if_neg, if_neg, clear]
  · exact fun hx => hname hx.1 hx.2.2
  · exact fun hx => hx.1.elim hcontract hlibrary

theorem settle_of_dollar {x : Outline} (h : '$' ∈ x.word) : x.settle = x.clear := by
  have hnames : ∀ v ∈ "function".toList :: "contract".toList :: "library".toList :: accessorNames, '$' ∉ v :=
    forall_mem_of_all rfl
  have hne {v : Chars} (hv : '$' ∉ v) : x.word ≠ v := fun heq => hv (heq ▸ h)
  simp only [forall_mem_cons] at hnames
  obtain ⟨hfunction, hcontract, hlibrary, hnames⟩ := hnames
  exact settle_of_plain ⟨ne_nil_of_mem h, hne hfunction, hne hcontract, hne hlibrary⟩ fun _ hmem =>
    hnames _ hmem h

/-- The outlines are the same, or differ only in a word with a dollar sign and what it is read behind. -/
def Alike (x x' : Outline) : Prop :=
  x = x' ∨ '$' ∈ x.word ∧ '$' ∈ x'.word ∧ x.clear = x'.clear

variable {x x' : Outline}

theorem Alike.settle (h : Alike x x') : x.settle = x'.settle := by
  rcases h with rfl | ⟨hx, hx', heq⟩
  · rfl
  · rw [settle_of_dollar hx, settle_of_dollar hx', heq]

theorem Alike.hush (h : Alike x x') : x.hush = x'.hush := by
  rw [Outline.hush, Outline.hush, h.settle]

theorem Alike.clear (h : Alike x x') : x.clear = x'.clear := by
  rcases h with rfl | ⟨-, -, heq⟩
  · rfl
  · exact heq

theorem Alike.eq (h : Alike x x') (hx : x.word = []) : x = x' := by
  rcases h with rfl | ⟨hmem, -⟩
  · rfl
  · rw [hx] at hmem
    cases hmem

theorem keeps_alike : reader.Keeps Alike where
  letter := by
    rintro x x' c (rfl | ⟨hx, hx', heq⟩)
    · exact .inl rfl
    · exact .inr ⟨mem_append_left _ hx, mem_append_left _ hx', heq⟩
  blank := fun x x' h => .inl h.settle
  mark := fun x x' c h => .inl (congrArg (mark · c) h.settle)
  quoted := fun x x' _ h => .inl h.hush

/-- The first outline stands behind a word that changes nothing, the second is clear. -/
def Behind (x x' : Outline) : Prop :=
  x.settle = x.clear ∧ x.clear = x'

/-- With a character that is no part of a word the difference is gone. -/
theorem Behind.step (h : Behind x x') {c : Char} (hc : isWord c = false) :
    Alike (reader.step (.code, x) c).2 (reader.step (.code, x') c).2 := by
  obtain ⟨hsettle, rfl⟩ := h
  have hsame : x.settle = x.clear.settle := hsettle.trans (settle_of_nil rfl).symm
  rw [Reader.step_code, Reader.step_code]
  cases hrole : (Mode.inCode c).2 with
  | letter =>
    have hdollar : c = '$' := by
      have hname := (Mode.inCode_of_letter hrole).2
      rw [isNameChar, hc, Bool.false_or] at hname
      exact eq_of_beq hname
    subst hdollar
    exact .inr ⟨mem_append_right _ mem_cons_self, mem_cons_self, rfl⟩
  | blank => exact .inl hsame
  | mark => exact .inl (congrArg (mark · c) hsame)
  | quoted => exact .inl (congrArg (fun z : Outline => { z with awaits := false }) hsame)
  | silent => exact absurd hrole Mode.inCode_ne_silent

/-! ## Accessors put in front -/

/-- The outline with more accessors in front of those of the body `n`, which is closed or open. -/
def Ahead (front : List Chars) (n : Nat) (x x' : Outline) : Prop :=
  n < x.closed.length ∧ x' = { x with closed := x.closed.modify n (front ++ ·) } ∨
    n = x.closed.length ∧ x.depth ≠ 0 ∧
      ∃ names, x.current = some names ∧ x' = { x with current := some (front ++ names) }

theorem modify_append_left {α : Type} {f : α → α} {n : Nat} {xs : List α} (h : n < xs.length) (ys : List α) :
    (xs ++ ys).modify n f = xs.modify n f ++ ys := by
  induction xs generalizing n with
  | nil => cases h
  | cons x xs ih =>
    cases n with
    | zero => rfl
    | succ n =>
      rw [cons_append, modify_succ_cons, modify_succ_cons, ih (Nat.lt_of_succ_lt_succ h),
        cons_append]

theorem modify_concat {α : Type} (f : α → α) (xs : List α) (x : α) :
    (xs ++ [x]).modify xs.length f = xs ++ [f x] := modifyTailIdx_add _ 0 xs [x]

section Ahead

variable {front : List Chars} {n : Nat} {x x' : Outline}

theorem Ahead.settle (h : Ahead front n x x') : Ahead front n x.settle x'.settle := by
  rcases h with ⟨hn, rfl⟩ | ⟨hn, hdepth, names, hcurrent, rfl⟩
  · refine .inl ?_
    unfold Outline.settle
    dsimp only
    split
    · exact ⟨hn, rfl⟩
    split
    · exact ⟨hn, rfl⟩
    split
    · exact ⟨hn, rfl⟩
    split
    · exact ⟨hn, rfl⟩
    · exact ⟨hn, rfl⟩
  · refine .inr ?_
    unfold Outline.settle
    dsimp only
    split
    · exact ⟨hn, hdepth, names, hcurrent, rfl⟩
    split
    · exact ⟨hn, hdepth, names, hcurrent, rfl⟩
    split
    · exact ⟨hn, hdepth, names, hcurrent, rfl⟩
    split
    · refine ⟨hn, hdepth, names ++ [x.word], by rw [hcurrent]; rfl, ?_⟩
      rw [← append_assoc]
      rfl
    · exact ⟨hn, hdepth, names, hcurrent, rfl⟩

theorem Ahead.mark (h : Ahead front n x x') (c : Char) : Ahead front n (x.mark c) (x'.mark c) := by
  rcases h with ⟨hn, rfl⟩ | ⟨hn, hdepth, names, hcurrent, rfl⟩
  · refine .inl ?_
    unfold Outline.mark
    dsimp only
    split
    · exact ⟨hn, rfl⟩
    split
    · split
      · refine ⟨?_, ?_⟩
        · rw [length_append]
          exact Nat.lt_add_right _ hn
        · rw [modify_append_left hn]
      · exact ⟨hn, rfl⟩
    split
    · exact ⟨hn, rfl⟩
    · exact ⟨hn, rfl⟩
  · unfold Outline.mark
    dsimp only
    split
    · exact .inr ⟨hn, Nat.succ_ne_zero _, names, hcurrent, rfl⟩
    split
    · split
      -- the body is closed with this brace
      · refine .inl ⟨?_, ?_⟩
        · rw [hn, hcurrent, length_append]
          exact Nat.lt_succ_self _
        · rw [hn, hcurrent, Option.toList_some, Option.toList_some, modify_concat]
      · refine .inr ⟨hn, ?_, names, hcurrent, rfl⟩
        show x.depth - 1 ≠ 0
        omega
    split
    · exact .inr ⟨hn, hdepth, names, hcurrent, rfl⟩
    · exact .inr ⟨hn, hdepth, names, hcurrent, rfl⟩

theorem keeps_ahead : reader.Keeps (Ahead front n) where
  letter := by
    rintro x x' c (⟨hn, rfl⟩ | ⟨hn, hdepth, names, hcurrent, rfl⟩)
    · exact .inl ⟨hn, rfl⟩
    · exact .inr ⟨hn, hdepth, names, hcurrent, rfl⟩
  blank := fun x x' h => h.settle
  mark := fun x x' c h => h.settle.mark c
  quoted := by
    intro x x' c h
    rcases h.settle with ⟨hn, heq⟩ | ⟨hn, hdepth, names, hcurrent, heq⟩
    · exact .inl ⟨hn, congrArg (fun z : Outline => { z with awaits := false }) heq⟩
    · exact .inr ⟨hn, hdepth, names, hcurrent, congrArg (fun z : Outline => { z with awaits := false }) heq⟩

theorem Ahead.bodies (h : Ahead front n x x') : x'.bodies = x.bodies.modify n (front ++ ·) := by
  rcases h with ⟨hn, rfl⟩ | ⟨rfl, -, names, hcurrent, rfl⟩
  · rw [Outline.bodies, Outline.bodies, modify_append_left hn]
  · rw [Outline.bodies, Outline.bodies, hcurrent, Option.toList_some, Option.toList_some, modify_concat]

theorem Ahead.lt_length (h : Ahead front n x x') : n < x.bodies.length := by
  rcases h with ⟨hn, -⟩ | ⟨hn, -, names, hcurrent, -⟩
  · rw [Outline.bodies, length_append]
    exact Nat.lt_add_right _ hn
  · rw [Outline.bodies, length_append, hcurrent, hn]
    exact Nat.lt_succ_self _

end Ahead

end Outline

end Obscura.Literal
