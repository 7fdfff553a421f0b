import Mathlib.Data.List.Induction
import Obscura.Literal.StaticTable
import Obscura.Proofs.Chunks
import Obscura.Proofs.Comments
import Obscura.Proofs.Expression.Value
import Obscura.Proofs.Shield

/-
  Constants behind tables, and back. The pass cuts a text into parts, and each part
  that is a constant becomes a call with the place of the constant in a table. The
  constants among the parts are those that stand free in the text (`Eligible`), so
  that the tables hold just these, each once and in the order of their first places;
  and the function that is written for a table returns it (`returned?_tableLines`).
-/

namespace Obscura.Literal

open Text Layout Number Expression List

variable {c : Char} {cs : List Cell} {ks : List Chunk} {i p q : Nat} {w s : Chars} {α : Type}
  {us vs : List Chars}

/-! ## Each constant once -/

/-- The texts, each at its first place. -/
def distinct (ws : List Chars) : List Chars :=
  ws.foldl entered []

theorem distinct_concat :
    distinct (us ++ [w]) = if w ∈ distinct us then distinct us else distinct us ++ [w] := by
  have hstep (table : List Chars) :
      entered table w = if w ∈ table then table else table ++ [w] := by simp [entered]
  rw [distinct, foldl_append]
  exact hstep _

theorem mem_distinct {ws : List Chars} : w ∈ distinct ws ↔ w ∈ ws := by
  induction ws using reverseRecOn with
  | nil => rfl
  | append_singleton us v ih =>
    rw [distinct_concat, mem_append, mem_singleton, ← ih]
    split
    · rename_i hv
      constructor
      · exact .inl
      · rintro (h | rfl)
        · exact h
        · exact hv
    · rw [mem_append, mem_singleton]

theorem nodup_distinct (ws : List Chars) : (distinct ws).Nodup := by
  induction ws using reverseRecOn with
  | nil => exact .nil
  | append_singleton us v ih =>
    rw [distinct_concat]
    split
    · exact ih
    · rename_i hv
      rw [nodup_append]
      refine ⟨ih, nodup_singleton v, ?_⟩
      rintro a ha b hb rfl
      exact hv (mem_singleton.1 hb ▸ ha)

theorem prefix_distinct (us vs : List Chars) : distinct us <+: distinct (us ++ vs) := by
  induction vs using reverseRecOn with
  | nil => simp
  | append_singleton vs v ih =>
    rw [← append_assoc, distinct_concat]
    split
    · exact ih
    · exact ih.trans (prefix_append _ _)

/-- An entry before another one occurs before each place of that one. -/
theorem mem_of_distinct {v : Chars} {j : Nat} (hij : i < j)
    (hi : (distinct (us ++ w :: vs))[i]? = some v) (hj : (distinct (us ++ w :: vs))[j]? = some w) :
    v ∈ us := by
  obtain ⟨r, hr⟩ := prefix_distinct (us ++ [w]) vs
  rw [append_assoc, singleton_append] at hr
  have hnodup := nodup_distinct (us ++ w :: vs)
  have hmem : w ∈ distinct (us ++ [w]) := mem_distinct.2 (by simp)
  obtain ⟨k, hk, hkw⟩ := mem_iff_getElem.1 hmem
  -- the entry stands where the run over `us` and `w` has put it
  have hjk : j = k := by
    have hjlen := (List.getElem?_eq_some_iff.1 hj).1
    have hklook : (distinct (us ++ w :: vs))[k]? = some w := by
      rw [← hr, getElem?_append_left hk, getElem?_eq_getElem hk, hkw]
    exact (getElem?_inj hjlen hnodup).1 (hj.trans hklook.symm)
  have hv : v ∈ distinct (us ++ [w]) := by
    rw [← hr, getElem?_append_left (by omega)] at hi
    exact mem_of_getElem? hi
  rw [mem_distinct, mem_append, mem_singleton] at hv
  refine hv.resolve_right ?_
  rintro rfl
  have hilen := (List.getElem?_eq_some_iff.1 hi).1
  exact Nat.ne_of_lt hij ((getElem?_inj hilen hnodup).1 (hi.trans hj.symm))

/-! ## Parts in their places -/

/-- A part of a text: one that is kept, or a constant that becomes a call. -/
inductive Cell where
  | keep (text : Chars)
  | constant (text : Chars)
deriving Repr, DecidableEq

def Cell.text : Cell → Chars
  | .keep t => t
  | .constant t => t

/-- The parts of a line that starts at the position `p`, as both passes meet them. -/
def lineCells (barred : Nat → Bool) (p : Nat) : List Chunk → List Cell
  | [] => []
  | .mark c :: cs => .keep [c] :: lineCells barred (p + 1) cs
  | .word w :: cs =>
    (if isConstant w && !barred p then .constant w else .keep w)
      :: lineCells barred (p + w.length) cs

def cellsFrom (barred : Nat → Bool) (p : Nat) : List Chars → List Cell
  | [] => []
  | l :: ls =>
    (if isDirectiveLine l then [.keep l] else lineCells barred p (chunks l))
      ++ cellsFrom barred (p + l.length) ls

/-- The parts of a source; constants in guards and behind the shield are kept. -/
def cells (s : Chars) : List Cell :=
  cellsFrom (fun p => isGuarded (guardRanges s) p || (shielded s).toArray.getD p false) 0 (linesKeepEnds s)

def constants (cs : List Cell) : List Chars :=
  cs.filterMap fun
    | .constant t => some t
    | .keep _ => none

/-- The numbers that become calls, each once. -/
def intTable (cs : List Cell) : List Chars :=
  distinct ((constants cs).filter fun w => (truthWord? w).isNone)

/-- The truth values that become calls, each once. -/
def boolTable (cs : List Cell) : List Chars :=
  distinct ((constants cs).filter fun w => (truthWord? w).isSome)

variable {text : α → Chars}

theorem placed_append (xs ys : List α) :
    placed text p (xs ++ ys) = placed text p xs ++ placed text (p + (xs.flatMap text).length) ys := by
  induction xs generalizing p with
  | nil => rfl
  | cons x xs ih =>
    rw [cons_append, placed, placed, ih, flatMap_cons, length_append, Nat.add_assoc]
    rfl

theorem flatMap_text_lineCells (barred : Nat → Bool) :
    (lineCells barred p ks).flatMap Cell.text = ks.flatMap Chunk.text := by
  induction ks generalizing p with
  | nil => rfl
  | cons k ks ih =>
    cases k with
    | mark c => simp [lineCells, Cell.text, Chunk.text, ih]
    | word w =>
      rw [lineCells, flatMap_cons, flatMap_cons, ih]
      split <;> rfl

theorem exists_cut_cons {k : Chunk} :
    (∃ js ls, k :: ks = js ++ .word w :: ls ∧ q = p + (js.flatMap Chunk.text).length) ↔
      k = .word w ∧ q = p ∨
        ∃ js ls, ks = js ++ .word w :: ls ∧ q = p + k.text.length + (js.flatMap Chunk.text).length := by
  constructor
  · rintro ⟨js, ls, hcut, rfl⟩
    cases js with
    | nil =>
      obtain ⟨rfl, rfl⟩ := cons.inj hcut
      exact .inl ⟨rfl, rfl⟩
    | cons j js =>
      obtain ⟨rfl, rfl⟩ := cons.inj hcut
      refine .inr ⟨js, ls, rfl, ?_⟩
      rw [flatMap_cons, length_append, Nat.add_assoc]
  · rintro (⟨rfl, rfl⟩ | ⟨js, ls, rfl, rfl⟩)
    · exact ⟨[], ks, rfl, rfl⟩
    · refine ⟨k :: js, ls, rfl, ?_⟩
      rw [flatMap_cons, length_append, Nat.add_assoc]

/-- The constants of a line are its words that may go into a table and are not barred. -/
theorem mem_placed_lineCells {barred : Nat → Bool} :
    (q, Cell.constant w) ∈ placed Cell.text p (lineCells barred p ks) ↔
      (isConstant w ∧ barred q = false) ∧
        ∃ js ls, ks = js ++ .word w :: ls ∧ q = p + (js.flatMap Chunk.text).length := by
  induction ks generalizing p with
  | nil => simp [lineCells, placed]
  | cons k ks ih =>
    rw [exists_cut_cons, and_or_left, ← ih]
    cases k with
    | mark c => simp [lineCells, placed, Cell.text, Chunk.text]
    | word v =>
      by_cases hv : (isConstant v && !barred p)
      · have hcell : lineCells barred p (.word v :: ks) =
            .constant v :: lineCells barred (p + v.length) ks := by
          rw [lineCells, if_pos hv]
        rw [hcell, placed, mem_cons, Prod.mk.injEq, Cell.constant.injEq, Cell.text, Chunk.text]
        refine or_congr_left ⟨?_, ?_⟩
        · rintro ⟨rfl, rfl⟩
          simpa using hv
        · rintro ⟨-, hw, rfl⟩
          exact ⟨rfl, (Chunk.word.inj hw).symm⟩
      · have hcell : lineCells barred p (.word v :: ks) =
            .keep v :: lineCells barred (p + v.length) ks := by
          rw [lineCells, if_neg hv]
        rw [hcell, placed, mem_cons, Cell.text, Chunk.text]
        refine or_congr_left ⟨?_, ?_⟩
        · rintro ⟨⟩
        · rintro ⟨hfree, hw, rfl⟩
          obtain rfl := Chunk.word.inj hw
          exact absurd (by simpa using hfree) hv

section Lines

variable {barred : Nat → Bool}

theorem flatMap_text_cellsFrom (ls : List Chars) :
    (cellsFrom barred p ls).flatMap Cell.text = ls.flatten := by
  induction ls generalizing p with
  | nil => rfl
  | cons l ls ih =>
    rw [cellsFrom, flatMap_append, ih, flatten_cons]
    split
    · simp [Cell.text]
    · rw [flatMap_text_lineCells, flatMap_text_chunks]

/-- The constants of lines are those of the lines that hold no directive. -/
theorem mem_placed_cellsFrom {ls : List Chars} :
    (q, Cell.constant w) ∈ placed Cell.text p (cellsFrom barred p ls) ↔
      ∃ before l behind, ls = before ++ l :: behind ∧ isDirectiveLine l = false ∧
        (q, Cell.constant w) ∈ placed Cell.text (p + before.flatten.length)
          (lineCells barred (p + before.flatten.length) (chunks l)) := by
  induction ls generalizing p with
  | nil => simp [cellsFrom, placed]
  | cons l ls ih =>
    have hlen : ((if isDirectiveLine l then [.keep l] else lineCells barred p (chunks l)).flatMap
        Cell.text).length = l.length := by
      split
      · simp [Cell.text]
      · rw [flatMap_text_lineCells, flatMap_text_chunks]
    rw [cellsFrom, placed_append, mem_append, hlen, ih]
    constructor
    · rintro (h | ⟨before, m, behind, rfl, hm, h⟩)
      · cases hl : isDirectiveLine l with
        | true => simp [hl, placed] at h
        | false =>
          rw [hl] at h
          exact ⟨[], l, ls, rfl, hl, h⟩
      · refine ⟨l :: before, m, behind, rfl, hm, ?_⟩
        rwa [flatten_cons, length_append, ← Nat.add_assoc]
    · rintro ⟨before, m, behind, hcut, hm, h⟩
      cases before with
      | nil =>
        obtain ⟨rfl, rfl⟩ := cons.inj hcut
        refine .inl ?_
        rw [hm]
        exact h
      | cons b before =>
        obtain ⟨rfl, rfl⟩ := cons.inj hcut
        refine .inr ⟨before, m, behind, rfl, hm, ?_⟩
        rwa [flatten_cons, length_append, ← Nat.add_assoc] at h

end Lines

/-! ## Constants that stand free -/

/-- The word is a truth value or made of digits. -/
def IsConstant (w : Chars) : Prop :=
  w = "true".toList ∨ w = "false".toList ∨ w ≠ [] ∧ ∀ c ∈ w, isDecimal c = true

/-- At the position stands a constant between two word boundaries of a line without
directive, and the position is neither in a comment or a string nor in the arguments of
a guard. -/
def Eligible (s : Chars) (p : Nat) (w : Chars) : Prop :=
  IsConstant w ∧
    (∃ before l behind a b, linesKeepEnds s = before ++ l :: behind ∧ isDirectiveLine l = false ∧
      l = a ++ w ++ b ∧ before.flatten.length + a.length = p ∧
      isWordAt a.getLast? = false ∧ isWordAt b.head? = false) ∧
    (shielded s)[p]? ≠ some true ∧ ∀ r ∈ guardRanges s, ¬(r.1 ≤ p ∧ p < r.2)

theorem isWord_of_isDecimal (h : isDecimal c) : isWord c := by
  cases hw : isWord c with
  | true => rfl
  | false => rw [isDecimal_of_isWord_eq_false hw] at h; cases h

theorem isConstant_iff : (w ≠ [] ∧ ∀ c ∈ w, isWord c) ∧ isConstant w ↔ IsConstant w := by
  rw [isConstant, Bool.or_eq_true, all_eq_true]
  constructor
  · rintro ⟨⟨hne, -⟩, hw | hw⟩
    · rcases truthWord_cases hw with rfl | rfl
      · exact .inl rfl
      · exact .inr (.inl rfl)
    · exact .inr (.inr ⟨hne, hw⟩)
  · rintro (rfl | rfl | ⟨hne, hw⟩)
    · exact ⟨⟨cons_ne_nil _ _, forall_mem_of_all (by decide)⟩, .inl rfl⟩
    · exact ⟨⟨cons_ne_nil _ _, forall_mem_of_all (by decide)⟩, .inl rfl⟩
    · exact ⟨⟨hne, fun c hc => isWord_of_isDecimal (hw c hc)⟩, .inr hw⟩

theorem barred_eq_false :
    (isGuarded (guardRanges s) p || (shielded s).toArray.getD p false) = false ↔
      (shielded s)[p]? ≠ some true ∧ ∀ r ∈ guardRanges s, ¬(r.1 ≤ p ∧ p < r.2) := by
  rw [Bool.or_eq_false_iff, and_comm]
  refine and_congr ?_ ?_
  · rw [Array.getD_eq_getD_getElem?, getElem?_toArray]
    cases (shielded s)[p]? with
    | none => simp
    | some b => simp
  · simp [isGuarded]

/-- **The constants among the parts** of a text are those that stand free in it. -/
theorem mem_placed_cells :
    (p, Cell.constant w) ∈ placed Cell.text 0 (cells s) ↔ Eligible s p w := by
  rw [cells, mem_placed_cellsFrom]
  simp only [mem_placed_lineCells, barred_eq_false, Nat.zero_add]
  constructor
  · rintro ⟨before, l, behind, hcut, hl, ⟨hw, hfree⟩, js, ls, hword, rfl⟩
    obtain ⟨hrun, a, b, hab, hlen, hbounds⟩ := exists_word_iff.1 ⟨js, ls, hword, rfl⟩
    exact ⟨isConstant_iff.1 ⟨hrun, hw⟩, ⟨before, l, behind, a, b, hcut, hl, hab, by rw [hlen], hbounds⟩,
      hfree⟩
  · rintro ⟨hw, ⟨before, l, behind, a, b, hcut, hl, hab, rfl, hbounds⟩, hfree⟩
    obtain ⟨hrun, hconstant⟩ := isConstant_iff.2 hw
    obtain ⟨js, ls, hword, hlen⟩ := exists_word_iff.2 ⟨hrun, a, b, hab, rfl, hbounds⟩
    exact ⟨before, l, behind, hcut, hl, ⟨hconstant, hfree⟩, js, ls, hword, by rw [hlen]⟩

theorem flatMap_text_cells (s : Chars) : (cells s).flatMap Cell.text = s := by
  rw [cells, flatMap_text_cellsFrom, flatten_linesKeepEnds]

/-! ## The tables -/

/-- The table holds the free constants of one kind, each once and in the order of their
first places: whatever stands before an entry in the table stands before it in the text. -/
structure Lists (s : Chars) (kind : Chars → Bool) (table : List Chars) : Prop where
  nodup : table.Nodup
  mem_iff : ∀ w, w ∈ table ↔ kind w = true ∧ ∃ p, Eligible s p w
  inOrder : ∀ (i j : Nat) (v w : Chars) (q : Nat), i < j → table[i]? = some v →
    table[j]? = some w → Eligible s q w →
    ∃ p < q, Eligible s p v

theorem mem_constants : w ∈ constants cs ↔ Cell.constant w ∈ cs := by
  rw [constants, mem_filterMap]
  constructor
  · rintro ⟨c, hc, hw⟩
    cases c with
    | keep t => cases hw
    | constant t => exact Option.some.inj hw ▸ hc
  · intro h
    exact ⟨_, h, rfl⟩

theorem exists_placed_iff {xs : List α} {x : α} (p : Nat) :
    (∃ q, (q, x) ∈ placed text p xs) ↔ x ∈ xs := by
  induction xs generalizing p with
  | nil => simp [placed]
  | cons y ys ih =>
    rw [placed, mem_cons, ← ih (p + (text y).length)]
    simp only [mem_cons, Prod.mk.injEq, exists_or]
    simp

theorem exists_append_of_mem_placed {xs : List α} {x : α}
    (h : (q, x) ∈ placed text p xs) :
    ∃ as bs, xs = as ++ x :: bs ∧ q = p + (as.flatMap text).length := by
  induction xs generalizing p with
  | nil => cases h
  | cons y ys ih =>
    rcases mem_cons.1 h with heq | h
    · obtain ⟨rfl, rfl⟩ := Prod.mk.inj heq
      exact ⟨[], ys, rfl, rfl⟩
    · obtain ⟨as, bs, rfl, rfl⟩ := ih h
      refine ⟨y :: as, bs, rfl, ?_⟩
      rw [flatMap_cons, length_append, Nat.add_assoc]

theorem lists_distinct (kind : Chars → Bool) :
    Lists s kind (distinct ((constants (cells s)).filter kind)) where
  nodup := nodup_distinct _
  mem_iff := by
    intro w
    rw [mem_distinct, mem_filter, mem_constants, and_comm]
    refine and_congr_right fun _ => ?_
    rw [← exists_placed_iff 0]
    exact exists_congr fun p => mem_placed_cells
  inOrder := by
    intro i j v w q hij hi hj hq
    obtain ⟨as, bs, hcut, rfl⟩ := exists_append_of_mem_placed (mem_placed_cells.2 hq)
    have hkind : kind w := by
      have := mem_distinct.1 (mem_of_getElem? hj)
      exact (mem_filter.1 this).2
    have hsplit : (constants (cells s)).filter kind =
        (constants as).filter kind ++ w :: (constants bs).filter kind := by
      rw [hcut, constants, filterMap_append, filter_append]
      simp [constants, hkind]
    rw [hsplit] at hi hj
    have hv := mem_constants.1 (mem_filter.1 (mem_of_distinct hij hi hj)).1
    obtain ⟨p, hp⟩ := (exists_placed_iff 0).2 hv
    obtain ⟨cs, ds, hcs, hlen⟩ := exists_append_of_mem_placed hp
    have hmem : (p, Cell.constant v) ∈ placed Cell.text 0 (cells s) := by
      rw [hcut, placed_append]
      exact mem_append_left _ hp
    have heligible := mem_placed_cells.1 hmem
    have hne : v ≠ [] := (isConstant_iff.2 heligible.1).1.1
    refine ⟨p, ?_, heligible⟩
    have hv := length_pos_of_ne_nil hne
    rw [hlen, hcs, flatMap_append, length_append, flatMap_cons, length_append,
      Cell.text]
    omega

/-! ## Calls -/

/-- A call that looks a constant up: in which of the two tables, and at which place. -/
structure Lookup where
  truth : Bool
  index : Nat

variable {h : Hole Lookup} {type : String} {values : List Chars}

namespace Lookup

def call (l : Lookup) : Chars :=
  (if l.truth then "__get_bool(" else "__get_int(").toList ++ digits l.index ++ [')']

/-- The entry that the call gives. -/
def found? (ints bools : List Chars) (l : Lookup) : Option Chars :=
  (if l.truth then bools else ints)[l.index]?

end Lookup

section Calls

variable {ints bools : List Chars}

/-- The call for a constant. -/
def lookupFor (ints bools : List Chars) (w : Chars) : Lookup :=
  if (truthWord? w).isSome then ⟨true, bools.idxOf w⟩ else ⟨false, ints.idxOf w⟩

/-- The text of the call for a constant. -/
def lookUp (ints bools : List Chars) (w : Chars) : Chars :=
  (lookupFor ints bools w).call

/-- The text with its constants replaced by calls. -/
def renderCells (ints bools : List Chars) (cs : List Cell) : Chars :=
  cs.flatMap fun
    | .keep t => t
    | .constant w => lookUp ints bools w

theorem found?_lookupFor (h : w ∈ if (truthWord? w).isSome then bools else ints) :
    (lookupFor ints bools w).found? ints bools = some w := by
  by_cases hw : (truthWord? w).isSome
  · rw [if_pos hw] at h
    rw [lookupFor, if_pos hw]
    exact getElem?_idxOf h
  · rw [if_neg hw] at h
    rw [lookupFor, if_neg hw]
    exact getElem?_idxOf h

/-- A part of the old text, and the call in its place. -/
def Cell.swapped (ints bools : List Chars) : Cell → Chars × Option Lookup
  | .keep t => (t, none)
  | .constant w => (w, some (lookupFor ints bools w))

/-- A part of the new text, and the call that it is. -/
def Cell.called (ints bools : List Chars) : Cell → Chars × Option Lookup
  | .keep t => (t, none)
  | .constant w => ((lookupFor ints bools w).call, some (lookupFor ints bools w))

theorem renderCells_append (as bs : List Cell) :
    renderCells ints bools (as ++ bs) = renderCells ints bools as ++ renderCells ints bools bs :=
  flatMap_append

theorem joined_swapped : joined (cs.map (Cell.swapped ints bools)) = cs.flatMap Cell.text := by
  rw [joined, flatMap_map]
  refine flatMap_congr fun c _ => ?_
  cases c <;> rfl

theorem joined_called :
    joined (cs.map (Cell.called ints bools)) = renderCells ints bools cs := by
  rw [joined, flatMap_map, renderCells]
  refine flatMap_congr fun c _ => ?_
  cases c <;> rfl

theorem replaced_swapped :
    replaced Lookup.call (cs.map (Cell.swapped ints bools)) = renderCells ints bools cs := by
  rw [replaced, flatMap_map, renderCells]
  refine flatMap_congr fun c _ => ?_
  cases c <;> rfl

theorem replaced_called
    (h : ∀ w, Cell.constant w ∈ cs → (lookupFor ints bools w).found? ints bools = some w) :
    replaced (fun l => (l.found? ints bools).getD []) (cs.map (Cell.called ints bools)) =
      cs.flatMap Cell.text := by
  rw [replaced, flatMap_map]
  refine flatMap_congr fun c hc => ?_
  cases c with
  | keep t => rfl
  | constant w =>
    show (Lookup.found? ints bools _).getD [] = w
    rw [h w hc]
    rfl

theorem what_holes (p q : Nat) (cs : List Cell) :
    (holesFrom p (cs.map (Cell.called ints bools))).map Hole.what =
      (holesFrom q (cs.map (Cell.swapped ints bools))).map Hole.what := by
  induction cs generalizing p q with
  | nil => rfl
  | cons c cs ih =>
    cases c with
    | keep t => exact ih _ _
    | constant w => exact congrArg (lookupFor ints bools w :: ·) (ih _ _)

theorem mem_holes_swapped : h ∈ holesFrom p (cs.map (Cell.swapped ints bools)) ↔
      ∃ w, (h.start, Cell.constant w) ∈ placed Cell.text p cs ∧
        h = ⟨h.start, h.start + w.length, lookupFor ints bools w⟩ := by
  induction cs generalizing p with
  | nil => simp [holesFrom, placed]
  | cons c cs ih =>
    cases c with
    | keep t =>
      rw [map_cons, Cell.swapped, holesFrom, ih, placed]
      simp [Cell.text]
    | constant v =>
      rw [map_cons, Cell.swapped, holesFrom, mem_cons, ih, placed]
      simp only [mem_cons, Prod.mk.injEq, Cell.constant.injEq, Cell.text, or_and_right, exists_or]
      refine or_congr_left ⟨?_, ?_⟩
      · rintro rfl
        exact ⟨v, ⟨rfl, rfl⟩, rfl⟩
      · rintro ⟨w, ⟨hp, rfl⟩, hh⟩
        rw [hh, hp]

theorem stretch_of_mem_holes {β : Type} {r : List (Chars × Option β)} {h : Hole β}
    (hh : h ∈ holesFrom p r) :
    ∃ a u b, joined r = a ++ u ++ b ∧ p + a.length = h.start ∧ h.stop = h.start + u.length ∧
      (u, some h.what) ∈ r := by
  induction r generalizing p with
  | nil => cases hh
  | cons x r ih =>
    obtain ⟨u, o⟩ := x
    have hrest (hh : h ∈ holesFrom (p + u.length) r) :
        ∃ a v b, joined ((u, o) :: r) = a ++ v ++ b ∧ p + a.length = h.start ∧
          h.stop = h.start + v.length ∧ (v, some h.what) ∈ (u, o) :: r := by
      obtain ⟨a, v, b, hjoin, hstart, hstop, hmem⟩ := ih hh
      refine ⟨u ++ a, v, b, ?_, ?_, hstop, .tail _ hmem⟩
      · rw [joined, flatMap_cons, ← joined, hjoin, append_assoc, append_assoc,
          append_assoc]
      · rw [length_append, ← Nat.add_assoc, hstart]
    cases o with
    | none => exact hrest hh
    | some b =>
      rcases mem_cons.1 hh with rfl | hh
      · exact ⟨[], u, joined r, rfl, rfl, rfl, .head _⟩
      · exact hrest hh

theorem call_of_mem_holes (hh : h ∈ holesFrom 0 (cs.map (Cell.called ints bools))) :
    ∃ a b, renderCells ints bools cs = a ++ h.what.call ++ b ∧ a.length = h.start ∧
      h.stop = h.start + h.what.call.length := by
  obtain ⟨a, u, b, hjoin, hstart, hstop, hmem⟩ := stretch_of_mem_holes hh
  obtain ⟨c, -, hc⟩ := mem_map.1 hmem
  have hu : u = h.what.call := by
    cases c with
    | keep t => cases hc
    | constant w =>
      obtain ⟨rfl, hl⟩ := Prod.mk.inj hc
      rw [← Option.some.inj hl]
  rw [Nat.zero_add] at hstart
  rw [joined_called] at hjoin
  exact ⟨a, b, by rw [hjoin, hu], hstart, by rw [hstop, hu]⟩

end Calls

/-! ## The functions of the tables -/

/-- Read a line that allocates a table: the number of its entries. -/
def allocated? (type : String) (line : Chars) : Option Nat := do
  let r ← stripFront? ("    t = new ".toList ++ type.toList ++ "[](".toList) line
  if r.dropWhile Char.isDigit = ");".toList then some (numeral (r.takeWhile Char.isDigit)) else none

/-- Read a line that sets an entry: its place and the text. -/
def assigned? (line : Chars) : Option (Nat × Chars) := do
  let r ← stripFront? "    t[".toList line
  let v ← stripFront? "] = ".toList (r.dropWhile Char.isDigit)
  if v.getLast? = some ';' then some (numeral (r.takeWhile Char.isDigit), v.dropLast) else none

/-- Carry out a line on a table. An entry that does not exist cannot be set. -/
def carryOut (type : String) (t : List Chars) (line : Chars) : Option (List Chars) :=
  match allocated? type line with
  | some n => some (List.replicate n [])
  | none =>
    match assigned? line with
    | some (i, v) => if i < t.length then some (t.set i v) else none
    | none => none

/-- The table that a function returns: the lines between its head and its last brace,
carried out on an empty table. -/
def returned? (type : String) (lines : List Chars) : Option (List Chars) :=
  lines.tail.dropLast.foldlM (carryOut type) []

theorem takeWhile_digits {n : Nat} (hc : c.isDigit = false) (r : Chars) :
    (digits n ++ c :: r).takeWhile Char.isDigit = digits n ∧
      (digits n ++ c :: r).dropWhile Char.isDigit = c :: r := by
  have hend : ∀ d, (c :: r).head? = some d → d.isDigit = false := by
    rintro d ⟨⟩
    exact hc
  exact ⟨takeWhile_run (isDigit_digits n) hend, dropWhile_run (isDigit_digits n) hend⟩

theorem carryOut_allocation (n : Nat) (t : List Chars) :
    carryOut type t ("    t = new ".toList ++ type.toList ++ "[](".toList ++ digits n ++ ");".toList) =
      some (replicate n []) := by
  obtain ⟨htake, hdrop⟩ := takeWhile_digits (n := n) (c := ')') rfl [';']
  have hread : allocated? type
      ("    t = new ".toList ++ type.toList ++ "[](".toList ++ digits n ++ ");".toList) = some n := by
    unfold allocated?
    rw [append_assoc _ (digits n), stripFront?_eq_some_iff.2 rfl]
    show (if (digits n ++ [')', ';']).dropWhile Char.isDigit = [')', ';'] then
      some (numeral ((digits n ++ [')', ';']).takeWhile Char.isDigit)) else none) = _
    rw [hdrop, htake, if_pos rfl, numeral_digits]
  rw [carryOut, hread]

theorem carryOut_assignment {t : List Chars} (hi : i < t.length)
    (v : Chars) :
    carryOut type t ("    t[".toList ++ digits i ++ "] = ".toList ++ v ++ ";".toList) =
      some (t.set i v) := by
  have hnone : allocated? type ("    t[".toList ++ digits i ++ "] = ".toList ++ v ++ ";".toList) = none :=
    rfl
  obtain ⟨htake, hdrop⟩ := takeWhile_digits (n := i) (c := ']') rfl (" = ".toList ++ (v ++ [';']))
  have hread : assigned? ("    t[".toList ++ digits i ++ "] = ".toList ++ v ++ ";".toList) =
      some (i, v) := by
    unfold assigned?
    rw [append_assoc, append_assoc, append_assoc, stripFront?_eq_some_iff.2 rfl]
    show Option.bind (stripFront? "] = ".toList
      ((digits i ++ ']' :: (" = ".toList ++ (v ++ [';']))).dropWhile Char.isDigit)) _ = _
    rw [hdrop]
    show (if (v ++ [';']).getLast? = some ';' then
      some (numeral ((digits i ++ ']' :: (" = ".toList ++ (v ++ [';']))).takeWhile Char.isDigit),
        (v ++ [';']).dropLast) else none) = _
    rw [htake, if_pos getLast?_concat, dropLast_concat, numeral_digits]
  rw [carryOut, hnone, hread]
  exact if_pos hi

/-- The entries are set one after the other; those before the place `i` are set already. -/
theorem foldlM_entryLines (type : String) (done values : List Chars) :
    (entryLines done.length values).foldlM (carryOut type) (done ++ replicate values.length []) =
      some (done ++ values) := by
  induction values generalizing done with
  | nil => simp [entryLines]
  | cons v vs ih =>
    have hset : (done ++ replicate (vs.length + 1) []).set done.length v =
        (done ++ [v]) ++ replicate vs.length [] := by
      simp [replicate_succ]
    have hrest := ih (done ++ [v])
    rw [length_append, length_singleton, append_assoc _ _ vs, singleton_append] at hrest
    rw [entryLines, foldlM_cons, length_cons, carryOut_assignment (by simp), hset]
    exact hrest

/-- **The function of a table returns the table.** -/
theorem returned?_tableLines (plural : String) :
    returned? type (tableLines plural type values) = some values := by
  have hentries := foldlM_entryLines type [] values
  rw [length_nil, nil_append, nil_append] at hentries
  rw [returned?, tableLines, tail_cons, ← cons_append, dropLast_concat, foldlM_cons,
    carryOut_allocation]
  exact hentries

/-- The block holds a function that returns the table, and behind it one that returns the
entry with a given number. Each line is indented. -/
def Emits (block : Chars) (plural singular type : String) (values : List Chars) : Prop :=
  ∃ a lines b, block = a ++ unlines ((lines ++
      [("function __get_" ++ singular ++ "(uint idx) internal pure returns (" ++ type ++ ") \x7b").toList,
        ("    " ++ type ++ "[] memory t = __const_" ++ plural ++ "();").toList,
        "    return t[idx];".toList, "\x7d".toList]).map fun l => "    ".toList ++ l) ++ b ∧
    lines.head? =
      some ("function __const_" ++ plural ++ "() internal pure returns (" ++ type ++
        "[] memory t) \x7b").toList ∧
    returned? type lines = some values

theorem emits_accessorBlock {ints bools ls : List Chars} {plural singular : String}
    (hls : tableLines plural type values ++ getterLines plural singular type = ls)
    (h : accessorLines "ints" "int" "uint256" ints ++ accessorLines "bools" "bool" "bool" bools =
      us ++ (ls ++ vs)) :
    Emits (accessorBlock ints bools) plural singular type values := by
  have hne : ls ++ vs ≠ [] := by
    rw [← hls]
    exact cons_ne_nil _ _
  let indent : Chars → Chars := fun l => "    ".toList ++ l
  obtain ⟨b, hb⟩ := joinWith_append_right ['\n'] (ls.map indent) (vs.map indent)
  obtain ⟨front, hblock⟩ : ∃ front, accessorBlock ints bools =
      front ++ unlines ((us ++ (ls ++ vs)).map indent) ++ ['\n'] := by
    rw [accessorBlock, h]
    refine ⟨_, if_neg ?_⟩
    rw [List.isEmpty_iff, append_eq_nil_iff]
    exact fun h => hne h.2
  rw [map_append, unlines, joinWith_append _ _ (by simpa using hne), map_append, hb] at hblock
  refine ⟨front ++ (us.map indent).flatMap (· ++ ['\n']), tableLines plural type values, b ++ ['\n'], ?_, rfl,
    returned?_tableLines plural⟩
  rw [hblock, ← hls]
  simp only [unlines, append_assoc, indent]
  rfl

theorem emits_ints (ints bools : List Chars) :
    ints = [] ∨ Emits (accessorBlock ints bools) "ints" "int" "uint256" ints := by
  cases ints with
  | nil => exact .inl rfl
  | cons v vs => exact .inr (emits_accessorBlock rfl (nil_append _).symm)

theorem emits_bools (ints bools : List Chars) :
    bools = [] ∨ Emits (accessorBlock ints bools) "bools" "bool" "bool" bools := by
  cases bools with
  | nil => exact .inl rfl
  | cons v vs => exact .inr (emits_accessorBlock rfl (congrArg _ (append_nil _).symm))

theorem eq_nil_of_accessorBlock {ints bools : List Chars} (h : accessorBlock ints bools = []) :
    ints = [] ∧ bools = [] := by
  cases ints with
  | nil =>
    cases bools with
    | nil => exact ⟨rfl, rfl⟩
    | cons v vs => cases h
  | cons v vs => cases h

/-! ## The pass -/

/-- The two tables hold the constants of a text that stand free. -/
structure Indexed (s : Chars) (ints bools : List Chars) : Prop where
  ints : Lists s (fun w => (truthWord? w).isNone) ints
  bools : Lists s (fun w => (truthWord? w).isSome) bools

/-- In the new text exactly the constants that stand free are replaced, each by a call
with its place in the table of its kind. -/
structure Swapped (s : Chars) (ints bools : List Chars) (out : Chars)
    (swaps : List (Hole Lookup)) : Prop where
  inOrder : InOrder s.length 0 (swaps.map (Hole.patch Lookup.call))
  text : out = patched 0 s (swaps.map (Hole.patch Lookup.call))
  eligible_iff : ∀ p w, Eligible s p w ↔ ∃ h ∈ swaps, h.start = p ∧ h.stop = p + w.length ∧
    h.what.truth = (truthWord? w).isSome ∧ h.what.found? ints bools = some w

/-- The calls stand in the new text, and to put the entry in the place of each of them
gives back the old one. -/
structure Called (s : Chars) (ints bools : List Chars) (out : Chars)
    (calls : List (Hole Lookup)) : Prop where
  stands : ∀ h ∈ calls, ∃ a b, out = a ++ h.what.call ++ b ∧ a.length = h.start ∧
    h.stop = h.start + h.what.call.length
  decoded : s = patched 0 out (calls.map (Hole.patch fun l => (l.found? ints bools).getD []))

theorem indexed_cells (s : Chars) : Indexed s (intTable (cells s)) (boolTable (cells s)) :=
  ⟨lists_distinct _, lists_distinct _⟩

namespace Indexed

variable {s : Chars} {ints bools : List Chars}

theorem mem_table (h : Indexed s ints bools) {p : Nat} (hw : Eligible s p w) :
    w ∈ if (truthWord? w).isSome then bools else ints := by
  split
  · rename_i htruth
    exact (h.bools.mem_iff w).2 ⟨htruth, p, hw⟩
  · rename_i htruth
    exact (h.ints.mem_iff w).2 ⟨by simpa using htruth, p, hw⟩

theorem found? (h : Indexed s ints bools) {p : Nat} (hw : Eligible s p w) :
    (lookupFor ints bools w).found? ints bools = some w :=
  found?_lookupFor (h.mem_table hw)

theorem swapped (h : Indexed s ints bools) :
    Swapped s ints bools (renderCells ints bools (cells s))
      (holesFrom 0 ((cells s).map (Cell.swapped ints bools))) where
  inOrder := by
    have horder := inOrder_holesFrom Lookup.call 0 ((cells s).map (Cell.swapped ints bools))
    rwa [joined_swapped, flatMap_text_cells, Nat.zero_add] at horder
  text := by
    calc renderCells ints bools (cells s)
      _ = replaced Lookup.call ((cells s).map (Cell.swapped ints bools)) := replaced_swapped.symm
      _ = patched 0 (joined ((cells s).map (Cell.swapped ints bools))) _ := (patched_holesFrom 0 _).symm
      _ = _ := by rw [joined_swapped, flatMap_text_cells]
  eligible_iff := by
    intro p w
    constructor
    · intro hw
      refine ⟨⟨p, p + w.length, lookupFor ints bools w⟩,
        mem_holes_swapped.2 ⟨w, mem_placed_cells.2 hw, rfl⟩, rfl, rfl, ?_, h.found? hw⟩
      show (lookupFor ints bools w).truth = _
      rw [lookupFor]
      split
      · rename_i htruth
        exact htruth.symm
      · rename_i htruth
        exact (Bool.eq_false_iff.2 htruth).symm
    · rintro ⟨k, hk, rfl, -, -, hfound⟩
      obtain ⟨v, hv, hhole⟩ := mem_holes_swapped.1 hk
      have heligible := mem_placed_cells.1 hv
      rw [hhole, h.found? heligible] at hfound
      rwa [← Option.some.inj hfound]

theorem called (h : Indexed s ints bools) :
    Called s ints bools (renderCells ints bools (cells s))
      (holesFrom 0 ((cells s).map (Cell.called ints bools))) where
  stands := fun _ hk => call_of_mem_holes hk
  decoded := by
    have hall (w : Chars) (hw : Cell.constant w ∈ cells s) :
        (lookupFor ints bools w).found? ints bools = some w := by
      obtain ⟨p, hp⟩ := (exists_placed_iff 0).2 hw
      exact h.found? (mem_placed_cells.1 hp)
    calc s
      _ = (cells s).flatMap Cell.text := (flatMap_text_cells s).symm
      _ = replaced _ ((cells s).map (Cell.called ints bools)) := (replaced_called hall).symm
      _ = patched 0 (joined ((cells s).map (Cell.called ints bools))) _ := (patched_holesFrom 0 _).symm
      _ = _ := by rw [joined_called]

end Indexed

/-! ## Both passes -/

section Passes

variable {barred : Nat → Bool} {t : Tables} {ls : List Chars}

theorem foldl_enter (ws : List Chars) (t : Tables) : ws.foldl Tables.enter t =
    ⟨(ws.filter fun w => (truthWord? w).isNone).foldl entered t.ints,
      (ws.filter fun w => (truthWord? w).isSome).foldl entered t.bools⟩ := by
  induction ws generalizing t with
  | nil => rfl
  | cons w ws ih =>
    rw [foldl_cons, ih, Tables.enter]
    cases hw : truthWord? w <;> simp [hw]

theorem collectLine_eq :
    collectLine barred p t ks = (constants (lineCells barred p ks)).foldl Tables.enter t := by
  induction ks generalizing p t with
  | nil => rfl
  | cons k ks ih =>
    cases k with
    | mark c => exact ih
    | word w =>
      rw [collectLine, ih, lineCells]
      split <;> rfl

/-- The first pass enters the constants among the parts of the lines. -/
theorem collect_eq :
    collect barred p t ls = (constants (cellsFrom barred p ls)).foldl Tables.enter t := by
  induction ls generalizing p t with
  | nil => rfl
  | cons l ls ih =>
    rw [collect, ih, cellsFrom, constants, constants, filterMap_append, foldl_append]
    split
    · rfl
    · rw [collectLine_eq, constants]

/-- The tables hold all that is looked up in them. -/
def Tables.Holds (t : Tables) (cs : List Cell) : Prop :=
  ∀ w, Cell.constant w ∈ cs → w ∈ if (truthWord? w).isSome then t.bools else t.ints

theorem call?_eq (h : w ∈ if (truthWord? w).isSome then t.bools else t.ints) :
    t.call? w = some (lookUp t.ints t.bools w) := by
  have hidx {table : List Chars} (hw : w ∈ table) : table.idxOf? w = some (table.idxOf w) := by
    obtain ⟨i, hi⟩ := Option.isSome_iff_exists.1 (isSome_idxOf?.2 hw)
    rw [idxOf_eq_getD_idxOf?, hi]
    rfl
  rw [Tables.call?, lookUp, lookupFor]
  split at h
  · rename_i hw
    rw [if_pos hw, if_pos hw, hidx h]
    rfl
  · rename_i hw
    rw [if_neg hw, if_neg hw, hidx h]
    rfl

theorem replaceLine?_eq (h : t.Holds (lineCells barred p ks)) :
    replaceLine? barred t p ks = some (renderCells t.ints t.bools (lineCells barred p ks)) := by
  induction ks generalizing p with
  | nil => rfl
  | cons k ks ih =>
    cases k with
    | mark c =>
      rw [replaceLine?, ih fun w hw => h w (.tail _ hw)]
      rfl
    | word w =>
      rw [replaceLine?, ih fun w hw => h w (.tail _ hw)]
      rw [lineCells] at h ⊢
      split at h
      · rename_i hw
        rw [if_pos hw, if_pos hw, call?_eq (h w (.head _))]
        rfl
      · rename_i hw
        rw [if_neg hw, if_neg hw]
        rfl

/-- The second pass renders the parts of the lines. -/
theorem replaceLines?_eq (h : t.Holds (cellsFrom barred p ls)) :
    replaceLines? barred t p ls = some (renderCells t.ints t.bools (cellsFrom barred p ls)) := by
  induction ls generalizing p with
  | nil => rfl
  | cons l ls ih =>
    rw [cellsFrom] at h
    rw [replaceLines?, ih fun w hw => h w (mem_append_right _ hw), cellsFrom, renderCells_append]
    split
    · simp [renderCells]
    · rename_i hl
      rw [if_neg hl] at h
      rw [replaceLine?_eq fun w hw => h w (mem_append_left _ hw)]
      rfl

end Passes

/-- **The second pass never fails**, and both passes go over the same parts. -/
theorem tabulate?_eq (s : Chars) :
    tabulate? s = some (tidyNewlines (insertAccessors
      (accessorBlock (intTable (cells s)) (boolTable (cells s)))
      (renderCells (intTable (cells s)) (boolTable (cells s)) (cells s)))) := by
  have hholds : Tables.Holds ⟨intTable (cells s), boolTable (cells s)⟩ (cells s) := by
    intro w hw
    obtain ⟨p, hp⟩ := (exists_placed_iff 0).2 hw
    exact (indexed_cells s).mem_table (mem_placed_cells.1 hp)
  unfold tabulate?
  dsimp only
  rw [collect_eq, foldl_enter]
  exact congrArg (Option.bind · _) (replaceLines?_eq hholds)

theorem tabulate_eq (s : Chars) :
    tabulate s = tidyNewlines (insertAccessors
      (accessorBlock (intTable (cells s)) (boolTable (cells s)))
      (renderCells (intTable (cells s)) (boolTable (cells s)) (cells s))) := by
  rw [tabulate, tabulate?_eq]
  rfl

/-! ## Where the accessors stand -/

theorem startsWith_iff {p s : Chars} : startsWith p s ↔ p <+: s := by
  rw [startsWith, Option.isSome_iff_exists]
  refine exists_congr fun r => ?_
  rw [stripFront?_eq_some_iff, eq_comm]

/-- A search ends at the first place of what is looked for. -/
theorem findIdx?_cases {p : Chars} (hp : p ≠ []) (s : Chars) :
    (Text.findIdx? p s = none ∧ ∀ x r, s ≠ x ++ (p ++ r)) ∨
      ∃ x r, Text.findIdx? p s = some x.length ∧ s = x ++ (p ++ r) ∧
        ∀ y r, s = y ++ (p ++ r) → x.length ≤ y.length := by
  induction s with
  | nil => exact .inl ⟨if_neg (by simpa using hp), fun x r h => hp (by simp_all)⟩
  | cons c s ih =>
    by_cases hfront : p <+: c :: s
    · obtain ⟨r, hr⟩ := hfront
      exact .inr ⟨[], r, if_pos (startsWith_iff.2 ⟨r, hr⟩), hr.symm, fun _ _ _ => Nat.zero_le _⟩
    · have hstep : Text.findIdx? p (c :: s) = (Text.findIdx? p s).map (· + 1) :=
        if_neg (startsWith_iff.not.2 hfront)
      have htail {y r : Chars} (h : c :: s = y ++ (p ++ r)) :
          ∃ z, y = c :: z ∧ s = z ++ (p ++ r) := by
        cases y with
        | nil => exact absurd ⟨r, h.symm⟩ hfront
        | cons d z =>
          obtain ⟨rfl, hz⟩ := cons.inj h
          exact ⟨z, rfl, hz⟩
      rcases ih with ⟨hnone, hall⟩ | ⟨x, r, hx, rfl, hfirst⟩
      · refine .inl ⟨hstep.trans (by rw [hnone]; rfl), fun y r h => ?_⟩
        obtain ⟨z, -, hz⟩ := htail h
        exact hall z r hz
      · refine .inr ⟨c :: x, r, hstep.trans (by rw [hx]; rfl), rfl, fun y r h => ?_⟩
        obtain ⟨z, rfl, hz⟩ := htail h
        exact Nat.succ_le_succ (hfirst z r hz)

theorem contractBody?_eq {x y : Chars} (hs : s = x ++ y)
    (hx : Text.findIdx? "contract ".toList s = some x.length) :
    contractBody? s = (Text.findIdx? ['\x7b'] y).map (x.length + · + 1) := by
  have hle : x.length ≤ (x ++ y).length := by
    rw [length_append]
    exact Nat.le_add_right _ _
  subst hs
  rw [contractBody?, hx]
  dsimp only
  rw [findFrom?, if_pos hle, drop_left, Option.map_map]
  refine congrArg (fun f => Option.map f _) (funext fun k => ?_)
  exact congrArg (· + 1) (Nat.add_comm k x.length)

/-- What comes of a text if a block is put behind the first opening brace that follows the
first place of a word. Where no such brace is, the text stays. -/
inductive Inserted (word block s : Chars) : Chars → Prop
  | body {x y b : Chars} (hs : s = x ++ (word ++ (y ++ '\x7b' :: b))) (hy : '\x7b' ∉ y)
      (hfirst : ∀ z r, s = z ++ (word ++ r) → x.length ≤ z.length) :
      Inserted word block s (x ++ (word ++ (y ++ '\x7b' :: '\n' :: (block ++ b))))
  | none (hnone : ∀ x r, s = x ++ (word ++ r) → '\x7b' ∉ r) : Inserted word block s s

theorem inserted_insertAccessors {block : Chars} (hblock : block ≠ []) (s : Chars) :
    Inserted "contract ".toList block s (insertAccessors block s) := by
  have hne : "contract ".toList ≠ [] := by decide
  have hword : '\x7b' ∉ "contract ".toList := by decide
  have hnobody (h : Text.findIdx? "contract ".toList s = none) : contractBody? s = none := by
    rw [contractBody?, h]
  have hbody (x y : Chars) := contractBody?_eq (s := s) (x := x) (y := y)
  rw [insertAccessors, if_neg (by simpa using hblock)]
  generalize "contract ".toList = word at *
  rcases findIdx?_cases hne s with ⟨hnone, hall⟩ | ⟨x, r, hx, hs, hfirst⟩
  · rw [hnobody hnone]
    exact .none fun x r h => absurd h (hall x r)
  rw [hbody _ _ hs hx]
  rcases findIdx?_cases (cons_ne_nil '\x7b' []) (word ++ r) with ⟨hnone, hall⟩ | ⟨u, b, hu, hr, hbrace⟩
  · rw [hnone]
    refine .none fun z q hz hmem => ?_
    -- a later place of the word lies in what follows the first one
    obtain ⟨w, rfl⟩ := prefix_of_prefix_length_le ⟨_, hs.symm⟩ ⟨_, hz.symm⟩ (hfirst z q hz)
    rw [hs, append_assoc] at hz
    obtain ⟨v, b, rfl⟩ := append_of_mem hmem
    refine hall (w ++ (word ++ v)) b ?_
    rw [append_cancel_left hz]
    simp
  · have hfree : '\x7b' ∉ u := by
      intro hmem
      obtain ⟨v, v', rfl⟩ := append_of_mem hmem
      have := hbrace v (v' ++ '\x7b' :: b) (by rw [hr]; simp)
      simp only [length_append, length_cons] at this
      omega
    obtain ⟨y, rfl, rfl⟩ : ∃ y, u = word ++ y ∧ r = y ++ '\x7b' :: b := by
      rcases append_eq_append_iff.1 hr with ⟨y, hy, hry⟩ | ⟨y, rfl, hry⟩
      · exact ⟨y, hy, hry⟩
      · cases y with
        | nil => exact ⟨[], by simp, hry.symm⟩
        | cons c y =>
          obtain ⟨rfl, -⟩ := cons.inj hry
          exact absurd (mem_append_right u mem_cons_self) hword
    have hcut : s = x ++ (word ++ (y ++ ['\x7b'])) ++ b := by rw [hs]; simp
    have hlen : x.length + (word ++ y).length + 1 = (x ++ (word ++ (y ++ ['\x7b']))).length := by
      simp
      omega
    have htext : Inserted word block s _ := .body hs (fun hy => hfree (mem_append_right word hy)) hfirst
    rw [hu]
    dsimp only [Option.map_some]
    rw [hlen]
    nth_rewrite 2 3 [hcut]
    rw [take_left, drop_left]
    simpa using htext

def isNewline (c : Char) : Bool :=
  c == '\r' || c == '\n'

/-- Tidying touches nothing but line ends. -/
theorem filter_tidyNewlines (s : Chars) :
    (tidyNewlines s).filter (!isNewline ·) = s.filter (!isNewline ·) := by
  have hcap (seen : Nat) (s : Chars) : (capNewlines seen s).filter (!isNewline ·) =
      s.filter (!isNewline ·) := by
    induction s generalizing seen with
    | nil => rfl
    | cons c s ih =>
      rw [capNewlines]
      split
      · subst c
        split <;> exact ih _
      · simp [filter_cons, ih]
  have hone (s : Chars) :
      (replaceAll ['\r', '\n'] ['\n'] (by simp) s).filter (!isNewline ·) = s.filter (!isNewline ·) := by
    fun_induction replaceAll ['\r', '\n'] ['\n'] (by simp) s with
    | case1 => rfl
    | case2 b t r hr ih =>
      rw [stripFront?_eq_some_iff.1 hr]
      exact ih
    | case3 b t hr ih => simp [filter_cons, ih]
  have hends (s : Chars) : (s.flatMap fun c => if c = '\n' then ['\r', '\n'] else [c]).filter (!isNewline ·) =
      s.filter (!isNewline ·) := by
    induction s with
    | nil => rfl
    | cons c s ih =>
      rw [flatMap_cons, filter_append, ih]
      split
      · subst c
        rfl
      · exact (filter_append [c] s).symm
  rw [tidyNewlines]
  split
  · rw [hends, hcap, hone]
  · rw [hcap, hone]

/-- **Tables decode to the source.** No constant is missing when it is looked up. In the
text before the accessors are put in, exactly the constants that stand free are replaced,
each by a call with its place in the table of its kind. The tables hold these constants,
each once and in the order of their first places. To put the entry in the place of each
call gives back the source. For each table that is not empty, the block of accessors
holds a function that returns it and the one that is called, and this block stands at the
start of the first contract of the text that is returned, which differs in line ends only. -/
theorem tabulate_decodes (s : Chars) :
    ∃ ints bools out block text, Indexed s ints bools ∧
      (∃ swaps calls, Swapped s ints bools out swaps ∧ Called s ints bools out calls ∧
        calls.map Hole.what = swaps.map Hole.what) ∧
      (ints = [] ∨ Emits block "ints" "int" "uint256" ints) ∧
      (bools = [] ∨ Emits block "bools" "bool" "bool" bools) ∧
      (if ints = [] ∧ bools = [] then text = out else Inserted "contract ".toList block out text) ∧
      tabulate? s = some (tabulate s) ∧ tabulate s = tidyNewlines text ∧
      (tabulate s).filter (!isNewline ·) = text.filter (!isNewline ·) := by
  have hindexed := indexed_cells s
  refine ⟨_, _, _, _, _, hindexed, ⟨_, _, hindexed.swapped, hindexed.called, what_holes 0 0 _⟩,
    emits_ints _ _, emits_bools _ _, ?_, ?_, tabulate_eq s, by rw [tabulate_eq, filter_tidyNewlines]⟩
  · split
    · rename_i hnil
      rw [hnil.1, hnil.2]
      rfl
    · rename_i hne
      exact inserted_insertAccessors (fun hblock => hne (eq_nil_of_accessorBlock hblock)) _
  · rw [tabulate_eq, tabulate?_eq]

end Obscura.Literal
