import Obscura.Proofs.Reading
import Obscura.Proofs.Tables

/-
  Constants in the arguments of guards. The pass counts all parentheses, those in comments
  and strings too, so that the arguments of a guard can end too early for it, or never.
  It sees the whole guard exactly where this count comes out right (`mem_guardRanges_iff`).
-/

namespace Obscura.Literal

open Text List

variable {r s t x u : Chars}

/-- How many more parentheses are opened than closed, wherever they stand. -/
def balance (t : Chars) : Int :=
  t.count '(' - t.count ')'

/-- Behind `d` open parentheses the text closes them and all its own, and no more. -/
def Balanced (d : Nat) (t : Chars) : Prop :=
  (∀ u, u <+: t → 0 ≤ d + balance u) ∧ d + balance t = 0

def parentheses : Reader Int where
  start := 0
  letter x _ := x
  blank x := x
  mark x c := x + balance [c]
  quoted x _ := x

/-- How many parentheses of the code are open behind a text. -/
def codeDepth (t : Chars) : Int :=
  (parentheses.read t).2

/-- In the text stands a guard with the arguments `t`: behind `x` its parenthesis is opened,
and behind `t` it is closed again, in the code. -/
structure Guard (s x t : Chars) : Prop where
  text : x ++ '(' :: (t ++ [')']) <+: s
  found : ∃ m ∈ spans guardCall? s, m.stop = x.length + 1
  inside : ∀ u, u <+: t → codeDepth x < codeDepth (x ++ '(' :: u)
  closes : codeDepth (x ++ '(' :: (t ++ [')'])) = codeDepth x

/-- The position is in the arguments of the guard, or on one of its parentheses. -/
def Covers (x t : Chars) (p : Nat) : Prop :=
  x.length ≤ p ∧ p < x.length + t.length + 2

theorem balance_append : balance (t ++ u) = balance t + balance u := by
  simp only [balance, count_append]
  omega

theorem balanced_nil {d : Nat} : Balanced d [] ↔ d = 0 := by
  simp [Balanced, balance]

theorem balanced_cons {c : Char} {d e : Nat} (he : e = d + balance [c]) : Balanced d (c :: t) ↔
    Balanced e t := by
  have hcons (u : Chars) : (d : Int) + balance (c :: u) = e + balance u := by
    rw [he, Int.add_assoc, ← balance_append]
    rfl
  rw [Balanced, Balanced, hcons]
  refine and_congr_left' ⟨fun h u hu => ?_, fun h u hu => ?_⟩
  · rw [← hcons]
    exact h (c :: u) (cons_prefix_cons.2 ⟨rfl, hu⟩)
  · rcases prefix_cons_iff.1 hu with rfl | ⟨v, rfl, hv⟩
    · simp [balance]
    · rw [hcons]
      exact h v hv

theorem balancedLength_pos {d n : Nat} (h : balancedLength d s = some n) : 0 < n := by
  cases s with
  | nil => cases h
  | cons c s =>
    have hmap {o : Option Nat} (h : o.map (· + 1) = some n) : 0 < n := by
      obtain ⟨m, -, rfl⟩ := Option.map_eq_some_iff.1 h
      exact Nat.succ_pos m
    rw [balancedLength] at h
    split at h
    · exact hmap h
    split at h
    · split at h
      · cases h
        exact Nat.one_pos
      · exact hmap h
    · exact hmap h

/-- The parenthesis that closes `d` open ones and one more. -/
theorem balancedLength_iff {d : Nat} :
    balancedLength (d + 1) (t ++ ')' :: r) = some (t.length + 1) ↔ Balanced d t := by
  have hmap {o : Option Nat} {n : Nat} : o.map (· + 1) = some (n + 1) ↔ o = some n := by
    cases o <;> simp
  induction t generalizing d with
  | nil =>
    rw [balanced_nil, nil_append, balancedLength, if_neg (by decide), if_pos rfl]
    split
    · exact iff_of_true rfl (by omega)
    · refine ⟨fun h => ?_, fun h => absurd h (by omega)⟩
      exact absurd (balancedLength_pos (hmap.1 h)) (Nat.lt_irrefl 0)
  | cons c t ih =>
    rw [cons_append, balancedLength, length_cons]
    split
    · rename_i hopen
      exact hmap.trans (ih.trans (balanced_cons (e := d + 1) (by simp [hopen, balance])).symm)
    split
    · rename_i hclose
      cases d with
      | zero =>
        rw [if_pos (Nat.le_refl 1)]
        refine ⟨fun h => absurd (Option.some.inj h) (by omega), fun h => ?_⟩
        have := h.1 [c] ⟨t, rfl⟩
        simp [hclose, balance] at this
      | succ d =>
        have hd : (d : Int) = (d + 1 : Nat) + balance [c] := by
          rw [hclose, show balance [')'] = -1 from rfl]
          omega
        rw [if_neg (by omega), Nat.add_sub_cancel]
        exact hmap.trans (ih.trans (balanced_cons hd).symm)
    · rename_i hopen hclose
      exact hmap.trans (ih.trans (balanced_cons (e := d) (by simp [hopen, hclose, balance])).symm)

/-- **The whole guard is found** exactly if the parentheses of its arguments are balanced. -/
theorem Guard.mem_guardRanges_iff (h : Guard s x t) :
    (x.length, x.length + t.length + 2) ∈ guardRanges s ↔ Balanced 0 t := by
  obtain ⟨⟨r, rfl⟩, ⟨m, hm, hstop⟩, -, -⟩ := h
  have hlength : balancedLength 0 ((x ++ '(' :: (t ++ [')']) ++ r).drop x.length) = some (t.length + 2) ↔
      Balanced 0 t := by
    rw [append_assoc, drop_left, cons_append, append_assoc, singleton_append, balancedLength, if_pos rfl,
      ← balancedLength_iff]
    cases balancedLength (0 + 1) (t ++ ')' :: r) <;> simp
  rw [← hlength, guardRanges, mem_filterMap]
  constructor
  · rintro ⟨p, -, hp⟩
    obtain ⟨n, hn, heq⟩ := Option.map_eq_some_iff.1 hp
    obtain ⟨hstart, hend⟩ := Prod.mk.inj heq
    rw [hstart] at hn
    rw [hn]
    exact congrArg some (by omega)
  · intro hn
    refine ⟨m, hm, ?_⟩
    rw [hstop, Nat.add_sub_cancel, hn]
    rfl

/-- Where each parenthesis is one of the code, they are balanced. -/
theorem Guard.balanced (h : Guard s x t)
    (hall : ∀ u, u <+: t ++ [')'] → codeDepth (x ++ '(' :: u) = codeDepth x + 1 + balance u) :
    Balanced 0 t := by
  constructor
  · intro u hu
    have hin := h.inside u hu
    rw [hall u (hu.trans (prefix_append ..))] at hin
    omega
  · have hcloses := h.closes
    rw [hall _ prefix_rfl, balance_append] at hcloses
    simp [balance] at hcloses ⊢
    omega

/-- **When the constants of guards are kept.** The pass swaps exactly the constants outside of
the ranges it has found. The arguments of a guard are such a range if and only if their
parentheses are balanced, those in comments and strings counted too; then none of their
constants is swapped. They are balanced where each of them is one of the code. -/
theorem constants_of_guards_kept (s : Chars) : ∃ ints bools out swaps, Swapped s ints bools out swaps ∧
    tabulate s = tidyNewlines (insertAccessors (accessorBlock ints bools) out) ∧ ∀ x t, Guard s x t →
      ((x.length, x.length + t.length + 2) ∈ guardRanges s ↔ Balanced 0 t) ∧
      (Balanced 0 t → ∀ h ∈ swaps, ¬Covers x t h.start) ∧
      ((∀ u, u <+: t ++ [')'] → codeDepth (x ++ '(' :: u) = codeDepth x + 1 + balance u) → Balanced 0 t) := by
  refine ⟨_, _, _, _, (indexed_cells s).swapped, tabulate_eq s, fun x t hguard =>
    ⟨hguard.mem_guardRanges_iff, fun hbalanced k hk hp => ?_, hguard.balanced⟩⟩
  obtain ⟨w, hw, -⟩ := mem_holes_swapped.1 hk
  exact (mem_placed_cells.1 hw).2.2.2 _ (hguard.mem_guardRanges_iff.2 hbalanced) hp

/-- What holds of the first so many characters holds of every beginning of a text. -/
theorem forall_prefix {P : Chars → Prop} (h : ∀ n < t.length + 1, P (t.take n)) (hu : u <+: t) : P u := by
  rw [prefix_iff_eq_take.1 hu]
  exact h _ (Nat.lt_succ_of_le hu.length_le)

/-- The arguments of a guard with a call in them are left alone. -/
theorem guard_with_call_kept :
    Guard "assert(f(5)>1);".toList "assert".toList "f(5)>1".toList ∧ Balanced 0 "f(5)>1".toList ∧
      ∃ ints bools out swaps, Swapped "assert(f(5)>1);".toList ints bools out swaps ∧
        ∀ h ∈ swaps, ¬Covers "assert".toList "f(5)>1".toList h.start := by
  have hguard : Guard "assert(f(5)>1);".toList "assert".toList "f(5)>1".toList :=
    ⟨⟨[';'], rfl⟩, ⟨⟨0, 7, "assert(".toList⟩, by decide +kernel, rfl⟩,
      fun u hu => forall_prefix (P := fun u => codeDepth "assert".toList < codeDepth
        ("assert".toList ++ '(' :: u))
        (by decide +kernel) hu, by decide +kernel⟩
  obtain ⟨ints, bools, out, swaps, hswapped, -, hkept⟩ := constants_of_guards_kept "assert(f(5)>1);".toList
  obtain ⟨-, hnone, hbalanced⟩ := hkept _ _ hguard
  have hcode := hbalanced fun u hu => forall_prefix
    (P := fun u => codeDepth ("assert".toList ++ '(' :: u) = codeDepth "assert".toList + 1 + balance u)
    (by decide +kernel) hu
  exact ⟨hguard, hcode, ints, bools, out, swaps, hswapped, hnone hcode⟩

/-- The parenthesis in the message is never closed, so the guard is none and its constant is swapped. -/
theorem message_with_parenthesis_unguards :
    codeDepth "require(a>5,\"(\");".toList = 0 ∧
    Guard "require(a>5,\"(\");".toList "require".toList "a>5,\"(\"".toList ∧
      tabulate "require(a>5,\"(\");".toList = "require(a>__get_int(0),\"(\");".toList := by
  refine ⟨by decide +kernel, ⟨⟨[';'], rfl⟩, ⟨⟨0, 8, "require(".toList⟩, by decide +kernel, rfl⟩,
    fun u hu => ?_, ?_⟩, ?_⟩
  · exact forall_prefix (P := fun u => codeDepth "require".toList < codeDepth ("require".toList ++ '(' :: u))
      (by decide +kernel) hu
  · decide +kernel
  · decide +kernel

end Obscura.Literal
