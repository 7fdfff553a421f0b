import Obscura.Proofs.TruthTrees

/-
  Candidates that overlap. Trees may name one range twice, or ranges in each other. Of all
  candidates a largest selection is kept in which no two overlap, in the sense that none
  can be added (`isMaximal_thinOut`); the formulas of those kept are put in at once.
-/

namespace Obscura.Literal

open Text List

/-- The range lies in the bytes and is not empty, and the literal is the text in it. -/
structure ByteSwap.Fits (bytes : Bytes) (x : ByteSwap) : Prop where
  lt : x.start < x.stop
  le : x.stop ≤ bytes.length
  literal : x.literal = textIn bytes x.start x.stop

/-- The ranges have a byte in common. -/
def ByteSwap.Overlaps (x y : ByteSwap) : Prop :=
  x.start < y.stop ∧ y.start < x.stop

instance (x y : ByteSwap) : Decidable (x.Overlaps y) :=
  inferInstanceAs (Decidable (_ ∧ _))

/-- The ranges kept are some of the candidates, from left to right and apart, and each of
the other candidates overlaps one of them. -/
structure IsMaximal (xs kept : List ByteSwap) : Prop where
  apart : kept.Pairwise fun x y => x.stop ≤ y.start
  rest : ∃ dropped, xs.Perm (kept ++ dropped) ∧ ∀ x ∈ dropped, ∃ y ∈ kept, x.Overlaps y

theorem fits_drawSwaps {bytes : Bytes} {ns : List TruthNode} {d : Draws} {x : ByteSwap}
    (hx : x ∈ (drawSwaps bytes ns d).1) : x.Fits bytes := by
  obtain ⟨node, -, hswaps⟩ := exists_of_mem_drawSwaps hx
  obtain ⟨hlt, hle⟩ := candidateRange_lt hswaps.range
  exact ⟨hlt, hle, hswaps.literal⟩

section Fits

variable {bytes : Bytes} {xs : List ByteSwap} (hxs : ∀ x ∈ xs, x.Fits bytes)

include hxs

theorem isMaximal_thinOut : IsMaximal xs (thinOut xs) where
  apart := pairwise_thinOut fun x hx => (hxs x hx).lt
  rest := by
    have hsorted := mergeSort_perm xs ByteSwap.precedes
    obtain ⟨dropped, hperm⟩ := (keepApart_sublist 0 (xs.mergeSort ByteSwap.precedes)).exists_perm_append
    refine ⟨dropped, hsorted.symm.trans hperm, fun x hx => ?_⟩
    have hmem : x ∈ xs := hsorted.subset (hperm.symm.subset (mem_append_right _ hx))
    obtain ⟨y, hy, hle, hlt⟩ := exists_thinOut (fun z hz => (hxs z hz).lt) hmem
    exact ⟨y, hy, hlt, Nat.lt_of_le_of_lt hle (hxs x hmem).lt⟩

theorem applySwaps_thinOut :
    applySwaps bytes (thinOut xs) = patched 0 bytes ((thinOut xs).map ByteSwap.patch) := by
  have hin : ∀ x ∈ thinOut xs, x.start ≤ x.stop ∧ x.stop ≤ bytes.length := fun x hx =>
    ⟨Nat.le_of_lt (hxs x (mem_thinOut hx)).lt, (hxs x (mem_thinOut hx)).le⟩
  exact (applySwaps_eq_patched hin (isMaximal_thinOut hxs).apart).2

theorem pairwise_listed :
    ((thinOut xs).reverse.map ByteSwap.listed).Pairwise fun o o' => o'.start < o.start := by
  rw [pairwise_map, pairwise_reverse]
  refine (isMaximal_thinOut hxs).apart.imp_of_mem fun {x y} hx _ hle => ?_
  exact Nat.lt_of_lt_of_le (hxs x (mem_thinOut hx)).lt hle

theorem literal_of_listed {o : Swap} (ho : o ∈ (thinOut xs).reverse.map ByteSwap.listed) :
    o.literal = textIn bytes o.start o.stop := by
  obtain ⟨x, hx, rfl⟩ := mem_map.1 ho
  exact (hxs x (mem_thinOut (mem_reverse.1 hx))).literal

end Fits

/-- **Candidates are thinned out and swapped at once.** Whatever the candidates are, those
kept are apart and no other one can be added; the bytes become those in which exactly the
ranges kept are replaced; and the swaps are listed from the last to the first, each with the
text that stood in its range. The pass does this with the candidates that it draws formulas
for, which all fit. -/
theorem thinOut_swaps_at_once {bytes : Bytes} {xs : List ByteSwap} (hxs : ∀ x ∈ xs, x.Fits bytes) :
    IsMaximal xs (thinOut xs) ∧
    applySwaps bytes (thinOut xs) = patched 0 bytes ((thinOut xs).map ByteSwap.patch) ∧
    (((thinOut xs).reverse.map ByteSwap.listed).Pairwise fun o o' => o'.start < o.start) ∧
    (∀ o ∈ (thinOut xs).reverse.map ByteSwap.listed, o.literal = textIn bytes o.start o.stop) ∧
    ∀ ns d, (∀ x ∈ (drawSwaps bytes ns d).1, x.Fits bytes) ∧ ((drawSwaps bytes ns d).1 = xs →
      (swapInBytes bytes ns d).1 =
        (applySwaps bytes (thinOut xs), (thinOut xs).reverse.map ByteSwap.listed)) := by
  refine ⟨isMaximal_thinOut hxs, applySwaps_thinOut hxs, pairwise_listed hxs, fun o => literal_of_listed hxs,
    fun ns d => ⟨fun x => fits_drawSwaps, ?_⟩⟩
  rintro rfl
  rfl

/-- A range named twice, one that runs into two others, and one that touches. -/
def crowded : List ByteSwap :=
  [⟨2, 6, "uefa".toList, "(1)".toList⟩, ⟨4, 9, "false".toList, "(2)".toList⟩,
    ⟨0, 4, "true".toList, "(3)".toList⟩,
    ⟨0, 4, "true".toList, "(4)".toList⟩, ⟨0, 2, "tr".toList, "(5)".toList⟩]

theorem thinOut_swaps_crowded : (∀ x ∈ crowded, x.Fits (encode "truefalse".toList)) ∧
    IsMaximal crowded
      [⟨0, 4, "true".toList, "(3)".toList⟩, ⟨4, 9, "false".toList, "(2)".toList⟩] ∧
    applySwaps (encode "truefalse".toList) (thinOut crowded) = encode "(3)(2)".toList := by
  have hfits : ∀ x ∈ crowded, x.Fits (encode "truefalse".toList) := by
    simp only [crowded, List.forall_mem_cons]
    exact ⟨⟨by decide, by decide, by decide +kernel⟩, ⟨by decide, by decide, by decide +kernel⟩,
      ⟨by decide, by decide, by decide +kernel⟩, ⟨by decide, by decide, by decide +kernel⟩,
      ⟨by decide, by decide, by decide +kernel⟩, nofun⟩
  have hkept : thinOut crowded =
      [⟨0, 4, "true".toList, "(3)".toList⟩, ⟨4, 9, "false".toList, "(2)".toList⟩] := by
    simp [thinOut, crowded, List.mergeSort, List.MergeSort.Internal.splitInTwo, ByteSwap.precedes, keepApart]
  obtain ⟨hmaximal, happly, -⟩ := thinOut_swaps_at_once hfits
  refine ⟨hfits, hkept ▸ hmaximal, ?_⟩
  rw [happly, hkept]
  decide

end Obscura.Literal
