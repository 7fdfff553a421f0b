import Obscura.Proofs.Patch
import Obscura.Proofs.Utf8

/-
  Edits of bytes that do not overlap. Put in from the last to the first, they
  replace their pieces all at once (`glueAll_eq_patched`). Edits that start at one
  position are put in as they were given, so that an insertion comes to stand in
  front of a piece that starts there if it was given behind it
  (`exists_cutAll_eq_patched`). If all edits begin and end with characters of a text,
  the result is a text again (`exists_encode_patched`).
-/

namespace Obscura.Text.Edit

open List

variable {l edits : List Edit}

/-- The pieces of two edits do not overlap, and if they start alike, the one given
later is an insertion. -/
def Fits (e f : Edit) : Prop :=
  (e.stop ≤ f.start ∨ f.stop ≤ e.start) ∧ (e.start = f.start → f.stop = f.start)

def patch (e : Edit) : Patch UInt8 :=
  ⟨e.start.toNat, e.stop.toNat, e.text⟩

/-- The edits as pieces, from left to right. -/
def patches (edits : List Edit) : List (Patch UInt8) :=
  (ordered edits).reverse.map patch

/-! ## The order of edits -/

theorem ordered_perm : (ordered edits).Perm edits := mergeSort_perm edits _

theorem filter_ordered (a : Int) :
    (ordered edits).filter (fun e => e.start = a) = edits.filter fun e => e.start = a := by
  have hsame : (edits.filter fun e => e.start = a).Pairwise
      fun e f => decide (f.start ≤ e.start) = true := by
    refine pairwise_of_forall_mem_list fun e he f hf => decide_eq_true ?_
    exact Int.le_of_eq ((of_decide_eq_true (mem_filter.1 hf).2).trans
      (of_decide_eq_true (mem_filter.1 he).2).symm)
  have hsub := (sublist_mergeSort (later_trans start) (later_total start) hsame
    filter_sublist).filter fun e => decide (e.start = a)
  rw [filter_filter] at hsub
  simp only [Bool.and_self] at hsub
  exact (hsub.eq_of_length (ordered_perm.filter _).length_eq.symm).symm

theorem pairwise_of_filter {R : Edit → Edit → Prop}
    (h : ∀ a, (l.filter fun e => e.start = a).Pairwise R) :
    l.Pairwise fun e f => e.start = f.start → R e f := by
  induction l with
  | nil => exact .nil
  | cons e l ih =>
    refine .cons ?_ (ih fun a => (h a).sublist ((sublist_cons_self e l).filter _))
    intro f hf heq
    have hstart := h e.start
    rw [filter_cons, if_pos (decide_eq_true rfl)] at hstart
    exact (pairwise_cons.1 hstart).1 f (mem_filter.2 ⟨hf, decide_eq_true heq.symm⟩)

theorem pairwise_ordered_stop (hle : ∀ e ∈ edits, e.start ≤ e.stop)
    (h : edits.Pairwise Fits) : (ordered edits).Pairwise fun a b => b.stop ≤ a.start := by
  have hclear : (ordered edits).Pairwise fun a b => a.stop ≤ b.start ∨ b.stop ≤ a.start := by
    refine (ordered_perm.pairwise_iff fun {a b} hab => hab.symm).2 ?_
    exact h.imp fun hef => hef.1
  have htie : (ordered edits).Pairwise fun a b => a.start = b.start → b.stop = b.start := by
    refine pairwise_of_filter fun a => ?_
    rw [filter_ordered]
    refine (h.sublist filter_sublist).imp_of_mem fun he hf hef => hef.2 ?_
    exact (of_decide_eq_true (mem_filter.1 he).2).trans
      (of_decide_eq_true (mem_filter.1 hf).2).symm
  refine (hclear.and (htie.and (pairwise_later start edits))).imp_of_mem ?_
  rintro a b ha hb ⟨hab, hsame, hlater⟩
  have := hle a (ordered_perm.subset ha)
  have := hle b (ordered_perm.subset hb)
  -- either the second starts earlier, and then it also ends earlier, or it inserts at that place
  rcases Int.lt_or_eq_of_le hlater with hlt | heq
  · rcases hab with hab | hab <;> omega
  · have := hsame heq.symm
    omega

/-! ## Edits as pieces -/

theorem mem_patches {x : Patch UInt8} :
    x ∈ patches edits ↔ ∃ e ∈ edits, e.patch = x := by
  rw [patches, mem_map]
  simp only [mem_reverse, ordered_perm.mem_iff]

theorem patches_nil : patches [] = [] := by
  rw [patches, ordered, mergeSort_nil]
  rfl

section Pieces

variable {s : Bytes} {edits : List Edit}
  (hin : ∀ e ∈ edits, 0 ≤ e.start ∧ e.start ≤ e.stop ∧ e.stop ≤ s.length) (h : edits.Pairwise Fits)

include hin h

theorem inOrder_patches : InOrder s.length 0 (patches edits) := by
  refine inOrder_of_pairwise ?_ ?_ (fun _ _ => Nat.zero_le _) (Nat.zero_le _)
  · intro x hx
    obtain ⟨e, he, rfl⟩ := mem_patches.1 hx
    have := hin e he
    show e.start.toNat ≤ e.stop.toNat ∧ e.stop.toNat ≤ s.length
    omega
  · rw [patches, pairwise_map, pairwise_reverse]
    refine (pairwise_ordered_stop (fun e he => (hin e he).2.1) h).imp fun hab => ?_
    show Int.toNat _ ≤ Int.toNat _
    omega

theorem foldl_ordered_eq_patched {f : Bytes → Edit → Bytes}
    (hf : ∀ (t : Bytes) (e : Patch UInt8), e.start ≤ e.stop → e.stop ≤ t.length →
      f t ⟨e.start, e.stop, e.text⟩ = e.put t) : (ordered edits).foldl f s = patched 0 s (patches edits) := by
  rw [← foldl_reverse_eq_patched hf (inOrder_patches hin h), patches, ← map_reverse, reverse_reverse,
    foldl_map]
  refine foldl_ext _ _ _ fun t e he => ?_
  have := hin e (ordered_perm.subset he)
  rw [patch, Int.toNat_of_nonneg this.1, Int.toNat_of_nonneg (by omega)]

/-- **Edits that do not overlap** are put in all at once. -/
theorem glueAll_eq_patched : glueAll s edits = patched 0 s (patches edits) :=
  foldl_ordered_eq_patched hin h fun _ _ => bracket_eq_put

end Pieces

/-! ## Cutting -/

/-- The pieces of two edits do not overlap. -/
def Apart (e f : Edit) : Prop :=
  e.stop ≤ f.start ∨ f.stop ≤ e.start

instance (e f : Edit) : Decidable (e.Apart f) :=
  inferInstanceAs (Decidable (_ ∨ _))

/-- The edit takes out nothing and puts in nothing. -/
def isIdle (e : Edit) : Bool :=
  e.start == e.stop && e.text.isEmpty

theorem cut_eq_put {e : Patch UInt8} (h : e.start ≤ e.stop) (hs : e.stop ≤ s.length) :
    cut s ⟨e.start, e.stop, e.text⟩ = e.put s := by
  rw [cut_eq_glue h hs, glue, bracket_eq_put h hs]

theorem cut_of_isIdle {e : Edit} (hpos : 0 ≤ e.start) (h : e.isIdle) (s : Bytes) : cut s e = s := by
  obtain ⟨hstop, htext⟩ := (Bool.and_eq_true _ _).mp h
  have hstop : e.stop = e.start := (beq_iff_eq.1 hstop).symm
  have htext : e.text = [] := isEmpty_iff.1 htext
  by_cases hle : e.start ≤ s.length
  · have hput := cut_eq_put (s := s) (e := ⟨e.start.toNat, e.start.toNat, []⟩) (Nat.le_refl _) (by
      show e.start.toNat ≤ s.length
      omega)
    rw [Int.toNat_of_nonneg hpos] at hput
    obtain ⟨start, stop, text⟩ := e
    obtain rfl : stop = start := hstop
    obtain rfl : text = [] := htext
    exact hput.trans (take_append_drop _ s)
  · rw [cut, if_neg hle]

section Pieces

variable {s : Bytes} {edits : List Edit}
  (hin : ∀ e ∈ edits, 0 ≤ e.start ∧ e.start ≤ e.stop ∧ e.stop ≤ s.length)

include hin

theorem cutAll_eq_patched (h : edits.Pairwise Fits) : cutAll s edits = patched 0 s (patches edits) :=
  foldl_ordered_eq_patched hin h fun _ _ => cut_eq_put

theorem cutAll_eq_filter : cutAll s edits = ((ordered edits).filter fun e => !e.isIdle).foldl cut s := by
  rw [foldl_filter, cutAll]
  refine foldl_ext _ _ _ fun t e he => ?_
  cases hidle : e.isIdle with
  | false => rfl
  | true => exact cut_of_isIdle (hin e (ordered_perm.subset he)).1 hidle t

end Pieces

theorem eq_of_filter {l' : List Edit} (hl : l.Pairwise fun a b => b.start ≤ a.start)
    (hl' : l'.Pairwise fun a b => b.start ≤ a.start)
    (h : ∀ a, (l.filter fun e => e.start = a) = l'.filter fun e => e.start = a) : l = l' := by
  have hmem (e : Edit) : e ∈ l ↔ e ∈ l' := by
    have := congrArg (e ∈ ·) (h e.start)
    simpa using this
  induction l generalizing l' with
  | nil => exact (eq_nil_iff_forall_not_mem.2 fun e he => not_mem_nil ((hmem e).2 he)).symm
  | cons e l ih =>
    cases l' with
    | nil => exact absurd ((hmem e).1 mem_cons_self) not_mem_nil
    | cons e' l' =>
      obtain ⟨hfirst, hrest⟩ := pairwise_cons.1 hl
      obtain ⟨hfirst', hrest'⟩ := pairwise_cons.1 hl'
      -- each of the two heads starts latest, so they start alike and are the first of their start
      have hle {x : Edit} {xs : List Edit} (hx : ∀ y ∈ xs, y.start ≤ x.start) :
          ∀ y ∈ x :: xs, y.start ≤ x.start := fun y hy =>
        (mem_cons.1 hy).elim (fun heq => heq ▸ Int.le_refl _) (hx y)
      have hstart : e.start = e'.start := Int.le_antisymm
        (hle hfirst' e ((hmem e).1 mem_cons_self)) (hle hfirst e' ((hmem e').2 mem_cons_self))
      have hsame := h e.start
      rw [filter_cons, if_pos (decide_eq_true rfl), filter_cons, if_pos (decide_eq_true hstart.symm)]
        at hsame
      obtain rfl : e = e' := (cons.inj hsame).1
      have htail (a : Int) : (l.filter fun e => e.start = a) = l'.filter fun e => e.start = a := by
        by_cases ha : e.start = a
        · exact ha ▸ (cons.inj hsame).2
        · have hother := h a
          rwa [filter_cons_of_neg (by simpa using ha), filter_cons_of_neg (by simpa using ha)]
            at hother
      refine congrArg (e :: ·) (ih hrest hrest' htail fun f => ?_)
      have := congrArg (f ∈ ·) (htail f.start)
      simpa using this

/-- **Edits that lie apart** are put in all at once if behind one that only inserts
none is given that takes something out. -/
theorem exists_cutAll_eq_patched
    (hin : ∀ e ∈ edits, 0 ≤ e.start ∧ e.start ≤ e.stop ∧ e.stop ≤ s.length)
    (hapart : edits.Pairwise Apart)
    (hlast : edits.Pairwise fun e f => e.start = e.stop → e.text ≠ [] → f.start = f.stop) :
    ∃ es, es.Perm (edits.map patch) ∧ InOrder s.length 0 es ∧ cutAll s edits = patched 0 s es := by
  -- edits that do nothing are given last, so that they come to stand before what starts with them
  obtain ⟨edits', hdef⟩ : ∃ edits', edits' = (edits.filter fun e => !e.isIdle) ++ edits.filter isIdle :=
    ⟨_, rfl⟩
  have hperm : edits'.Perm edits := by
    rw [hdef]
    exact perm_append_comm.trans (filter_append_perm isIdle edits)
  have hin' : ∀ e ∈ edits', 0 ≤ e.start ∧ e.start ≤ e.stop ∧ e.stop ≤ s.length := fun e he =>
    hin e (hperm.subset he)
  have hclear : edits'.Pairwise Apart :=
    (hperm.pairwise_iff fun {e f} h => Or.symm h).2 hapart
  have htie : edits'.Pairwise fun e f => e.Apart f → e.start = f.start → f.stop = f.start := by
    have hidle {f : Edit} (hf : f ∈ edits.filter isIdle) : f.stop = f.start := by
      have := (mem_filter.1 hf).2
      rw [isIdle, Bool.and_eq_true, beq_iff_eq] at this
      exact this.1.symm
    rw [hdef, pairwise_append]
    refine ⟨?_, ?_, ?_⟩
    · refine (hlast.sublist filter_sublist).imp_of_mem fun {e f} he hf hef hef' hstart => ?_
      have hbusy : e.start = e.stop → e.text ≠ [] := by
        simpa [isIdle, Decidable.imp_iff_not_or] using (mem_filter.1 he).2
      have hle := hin f (mem_of_mem_filter hf)
      rcases hef' with hstop | hstop
      · have hle' := hin e (mem_of_mem_filter he)
        have heq : e.start = e.stop := by omega
        exact (hef heq (hbusy heq)).symm
      · omega
    · exact pairwise_of_forall_mem_list fun e _ f hf _ _ => hidle hf
    · exact fun e _ f hf _ _ => hidle hf
  have hfits : edits'.Pairwise Fits := (hclear.and htie).imp fun h => ⟨h.1, h.2 h.1⟩
  refine ⟨patches edits', ?_, inOrder_patches hin' hfits, ?_⟩
  · refine Perm.map patch ?_
    exact (reverse_perm _).trans (ordered_perm.trans hperm)
  · rw [← cutAll_eq_patched hin' hfits, cutAll_eq_filter hin, cutAll_eq_filter hin']
    congr 1
    refine eq_of_filter ((pairwise_later start edits).sublist filter_sublist)
      ((pairwise_later start edits').sublist filter_sublist) fun a => ?_
    have hstart (l : List Edit) : ((ordered l).filter fun e => !e.isIdle).filter (fun e => e.start = a) =
        (l.filter fun e => !e.isIdle).filter fun e => e.start = a := by
      rw [filter_comm, filter_ordered, filter_comm]
    show filter _ (filter _ (ordered edits)) = filter _ (filter _ (ordered edits'))
    rw [hstart, hstart, hdef, filter_append, filter_filter, filter_filter]
    simp

/-! ## Edits of texts -/

theorem exists_encode_patched {t : Chars} {p : Nat} {es : List (Patch UInt8)}
    (hes : InOrder (p + (encode t).length) p es)
    (hends : ∀ e ∈ es, IsEnd t (e.start - p) ∧ IsEnd t (e.stop - p))
    (htext : ∀ e ∈ es, ∃ x, e.text = encode x) : ∃ y, patched p (encode t) es = encode y := by
  induction es generalizing p t with
  | nil => exact ⟨t, rfl⟩
  | cons e es ih =>
    obtain ⟨hp, hle, hrest⟩ := hes
    obtain ⟨⟨u, v, hu, hstart⟩, u', v', rfl, hstop⟩ := hends e mem_cons_self
    obtain ⟨x, hx⟩ := htext e mem_cons_self
    have htake : (encode (u' ++ v')).take (e.start - p) = encode u := by
      rw [hu, encode_append, ← hstart, take_left]
    have hdrop : (encode (u' ++ v')).drop (e.stop - p) = encode v' := by
      rw [encode_append, ← hstop, drop_left]
    have hlen : p + (encode (u' ++ v')).length = e.stop + (encode v').length := by
      rw [encode_append, length_append]
      omega
    rw [hlen] at hrest
    have hends' : ∀ f ∈ es, IsEnd v' (f.start - e.stop) ∧ IsEnd v' (f.stop - e.stop) := by
      intro f hf
      obtain ⟨hfirst, hlast⟩ := hends f (.tail _ hf)
      have hbehind := hrest.le_start hf
      have hfirst' := hfirst.drop (by omega)
      have hlast' := hlast.drop (by omega)
      rw [hstop, Nat.sub_sub, Nat.add_sub_cancel' (Nat.le_trans hp hle)] at hfirst' hlast'
      exact ⟨hfirst', hlast'⟩
    obtain ⟨y, hy⟩ := ih hrest hends' fun f hf => htext f (.tail _ hf)
    refine ⟨u ++ (x ++ y), ?_⟩
    rw [patched, htake, hdrop, hy, hx, encode_append, encode_append]

end Obscura.Text.Edit
