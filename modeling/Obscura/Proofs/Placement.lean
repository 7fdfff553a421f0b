import Obscura.Proofs.Expression.Scan
import Obscura.Proofs.Patch
import Obscura.Proofs.Utf8
import Obscura.Storage.Grouping

/-
  Ranges of bytes and the texts that they hold. A range that holds a text begins
  and ends with characters; a range inside of another one holds a part of its text
  (`Range.Holds.within`). New declarations go behind a line feed or an opening
  brace (`insertionPoint?_behind`), so never into the middle of a name.
-/

namespace Obscura.Ast

open Text
open List hiding findIdx?

/-- The ranges have no byte in common. -/
def Range.Apart (r x : Range) : Prop :=
  r.stop ≤ x.start ∨ x.stop ≤ r.start

/-- The first range is part of the second. -/
def Range.Within (r x : Range) : Prop :=
  x.start ≤ r.start ∧ r.stop ≤ x.stop

instance (r x : Range) : Decidable (r.Apart x) :=
  inferInstanceAs (Decidable (_ ∨ _))

instance (r x : Range) : Decidable (r.Within x) :=
  inferInstanceAs (Decidable (_ ∧ _))

/-- The bytes of the range in the source encode the text. -/
def Range.Holds (r : Range) (source t : Chars) : Prop :=
  ∃ u v, source = u ++ (t ++ v) ∧ r.start = (encode u).length ∧
    r.stop = ((encode u).length + (encode t).length : Nat)

namespace Range

variable {r x : Range} {source t w : Chars}

theorem Apart.symm (h : r.Apart x) : x.Apart r := Or.symm h

theorem Holds.bounds (h : r.Holds source t) :
    0 ≤ r.start ∧ r.start ≤ r.stop ∧ r.stop ≤ (encode source).length := by
  obtain ⟨u, v, rfl, hstart, hstop⟩ := h
  rw [hstart, hstop, encode_append, encode_append, length_append, length_append]
  omega

theorem Holds.slice_eq (h : r.Holds source t) : slice (encode source) r.start r.stop = encode t := by
  obtain ⟨u, v, rfl, hstart, hstop⟩ := h
  rw [hstart, hstop, encode_append, encode_append]
  exact slice_middle _ _ _

theorem Holds.isEnd (h : r.Holds source t) : IsEnd source r.start.toNat ∧ IsEnd source r.stop.toNat := by
  obtain ⟨u, v, rfl, hstart, hstop⟩ := h
  rw [hstart, hstop, Int.toNat_natCast, Int.toNat_natCast]
  refine ⟨isEnd_of_append, u ++ t, v, (append_assoc u t v).symm, ?_⟩
  rw [encode_append, length_append]

theorem Holds.unique (h : r.Holds source t) (hw : r.Holds source w) : t = w :=
  encode_injective (h.slice_eq.symm.trans hw.slice_eq)

theorem Holds.lt (h : r.Holds source t) (ht : t ≠ []) : r.start < r.stop := by
  obtain ⟨u, v, rfl, hstart, hstop⟩ := h
  have hne : encode t ≠ [] := fun hnil => ht (encode_injective (u := []) hnil)
  have := length_pos_of_ne_nil hne
  omega

theorem Holds.within (h : r.Holds source w) (hx : x.Holds source t) (hin : r.Within x) :
    ∃ a b, t = a ++ (w ++ b) := by
  obtain ⟨u, v, hsource, hstart, hstop⟩ := h
  obtain ⟨u', v', rfl, hstart', hstop'⟩ := hx
  obtain ⟨hfirst, hlast⟩ := hin
  obtain ⟨a, rfl, hrest⟩ := exists_append_of_le hsource (by omega)
  rw [encode_append, length_append] at hstop
  have hle : (encode (a ++ w)).length ≤ (encode t).length := by
    rw [encode_append, length_append]
    omega
  obtain ⟨b, ht, -⟩ := exists_append_of_le ((append_assoc a w v).trans hrest.symm) hle
  exact ⟨a, b, by rw [ht, append_assoc]⟩

/-- An ASCII byte inside of a range is that of a character of its text. -/
theorem Holds.exists_char (h : r.Holds source t) {n : Nat} {b : UInt8}
    (hn : (encode source)[n]? = some b) (hb : b.toNat < 128) (hstart : r.start ≤ n) (hstop : n < r.stop) :
    ∃ c ∈ t, c.toNat = b.toNat := by
  obtain ⟨u, v, rfl, hu, hv⟩ := h
  rw [encode_append, getElem?_append_right (by omega), encode_append,
    getElem?_append_left (by omega)] at hn
  exact exists_char_of_ascii (mem_of_getElem? hn) hb

end Range

end Obscura.Ast

namespace Obscura.Storage

open Text Ast
open List hiding findIdx?

variable {j k : Nat} {p s : Bytes}

theorem getElem?_of_slice {i m : Nat} {j : Int} {b : UInt8}
    (h : (slice s i j)[m]? = some b) : s[i + m]? = some b := by
  have hlt : place s.length i < s.length := by
    obtain ⟨hm, -⟩ := List.getElem?_eq_some_iff.1 h
    rw [slice, length_drop, length_take] at hm
    omega
  have hplace : place s.length i = i := by
    rw [place_ofNat] at hlt ⊢
    omega
  rw [slice, hplace, getElem?_drop, getElem?_take] at h
  split at h
  · exact h
  · cases h

theorem exists_append_of_findIdx? (h : findIdx? p s = some k) :
    ∃ u v, s = u ++ (p ++ v) ∧ u.length = k := by
  induction s generalizing k with
  | nil =>
    rw [findIdx?] at h
    split at h
    · rename_i hp
      cases h
      exact ⟨[], [], by rw [isEmpty_iff.1 hp]; rfl, rfl⟩
    · cases h
  | cons c s ih =>
    rw [findIdx?] at h
    split at h
    · rename_i hstart
      cases h
      obtain ⟨v, hv⟩ := Option.isSome_iff_exists.1 hstart
      exact ⟨[], v, (stripFront?_eq_some_iff (p := p)).1 hv, rfl⟩
    · obtain ⟨m, hm, rfl⟩ := Option.map_eq_some_iff.1 h
      obtain ⟨u, v, rfl, rfl⟩ := ih hm
      exact ⟨c :: u, v, rfl, rfl⟩

theorem getElem?_of_findIdx? {b : UInt8} (h : findIdx? p s = some k)
    (hb : p[j]? = some b) : s[k + j]? = some b := by
  obtain ⟨u, v, rfl, rfl⟩ := exists_append_of_findIdx? h
  obtain ⟨hj, -⟩ := List.getElem?_eq_some_iff.1 hb
  rw [getElem?_append_right (by omega), Nat.add_sub_cancel_left, getElem?_append_left hj, hb]

theorem getElem?_of_findBytes? {i : Int} {b : UInt8}
    (h : findBytes? p s i = some k) (hb : p[j]? = some b) :
    place s.length i ≤ k ∧ s[k + j]? = some b := by
  rw [findBytes?, findFrom?, if_pos (place_le _ _)] at h
  obtain ⟨m, hm, rfl⟩ := Option.map_eq_some_iff.1 h
  have hfound := getElem?_of_findIdx? hm hb
  rw [getElem?_drop, ← Nat.add_assoc, Nat.add_comm _ m] at hfound
  exact ⟨by omega, hfound⟩

/-- **New declarations go behind** a line feed or an opening brace. -/
theorem insertionPoint?_behind {source : Chars} {ms : Members} {p : Int}
    (hplaced : ∀ r ∈ rangeOf? ms, ∃ t, r.Holds source t)
    (h : insertionPoint? (encode source) ms = some p) :
    ∃ (n : Nat) (b : UInt8), p = n + 1 ∧ (encode source)[n]? = some b ∧ (b = 10 ∨ b = 123) := by
  obtain ⟨r, hr⟩ : ∃ r, rangeOf? ms = some r := by
    cases hr : rangeOf? ms with
    | none =>
      rw [insertionPoint?, hr] at h
      cases h
    | some r => exact ⟨r, rfl⟩
  obtain ⟨t, u, v, -, hu, -⟩ := hplaced r hr
  rw [insertionPoint?, hr] at h
  dsimp only at h
  split at h
  · cases h
  · rename_i k hk
    cases h
    have hbrace := getElem?_of_findIdx? (j := 0) hk rfl
    rw [hu] at hbrace ⊢
    have hbrace := getElem?_of_slice hbrace
    generalize hn : (encode u).length + k = n at hbrace
    have hcast : ((encode u).length : Int) + k + 1 = (n + 1 : Nat) := by omega
    rw [hcast, nextLine]
    split
    · rename_i hline
      have hfeed : (slice (encode source) (n + 1 : Nat) ((n + 1 : Nat) + 2))[1]? = some 10 := by
        rw [hline]
        rfl
      exact ⟨n + 1 + 1, 10, by omega, getElem?_of_slice hfeed, .inl rfl⟩
    split
    · rename_i hline
      have hfeed : (slice (encode source) (n + 1 : Nat) ((n + 1 : Nat) + 1))[0]? = some 10 := by
        rw [hline]
        rfl
      exact ⟨n + 1 + 0, 10, by omega, getElem?_of_slice hfeed, .inl rfl⟩
    split
    · rename_i j hj
      exact ⟨j, 10, rfl, (getElem?_of_findBytes? (j := 0) hj rfl).2, .inl rfl⟩
    · exact ⟨n, 123, by omega, hbrace, .inr rfl⟩

section Behind

variable {source w : Chars} {n : Nat} {b : UInt8} (hn : (encode source)[n]? = some b)
  (hb : b = 10 ∨ b = 123)

include hn hb

theorem isEnd_of_behind : IsEnd source (n + 1) ∧ n + 1 ≤ (encode source).length := by
  refine ⟨isEnd_of_ascii hn ?_, (List.getElem?_eq_some_iff.1 hn).1⟩
  rcases hb with rfl | rfl <;> decide

theorem apart_of_name {r : Range} (h : r.Holds source w) (hw : ∀ c ∈ w, Expression.isNamePart c) :
    (n + 1 : Int) ≤ r.start ∨ r.stop ≤ n + 1 := by
  by_contra hin
  have hascii : b.toNat < 128 := by rcases hb with rfl | rfl <;> decide
  obtain ⟨c, hc, hcb⟩ := h.exists_char hn hascii (by omega) (by omega)
  have hpart := hw c hc
  have hchar : c = Char.ofNat b.toNat := by rw [← hcb, Char.ofNat_toNat]
  rw [hchar] at hpart
  rcases hb with rfl | rfl
  · exact absurd hpart (by decide)
  · exact absurd hpart (by decide)

end Behind

end Obscura.Storage
