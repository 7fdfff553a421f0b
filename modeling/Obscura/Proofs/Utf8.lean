import Obscura.Text.Utf8

/-
  Bytes of a text and back. A text is what its bytes are read as (`decode?_encode`),
  and bytes that are read are those of the text (`encode_of_decode?`).
-/

namespace Obscura.Text

open List

variable {acc k n : Nat} {b lead : UInt8} {s r : Bytes} {t u v : Chars} {c : Char}

theorem encode_append (s t : Chars) : encode (s ++ t) = encode s ++ encode t := flatMap_append

/-! ## Numbers of bytes -/

theorem toNat_ofNat_of_lt (h : n < 256) : (UInt8.ofNat n).toNat = n := by
  simp [Nat.mod_eq_of_lt h]

theorem ofNat_toNat (b : UInt8) : UInt8.ofNat b.toNat = b := by
  simp

theorem toNat_lt_of_byte : b.toNat < 256 := b.toNat_lt

theorem length_encode_of_ascii (h : ∀ c ∈ t, c.toNat < 128) : (encode t).length = t.length := by
  induction t with
  | nil => rfl
  | cons c t ih =>
    have hc : encodeChar c = [UInt8.ofNat c.toNat] := if_pos (h c mem_cons_self)
    rw [encode, flatMap_cons, hc, length_append, ← encode,
      ih fun d hd => h d (.tail _ hd), Nat.add_comm]
    rfl

theorem length_encodeChar :
    1 ≤ (encodeChar c).length ∧ (128 ≤ c.toNat → 2 ≤ (encodeChar c).length) := by
  unfold encodeChar
  dsimp only
  split
  · exact ⟨Nat.le_refl 1, fun h => by omega⟩
  split
  · exact ⟨Nat.le_add_left 1 1, fun _ => Nat.le_refl 2⟩
  split
  · exact ⟨Nat.le_add_left 1 2, fun _ => Nat.le_add_left 2 1⟩
  · exact ⟨Nat.le_add_left 1 3, fun _ => Nat.le_add_left 2 2⟩

/-- A text has no more characters than bytes, and as many only if all are ASCII. -/
theorem length_le_encode (t : Chars) : t.length ≤ (encode t).length ∧
    ((encode t).length ≤ t.length → ∀ c ∈ t, c.toNat < 128) := by
  induction t with
  | nil => exact ⟨Nat.le_refl 0, fun _ => nofun⟩
  | cons c t ih =>
    obtain ⟨hpos, hlong⟩ := length_encodeChar (c := c)
    rw [show encode (c :: t) = encodeChar c ++ encode t from flatMap_cons, length_append,
      length_cons]
    refine ⟨by omega, fun hle d hd => ?_⟩
    rcases mem_cons.1 hd with rfl | hd
    · refine Nat.lt_of_not_le fun h => ?_
      have := hlong h
      omega
    · exact ih.2 (by omega) d hd

theorem isTail_iff : isTail b ↔ 128 ≤ b.toNat ∧ b.toNat < 192 := by
  simp [isTail]

theorem isSecond_iff : isSecond lead b ↔ (128 ≤ b.toNat ∧ b.toNat < 192) ∧
      (lead.toNat = 224 → 160 ≤ b.toNat) ∧ (lead.toNat = 237 → b.toNat < 160) ∧
      (lead.toNat = 240 → 144 ≤ b.toNat) ∧ (lead.toNat = 244 → b.toNat < 144) := by
  have hlead (k : UInt8) : lead = k ↔ lead.toNat = k.toNat := UInt8.toNat_inj.symm
  simp only [isSecond, Bool.and_eq_true, isTail_iff, Bool.not_eq_true', Bool.and_eq_false_iff,
    beq_eq_false_iff_ne, ne_eq, decide_eq_false_iff_not, Nat.not_lt, Nat.not_le, hlead]
  show _ ↔ _ ∧ (lead.toNat = (224 : UInt8).toNat → _) ∧ (lead.toNat = (237 : UInt8).toNat → _) ∧
    (lead.toNat = (240 : UInt8).toNat → _) ∧ (lead.toNat = (244 : UInt8).toNat → _)
  simp only [and_assoc, Decidable.imp_iff_not_or]

theorem toNat_valid : c.toNat < 0xD800 ∨ (0xDFFF < c.toNat ∧ c.toNat < 0x110000) :=
  c.valid

/-! ## Reading what was written -/

/-- A further byte of a character. -/
def tailByte (n : Nat) : UInt8 :=
  UInt8.ofNat (0x80 + n % 64)

theorem toNat_tailByte : (tailByte n).toNat = 0x80 + n % 64 :=
  toNat_ofNat_of_lt (by omega)

theorem readTails_cons :
    readTails (k + 1) acc (tailByte n :: r) = readTails k (acc * 64 + n % 64) r := by
  have htail : isTail (tailByte n) := by
    rw [isTail_iff, toNat_tailByte]
    omega
  rw [readTails, if_pos htail, toNat_tailByte, Nat.add_mod, Nat.mod_mod]
  simp

theorem readLong_cons {a : Nat} (ha : a < 256)
    (hE0 : a = 224 → 32 ≤ n % 64) (hED : a = 237 → n % 64 < 32) (hF0 : a = 240 → 16 ≤ n % 64)
    (hF4 : a = 244 → n % 64 < 16) :
    readLong (UInt8.ofNat a) acc k (tailByte n :: r) = readTails k (acc * 64 + n % 64) r := by
  have hsecond : isSecond (UInt8.ofNat a) (tailByte n) := by
    rw [isSecond_iff, toNat_ofNat_of_lt ha, toNat_tailByte]
    omega
  rw [readLong, if_pos hsecond, toNat_tailByte, Nat.add_mod, Nat.mod_mod]
  simp

theorem readChar_encodeChar (c : Char) (r : Bytes) :
    ∃ lead u, encodeChar c = lead :: u ∧ readChar lead (u ++ r) = (some c.toNat, r) := by
  have hvalid := toNat_valid (c := c)
  unfold encodeChar
  dsimp only
  generalize c.toNat = n at *
  split
  · refine ⟨_, [], rfl, ?_⟩
    simp [readChar, toNat_ofNat_of_lt (show n < 256 by omega), *]
  split
  · have hlead : 0xC0 + n / 64 < 256 := by omega
    refine ⟨_, [tailByte n], rfl, ?_⟩
    unfold readChar
    dsimp only
    rw [toNat_ofNat_of_lt hlead, if_neg (by omega), if_neg (by omega), if_pos (by omega),
      singleton_append, readLong_cons hlead (by omega) (by omega) (by omega) (by omega),
      readTails]
    refine Prod.ext (congrArg some ?_) rfl
    omega
  split
  · have hlead : 0xE0 + n / 4096 < 256 := by omega
    refine ⟨_, [tailByte (n / 64), tailByte n], rfl, ?_⟩
    unfold readChar
    dsimp only
    rw [toNat_ofNat_of_lt hlead, if_neg (by omega), if_neg (by omega), if_neg (by omega),
      if_pos (by omega), cons_append, singleton_append,
      readLong_cons hlead (by omega) (by omega) (by omega) (by omega), readTails_cons,
      readTails]
    refine Prod.ext (congrArg some ?_) rfl
    omega
  · have hlead : 0xF0 + n / 262144 < 256 := by omega
    refine ⟨_, [tailByte (n / 4096), tailByte (n / 64), tailByte n], rfl, ?_⟩
    unfold readChar
    dsimp only
    rw [toNat_ofNat_of_lt hlead, if_neg (by omega), if_neg (by omega), if_neg (by omega),
      if_neg (by omega), if_pos (by omega), cons_append, cons_append,
      singleton_append, readLong_cons hlead (by omega) (by omega) (by omega) (by omega),
      readTails_cons, readTails_cons, readTails]
    refine Prod.ext (congrArg some ?_) rfl
    omega

theorem readChars_encode :
    readChars (encode t ++ r) = t.map some ++ readChars r := by
  induction t with
  | nil => rfl
  | cons c t ih =>
    obtain ⟨lead, u, hc, hread⟩ := readChar_encodeChar c (encode t ++ r)
    rw [encode, flatMap_cons, hc, ← encode, cons_append, cons_append,
      append_assoc, readChars, hread, ih]
    simp [Char.ofNat_toNat]

theorem mapM_id_map_some : (t.map some).mapM id = some t := by
  induction t with
  | nil => rfl
  | cons c t ih =>
    rw [map_cons, mapM_cons, ih]
    rfl

/-- **A text is read back** from its bytes. -/
theorem decode?_encode : decode? (encode t) = some t := by
  have hread := readChars_encode (t := t) (r := [])
  rw [append_nil, readChars, append_nil] at hread
  rw [decode?, hread, mapM_id_map_some]

/-! ## Writing what was read -/

theorem toNat_ofNat_of_valid (h : n < 0xD800 ∨ (0xDFFF < n ∧ n < 0x110000)) :
    (Char.ofNat n).toNat = n := by
  rw [Char.ofNat, dif_pos h]
  rfl

theorem byte_eq_of_toNat (h : n = b.toNat) : UInt8.ofNat n = b := by
  rw [h, ofNat_toNat]

theorem readTails_some {rest : Bytes} (h : readTails (k + 1) acc s = (some n, rest)) :
    ∃ b t, s = b :: t ∧ (128 ≤ b.toNat ∧ b.toNat < 192) ∧
      readTails k (acc * 64 + b.toNat % 64) t = (some n, rest) := by
  cases s with
  | nil => cases h
  | cons b t =>
    rw [readTails] at h
    split at h
    · exact ⟨b, t, rfl, isTail_iff.1 ‹_›, h⟩
    · cases h

theorem readLong_some {rest : Bytes} (h : readLong lead acc k s = (some n, rest)) :
    ∃ b t, s = b :: t ∧ isSecond lead b ∧
      readTails k (acc * 64 + b.toNat % 64) t = (some n, rest) := by
  cases s with
  | nil => cases h
  | cons b t =>
    rw [readLong] at h
    split at h
    · exact ⟨b, t, rfl, ‹_›, h⟩
    · cases h

theorem encodeChar_of_readChar {r rest : Bytes}
    (h : readChar lead r = (some n, rest)) : encodeChar (Char.ofNat n) ++ rest = lead :: r := by
  have hlead := toNat_lt_of_byte (b := lead)
  unfold readChar at h
  dsimp only at h
  split at h
  · cases h
    rw [encodeChar, toNat_ofNat_of_valid (by omega), if_pos (by omega), ofNat_toNat]
    rfl
  split at h
  · cases h
  split at h
  · obtain ⟨b, t, rfl, hb, h⟩ := readLong_some h
    rw [isSecond_iff] at hb
    cases h
    rw [encodeChar, toNat_ofNat_of_valid (by omega), if_neg (by omega), if_pos (by omega),
      byte_eq_of_toNat (b := lead) (by omega), byte_eq_of_toNat (b := b) (by omega)]
    rfl
  split at h
  · obtain ⟨b, t, rfl, hb, h⟩ := readLong_some h
    obtain ⟨b₂, t, rfl, hb₂, h⟩ := readTails_some h
    rw [isSecond_iff] at hb
    cases h
    rw [encodeChar, toNat_ofNat_of_valid (by omega), if_neg (by omega), if_neg (by omega),
      if_pos (by omega), byte_eq_of_toNat (b := lead) (by omega), byte_eq_of_toNat (b := b) (by omega),
      byte_eq_of_toNat (b := b₂) (by omega)]
    rfl
  split at h
  · obtain ⟨b, t, rfl, hb, h⟩ := readLong_some h
    obtain ⟨b₂, t, rfl, hb₂, h⟩ := readTails_some h
    obtain ⟨b₃, t, rfl, hb₃, h⟩ := readTails_some h
    rw [isSecond_iff] at hb
    cases h
    rw [encodeChar, toNat_ofNat_of_valid (by omega), if_neg (by omega), if_neg (by omega),
      if_neg (by omega), byte_eq_of_toNat (b := lead) (by omega),
      byte_eq_of_toNat (b := b) (by omega), byte_eq_of_toNat (b := b₂) (by omega),
      byte_eq_of_toNat (b := b₃) (by omega)]
    rfl
  · cases h

/-- **Bytes that are read** are those of the text. -/
theorem encode_of_decode? (h : decode? s = some t) : encode t = s := by
  unfold decode? at h
  fun_induction readChars s generalizing t with
  | case1 =>
    cases h
    rfl
  | case2 lead r ih =>
    rw [mapM_cons] at h
    obtain ⟨c, hc, h⟩ := Option.bind_eq_some_iff.1 h
    obtain ⟨u, hu, h⟩ := Option.bind_eq_some_iff.1 h
    cases h
    obtain ⟨n, hn, rfl⟩ := Option.map_eq_some_iff.1 hc
    rw [encode, flatMap_cons, ← encode, ih hu]
    exact encodeChar_of_readChar (Prod.ext hn rfl)

/-! ## Ends of characters -/

theorem encode_injective (h : encode t = encode u) : t = u := by
  have ht := decode?_encode (t := t)
  rw [h, decode?_encode] at ht
  exact (Option.some.inj ht).symm

/-- A character of the text ends at the position in its bytes. -/
def IsEnd (t : Chars) (n : Nat) : Prop :=
  ∃ u v, t = u ++ v ∧ (encode u).length = n

theorem isEnd_of_append : IsEnd (u ++ v) (encode u).length := ⟨u, v, rfl, rfl⟩

/-- Of two beginnings of a text, the one of fewer bytes begins the other. -/
theorem exists_append_of_le {a b : Chars} (h : u ++ a = v ++ b)
    (hle : (encode u).length ≤ (encode v).length) : ∃ c, v = u ++ c ∧ a = c ++ b := by
  rcases append_eq_append_iff.1 h with ⟨c, hv, ha⟩ | ⟨c, rfl, rfl⟩
  · exact ⟨c, hv, ha⟩
  · rw [encode_append, length_append] at hle
    have hc : c = [] := encode_injective (u := []) (length_eq_zero_iff.1 (by omega))
    subst hc
    exact ⟨[], by rw [append_nil, append_nil], rfl⟩

theorem IsEnd.drop (h : IsEnd (u ++ v) n) (hn : (encode u).length ≤ n) :
    IsEnd v (n - (encode u).length) := by
  obtain ⟨a, b, heq, rfl⟩ := h
  obtain ⟨c, rfl, rfl⟩ := exists_append_of_le heq hn
  rw [encode_append, length_append, Nat.add_sub_cancel_left]
  exact isEnd_of_append

theorem le_of_mem_encodeChar {c : Char} (hc : 128 ≤ c.toNat) : ∀ b ∈ encodeChar c, 128 ≤ b.toNat := by
  have hbyte {m : Nat} (h : 128 ≤ m ∧ m < 256) : 128 ≤ (UInt8.ofNat m).toNat := by
    rw [toNat_ofNat_of_lt h.2]
    exact h.1
  have hvalid := toNat_valid (c := c)
  intro b hb
  unfold encodeChar at hb
  dsimp only at hb
  split at hb
  · omega
  split at hb
  · simp only [mem_cons, not_mem_nil, or_false] at hb
    rcases hb with rfl | rfl <;> exact hbyte (by omega)
  split at hb
  · simp only [mem_cons, not_mem_nil, or_false] at hb
    rcases hb with rfl | rfl | rfl <;> exact hbyte (by omega)
  · simp only [mem_cons, not_mem_nil, or_false] at hb
    rcases hb with rfl | rfl | rfl | rfl <;> exact hbyte (by omega)

theorem exists_char_of_ascii (h : b ∈ encode t) (hb : b.toNat < 128) : ∃ c ∈ t, c.toNat = b.toNat := by
  obtain ⟨c, hc, hbc⟩ := mem_flatMap.1 h
  have hascii : c.toNat < 128 := by
    refine Nat.lt_of_not_le fun hle => ?_
    have := le_of_mem_encodeChar hle b hbc
    omega
  rw [show encodeChar c = [UInt8.ofNat c.toNat] from if_pos hascii, mem_singleton] at hbc
  refine ⟨c, hc, ?_⟩
  rw [hbc, toNat_ofNat_of_lt (by omega)]

theorem exists_append_cons_of_ascii (h : (encode t)[n]? = some b)
    (hb : b.toNat < 128) : ∃ u c v, t = u ++ c :: v ∧ (encode u).length = n ∧ c.toNat = b.toNat := by
  induction t generalizing n with
  | nil => cases h
  | cons c t ih =>
    have hcons (u : Chars) : encode (c :: u) = encodeChar c ++ encode u := flatMap_cons
    rw [hcons] at h
    by_cases hn : n < (encodeChar c).length
    · rw [getElem?_append_left hn] at h
      obtain ⟨d, hd, hdb⟩ := exists_char_of_ascii (t := [c])
        (by rw [hcons]; exact mem_append_left _ (mem_of_getElem? h)) hb
      obtain rfl := mem_singleton.1 hd
      have hlen : (encodeChar d).length = 1 := congrArg length (if_pos (by omega))
      exact ⟨[], d, t, rfl, by rw [encode, flatMap_nil, length_nil]; omega, hdb⟩
    · rw [getElem?_append_right (Nat.not_lt.1 hn)] at h
      obtain ⟨u, d, v, rfl, hu, hdb⟩ := ih h
      refine ⟨c :: u, d, v, rfl, ?_, hdb⟩
      rw [hcons, length_append, hu]
      omega

theorem isEnd_at_ascii (h : (encode t)[n]? = some b) (hb : b.toNat < 128) : IsEnd t n := by
  obtain ⟨u, c, v, rfl, rfl, -⟩ := exists_append_cons_of_ascii h hb
  exact isEnd_of_append

theorem isEnd_of_ascii (h : (encode t)[n]? = some b) (hb : b.toNat < 128) : IsEnd t (n + 1) := by
  obtain ⟨u, c, v, rfl, rfl, hc⟩ := exists_append_cons_of_ascii h hb
  refine ⟨u ++ [c], v, by simp, ?_⟩
  rw [encode_append, length_append, length_encode_of_ascii (t := [c])]
  · rfl
  · intro d hd
    rw [mem_singleton.1 hd, hc]
    exact hb

end Obscura.Text
