import Obscura.Proofs.InsertionPoint
import Obscura.Proofs.Promotion

/-
  Declarations that turn into assignments. The range of a declaration ends before its
  semicolon. From there the end of the statement is looked for, and what is kept of the
  statement stands behind the first semicolon in it. So a declaration is rewritten as it
  should be exactly if its semicolon follows at once and no other one stands in it
  (`assignment_exact_iff`).
-/

namespace Obscura.Storage

open Text Ast Json List

/-! ## The end of a statement -/

theorem byteAt?_natCast (s : Bytes) (n : Nat) : byteAt? s n = s[n]? := by
  have hcast : (n : Int) + 1 = (n + 1 : Nat) := rfl
  rw [byteAt?, slice, hcast, place_ofNat, place_ofNat, head?_drop, getElem?_take]
  split
  · rw [Nat.min_eq_left (by omega)]
  · rw [getElem?_eq_none (by omega)]

/-- A step of the search for the end of a statement. It passes a semicolon only
behind a slash. -/
structure Onward (source : Chars) (n m : Nat) : Prop where
  le : n ≤ m
  isEnd : IsEnd source n → IsEnd source m
  before : ∀ k, (encode source)[k]? = some 59 →
    (∀ j, n ≤ j → j ≤ k → (encode source)[j]? ≠ some 47) → n ≤ k → m ≤ k

section Steps

variable {source : Chars} {n m : Nat}

theorem Onward.refl (source : Chars) (n : Nat) : Onward source n n :=
  ⟨Nat.le_refl n, id, fun _ _ _ h => h⟩

theorem Onward.trans {o : Nat} (h : Onward source n m) (h' : Onward source m o) : Onward source n o where
  le := Nat.le_trans h.le h'.le
  isEnd hn := h'.isEnd (h.isEnd hn)
  before k hk hslash hn :=
    h'.before k hk (fun j hj => hslash j (Nat.le_trans h.le hj)) (h.before k hk hslash hn)

theorem Onward.byte {b : UInt8} (h : (encode source)[n]? = some b) (hb : b.toNat < 128) (hne : b ≠ 59) :
    Onward source n (n + 1) where
  le := Nat.le_succ n
  isEnd _ := isEnd_of_ascii h hb
  before k hk _ hn := by
    refine Nat.lt_of_le_of_ne hn fun e => hne ?_
    rw [e, hk] at h
    exact (Option.some.inj h).symm

theorem Onward.comment (h : (encode source)[n]? = some 47) (hle : n ≤ m) (hm : IsEnd source m) :
    Onward source n m :=
  ⟨hle, fun _ => hm, fun _ _ hslash hn => absurd h (hslash n (Nat.le_refl n) hn)⟩

theorem skipGaps_onward (source : Chars) (n : Nat) :
    ∃ m : Nat, skipGaps (encode source) n = m ∧ Onward source n m := by
  generalize hi : (n : Int) = i
  fun_induction skipGaps (encode source) i generalizing n with
  | case1 i h ih =>
    subst hi
    obtain ⟨m, hm, honward⟩ := ih (n + 1) rfl
    obtain ⟨b, hb, hgap⟩ : ∃ b, (encode source)[n]? = some b ∧ (b = 32 ∨ b = 9) := by
      have hgap := h.2
      rw [byteAt?_natCast, isGap, Bool.or_eq_true, beq_iff_eq, beq_iff_eq] at hgap
      exact hgap.elim (⟨32, ·, .inl rfl⟩) (⟨9, ·, .inr rfl⟩)
    refine ⟨m, hm, (Onward.byte hb ?_ ?_).trans honward⟩
    all_goals rcases hgap with rfl | rfl <;> decide
  | case2 i h => exact ⟨n, hi.symm, .refl source n⟩

theorem getElem?_of_slice_eq {s : Bytes} {a b : UInt8} (h : slice s n (n + 2) = [a, b]) :
    s[n]? = some a ∧ s[n + 1]? = some b :=
  ⟨getElem?_of_slice (m := 0) (by rw [h]; rfl), getElem?_of_slice (m := 1) (by rw [h]; rfl)⟩

theorem isEnd_length (source : Chars) : IsEnd source (encode source).length :=
  ⟨source, [], (append_nil source).symm, rfl⟩

theorem skipComment_onward (source : Chars) (n : Nat) :
    ∃ m : Nat, skipComment (encode source) n = m ∧ Onward source n m := by
  rw [skipComment]
  split
  · rename_i hlt
    have hlast := isEnd_length source
    split
    · rename_i hline
      have hslash := (getElem?_of_slice_eq hline).1
      split
      · rename_i j hj
        obtain ⟨hle, hfeed⟩ := getElem?_of_findBytes? (j := 0) hj rfl
        rw [place_ofNat] at hle
        exact ⟨j, rfl, .comment hslash (by omega) (isEnd_at_ascii hfeed (by decide))⟩
      · exact ⟨_, rfl, .comment hslash (by omega) hlast⟩
    split
    · rename_i hblock
      have hslash := (getElem?_of_slice_eq hblock).1
      split
      · rename_i j hj
        obtain ⟨hle, hmark⟩ := getElem?_of_findBytes? (j := 1) hj rfl
        rw [show (n : Int) + 2 = (n + 2 : Nat) from rfl, place_ofNat] at hle
        exact ⟨j + 2, rfl, .comment hslash (by omega) (isEnd_of_ascii hmark (by decide))⟩
      · exact ⟨_, rfl, .comment hslash (by omega) hlast⟩
    · exact ⟨n, rfl, .refl source n⟩
  · exact ⟨n, rfl, .refl source n⟩

theorem skipLineEnd_onward (source : Chars) (n : Nat) :
    ∃ m : Nat, skipLineEnd (encode source) n = m ∧ Onward source n m := by
  rw [skipLineEnd, byteAt?_natCast]
  split
  · split
    · rename_i hline
      obtain ⟨hreturn, hfeed⟩ := getElem?_of_slice_eq hline
      exact ⟨n + 2, rfl, (Onward.byte hreturn (by decide) (by decide)).trans
        (.byte hfeed (by decide) (by decide))⟩
    split
    · rename_i hline
      refine ⟨n + 1, rfl, ?_⟩
      rcases hline with h | h
      · exact .byte h (by decide) (by decide)
      · exact .byte h (by decide) (by decide)
    · exact ⟨n, rfl, .refl source n⟩
  · exact ⟨n, rfl, .refl source n⟩

theorem statementEnd_onward {i : Int} (h : skipSemicolon (encode source) i = n) :
    ∃ m : Nat, statementEnd (encode source) i = m ∧ Onward source n m := by
  obtain ⟨a, ha, hna⟩ := skipGaps_onward source n
  obtain ⟨b, hb, hab⟩ := skipComment_onward source a
  obtain ⟨c, hc, hbc⟩ := skipGaps_onward source b
  obtain ⟨m, hm, hcm⟩ := skipLineEnd_onward source c
  refine ⟨m, ?_, hna.trans (hab.trans (hbc.trans hcm))⟩
  rw [statementEnd, h, ha, hb, hc, hm]

theorem statementEnd_of_semicolon (h : (encode source)[n]? = some 59) :
    ∃ m : Nat, statementEnd (encode source) n = m ∧ n + 1 ≤ m ∧ IsEnd source m := by
  have hskip : skipSemicolon (encode source) n = (n + 1 : Nat) := by
    have hlt := (List.getElem?_eq_some_iff.1 h).1
    rw [skipSemicolon, byteAt?_natCast, if_pos ⟨by omega, h⟩]
    rfl
  obtain ⟨m, hm, honward⟩ := statementEnd_onward hskip
  exact ⟨m, hm, honward.le, honward.isEnd (isEnd_of_ascii h (by decide))⟩

/-- The search ends before a semicolon that does not follow at once. -/
theorem statementEnd_of_gap {k : Nat} (hn : IsEnd source n) (hk : (encode source)[k]? = some 59) (hnk : n < k)
    (hgap : ∀ j, n ≤ j → j < k → (encode source)[j]? ≠ some 47 ∧ (encode source)[j]? ≠ some 59) :
    ∃ m : Nat, statementEnd (encode source) n = m ∧ n ≤ m ∧ m ≤ k ∧ IsEnd source m := by
  have hskip : skipSemicolon (encode source) n = n := by
    rw [skipSemicolon, byteAt?_natCast, if_neg fun h => (hgap n (Nat.le_refl n) hnk).2 h.2]
  obtain ⟨m, hm, honward⟩ := statementEnd_onward hskip
  refine ⟨m, hm, honward.le, honward.before k hk (fun j hj hjk => ?_) (Nat.le_of_lt hnk), honward.isEnd hn⟩
  rcases Nat.lt_or_eq_of_le hjk with hlt | rfl
  · exact (hgap j hj hlt).1
  · rw [hk]
    decide

end Steps

/-! ## Declarations and their semicolons -/

/-- The statement `ms` has the text `d`, and its semicolon follows behind the blanks `g`. -/
structure Terminated (source : Chars) (ms : Members) (a d g z : Chars) : Prop where
  text : source = a ++ (d ++ (g ++ ';' :: z))
  range : rangeOf? ms = some ⟨(encode a).length, (encode (a ++ d)).length⟩
  gap : ∀ c ∈ g, isBlank c = true

theorem statement_of_ranges {s : Bytes} {ms : Members} {q r : Range} {i : Option Range}
    (hq : rangeOf? ms = some q) (h : rangesOf? s ms = some (r, i)) :
    r = ⟨q.start, statementEnd s q.stop⟩ := by
  rw [rangesOf?, hq] at h
  dsimp only [bind, Option.bind] at h
  split at h
  · split at h
    · obtain ⟨x, -, h⟩ := Option.bind_eq_some_iff.1 h
      cases h
      rfl
    · cases h
  · cases h
    rfl

section Terminated

variable {source : Chars} {ms : Members} {a d g z : Chars} {r : Range} {i : Option Range}
  (h : Terminated source ms a d g z) (hr : rangesOf? (encode source) ms = some (r, i))

include h

theorem Terminated.semicolon : (encode source)[(encode (a ++ (d ++ g))).length]? = some 59 := by
  have hcut : encode source = encode (a ++ (d ++ g)) ++ 59 :: encode z := by
    rw [h.text, ← append_assoc d, ← append_assoc a, encode_append]
    rfl
  rw [hcut, getElem?_append_right (Nat.le_refl _), Nat.sub_self]
  rfl

theorem Terminated.blank {j : Nat} (hj : (encode (a ++ d)).length ≤ j)
    (hjg : j < (encode (a ++ (d ++ g))).length) {b : UInt8} (hb : (encode source)[j]? = some b) :
    b ≠ 47 ∧ b ≠ 59 := by
  have hcut : encode source = encode (a ++ d) ++ (encode g ++ encode (';' :: z)) := by
    rw [h.text, ← append_assoc a, encode_append, encode_append g]
  rw [← append_assoc, encode_append, length_append] at hjg
  rw [hcut, getElem?_append_right hj, getElem?_append_left (by omega)] at hb
  -- an ASCII byte is a character of its own, so it would be one of the blanks
  have hnot (c : Char) (hc : isBlank c = false) (hascii : b.toNat < 128) : c.toNat ≠ b.toNat := by
    intro e
    obtain ⟨c', hc', he⟩ := exists_char_of_ascii (mem_of_getElem? hb) hascii
    rw [Char.ext (UInt32.toNat_inj.1 (e.trans he.symm)), h.gap c' hc'] at hc
    cases hc
  refine ⟨fun e => ?_, fun e => ?_⟩ <;> subst e
  · exact hnot '/' (by decide) (by decide) rfl
  · exact hnot ';' (by decide) (by decide) rfl

include hr

/-- A statement that ends behind `t` holds what stands between its start and there. -/
theorem Terminated.holds {t : Chars} {m : Nat} (hm : statementEnd (encode source) (encode (a ++ d)).length = m)
    (hend : IsEnd source m) (ht : t <+: d ++ (g ++ ';' :: z)) (hle : (encode (a ++ t)).length ≤ m) :
    ∃ w y, d ++ (g ++ ';' :: z) = t ++ (w ++ y) ∧ r.Holds source (t ++ w) ∧ r.start = (encode a).length ∧
      r.stop = m ∧ (encode (a ++ (t ++ w))).length = m := by
  obtain ⟨u, y, hsource, rfl⟩ := hend
  obtain ⟨x, hx⟩ := ht
  rw [h.text, ← hx, ← append_assoc] at hsource
  obtain ⟨w, rfl, rfl⟩ := exists_append_of_le hsource hle
  have hrange := statement_of_ranges h.range hr
  rw [hm] at hrange
  subst hrange
  refine ⟨w, y, hx.symm, ⟨a, y, ?_, rfl, ?_⟩, rfl, rfl, by rw [append_assoc]⟩
  · rw [h.text, ← hx, append_assoc]
  · rw [append_assoc, encode_append a (t ++ w), length_append]

theorem Terminated.holds_of_semicolon (hg : g = []) :
    ∃ w y, z = w ++ y ∧ r.Holds source (d ++ ';' :: w) ∧ r.start = (encode a).length ∧
      r.stop = (encode (a ++ (d ++ ';' :: w))).length := by
  subst hg
  have hsemicolon := h.semicolon
  rw [append_nil] at hsemicolon
  obtain ⟨m, hm, hle, hend⟩ := statementEnd_of_semicolon hsemicolon
  obtain ⟨w, y, hz, hholds, hstart, hstop, hlen⟩ := h.holds hr (t := d ++ [';']) hm hend ⟨z, by simp⟩
    (by rw [← append_assoc, encode_append, length_append]; exact hle)
  rw [append_assoc] at hz hholds hlen
  have hz : ';' :: z = ';' :: (w ++ y) := append_cancel_left hz
  exact ⟨w, y, (cons.inj hz).2, hholds, hstart, hstop.trans (congrArg Int.ofNat hlen.symm)⟩

theorem Terminated.holds_of_gap (hg : g ≠ []) :
    ∃ w, r.Holds source (d ++ w) ∧ r.stop ≤ (encode (a ++ (d ++ g))).length := by
  have hlt : (encode (a ++ d)).length < (encode (a ++ (d ++ g))).length := by
    have hne : encode g ≠ [] := fun hnil => hg (encode_injective (u := []) hnil)
    have := length_pos_of_ne_nil hne
    rw [← append_assoc, encode_append (a ++ d), length_append]
    omega
  obtain ⟨m, hm, hle, hlast, hend⟩ := statementEnd_of_gap
    (h.text ▸ append_assoc a .. ▸ isEnd_of_append) h.semicolon hlt fun j hj hjg =>
      ⟨fun e => (h.blank hj hjg e).1 rfl, fun e => (h.blank hj hjg e).2 rfl⟩
  obtain ⟨w, -, -, hholds, -, hstop, -⟩ := h.holds hr (t := d) hm hend ⟨_, rfl⟩ hle
  exact ⟨w, hholds, by omega⟩

end Terminated

/-! ## Assignments -/

/-- The edit puts an assignment in the place of the declaration `d` and of its semicolon.
It may reach further, over `w`, and keeps what stands there. -/
def Rewrites (a d g z name v : Chars) (e : Edit) : Prop :=
  ∃ w y, z = w ++ y ∧ e = ⟨(encode a).length, (encode (a ++ (d ++ (g ++ ';' :: w)))).length,
    encode (d.takeWhile isBlank ++ (name ++ (" = ".toList ++ (v ++ ';' :: w))))⟩

theorem takeWhile_semicolon (d x : Chars) : (d ++ ';' :: x).takeWhile isBlank = d.takeWhile isBlank := by
  rw [takeWhile_append]
  split
  · rename_i hall
    rw [takeWhile_cons_of_neg (by decide), append_nil]
    exact (( takeWhile_prefix isBlank).eq_of_length hall).symm
  · rfl

/-- What is kept of a statement stands behind its first semicolon. -/
theorem assignmentText_eq {name v d x : Chars} (hd : ';' ∉ d) :
    assignmentText name v (d ++ ';' :: x) =
      d.takeWhile isBlank ++ (name ++ (" = ".toList ++ (v ++ ';' :: x))) := by
  rw [assignmentText, findIdx?_append_cons hd, takeWhile_semicolon]
  simp

section Rewrites

variable {a d g z name v w y : Chars} {e : Edit}

theorem length_encode_semicolon : (encode (a ++ (d ++ (g ++ ';' :: w)))).length =
    (encode (a ++ (d ++ g))).length + 1 + (encode w).length := by
  have hcut : a ++ (d ++ (g ++ ';' :: w)) = a ++ (d ++ g) ++ ([';'] ++ w) := by simp
  rw [hcut, encode_append, encode_append [';'], length_append, length_append, Nat.add_assoc]
  rfl

theorem Rewrites.lt_stop (h : Rewrites a d g z name v e) : (encode (a ++ (d ++ g))).length < e.stop := by
  obtain ⟨w, y, -, rfl⟩ := h
  rw [length_encode_semicolon]
  dsimp only
  omega

theorem Rewrites.text_eq (h : Rewrites a d g z name v e) (hz : z = w ++ y)
    (hstop : e.stop = (encode (a ++ (d ++ (g ++ ';' :: w)))).length) :
    e.text = encode (d.takeWhile isBlank ++ (name ++ (" = ".toList ++ (v ++ ';' :: w)))) := by
  obtain ⟨w', y', hz', rfl⟩ := h
  have hlen : (encode w').length = (encode w).length := by
    rw [length_encode_semicolon, length_encode_semicolon] at hstop
    dsimp only at hstop
    omega
  obtain ⟨c, rfl, -⟩ := exists_append_of_le (hz'.symm.trans hz) (Nat.le_of_eq hlen)
  rw [encode_append, length_append] at hlen
  have hc : c = [] := encode_injective (u := []) (length_eq_zero_iff.1 (by omega))
  rw [hc, append_nil]

theorem Rewrites.notMem (h : Rewrites a d g z name v e) (hz : z = w ++ y)
    (hstop : e.stop = (encode (a ++ (d ++ (g ++ ';' :: w)))).length)
    (htext : e.text = encode (assignmentText name v (d ++ ';' :: w))) : ';' ∉ d := by
  intro hd
  obtain ⟨d₁, d₂, rfl, hd₁⟩ := eq_append_cons_of_mem hd
  have heq := encode_injective (htext.symm.trans (h.text_eq hz hstop))
  rw [append_assoc, cons_append, assignmentText_eq hd₁, takeWhile_semicolon] at heq
  have := congrArg length heq
  simp only [length_append, length_cons] at this
  omega

end Rewrites

/-- **Declarations that are rewritten exactly.** Each promoted declaration gives an edit.
It is the assignment of the value, with what stands behind the semicolon kept, if and only
if the semicolon follows the declaration at once and no other one stands in it. A semicolon
behind blanks is left behind, and a part of the declaration that follows a semicolon is
written a second time. -/
theorem assignment_exact_iff {source : Chars} {p : Promotion} {l : Promoted} {ms : Members}
    {a d g z v : Chars} (hl : l ∈ p.locals.values) (hms : Declares (encode source) l ms)
    (ht : Terminated source ms a d g z) (hv : IsValue source l v) :
    ∃ e, assignmentEdit (encode source) l = .ok e ∧
      (∀ tree es, promotionEdits (encode source) p tree = .ok es → e ∈ es) ∧
      (Rewrites a d g z l.globalName v e ↔ g = [] ∧ ';' ∉ d) ∧
      (g ≠ [] → e.stop ≤ (encode (a ++ (d ++ g))).length) ∧
      ∀ d₁ d₂, g = [] → d = d₁ ++ ';' :: d₂ → ';' ∉ d₁ → ∃ w y, z = w ++ y ∧
        e.text = encode (d₁.takeWhile isBlank ++
          (l.globalName ++ (" = ".toList ++ (v ++ ';' :: (d₂ ++ ';' :: w))))) := by
  have hmem {e : Edit} (he : assignmentEdit (encode source) l = .ok e) (tree : Json) (es : List Edit)
      (hes : promotionEdits (encode source) p tree = .ok es) : e ∈ es := by
    obtain ⟨ns, -, hes⟩ := bind_ok.1 hes
    obtain ⟨as, has, hes⟩ := bind_ok.1 hes
    obtain ⟨gs, -, hes⟩ := bind_ok.1 hes
    cases hes
    obtain ⟨e', he', hle⟩ := exists_mem_of_forall₂ (forall₂_of_mapM has).flip l hl
    rw [he, Except.ok.injEq] at hle
    exact List.mem_append_left _ (List.mem_append_left _ (hle ▸ he'))
  by_cases hg : g = []
  · obtain ⟨w, y, hz, hholds, hstart, hstop⟩ := ht.holds_of_semicolon hms.1 hg
    have he := assignmentEdit_eq hholds hv
    refine ⟨_, he, hmem he, ⟨fun hre => ⟨hg, fun hd => ?_⟩, fun ⟨_, hd⟩ => ?_⟩, fun hne => absurd hg hne,
      fun d₁ d₂ _ hd hd₁ => ⟨w, y, hz, ?_⟩⟩
    · exact hre.notMem hz (hstop.trans (by rw [hg]; rfl)) rfl hd
    · refine ⟨w, y, hz, ?_⟩
      rw [hstart, hstop, assignmentText_eq hd, hg]
      rfl
    · rw [hd, List.append_assoc, List.cons_append, assignmentText_eq hd₁]
  · obtain ⟨w, hholds, hstop⟩ := ht.holds_of_gap hms.1 hg
    have he := assignmentEdit_eq hholds hv
    refine ⟨_, he, hmem he, ⟨fun hre => ?_, fun h => absurd h.1 hg⟩, fun _ => hstop, fun _ _ h => absurd h hg⟩
    exact absurd hstop (Int.not_le.2 hre.lt_stop)

/-- The first declaration of the sample is rewritten exactly. -/
theorem assignment_exact_one : ∃ l ms, l ∈ twoLocalsPromotion.locals.values ∧ Declares (encode twoLocals) l ms ∧
    Terminated twoLocals ms (twoLocals.take 30) "uint a=1".toList [] (twoLocals.drop 39) ∧
    IsValue twoLocals l ['1'] ∧ ∃ e, assignmentEdit (encode twoLocals) l = .ok e ∧
      Rewrites (twoLocals.take 30) "uint a=1".toList [] (twoLocals.drop 39) "__state_a_0".toList ['1'] e := by
  have hlocal : (twoLocalsPromotion.locals.find (.whole 4)).map
      (fun l => (l.globalName, l.statement, l.initial)) =
      some ("__state_a_0".toList, ⟨30, 39⟩, some ⟨37, 38⟩) := by decide +kernel
  obtain ⟨l, hl, hfields⟩ := Option.map_eq_some_iff.1 hlocal
  obtain ⟨hname, hrest⟩ := Prod.mk.inj hfields
  obtain ⟨hstatement, hinitial⟩ := Prod.mk.inj hrest
  have hmem := mem_values_of_find hl
  obtain ⟨ms, hms, hdeclares⟩ := exists_declaration promotionOf_twoLocals hmem
  rw [declarations_twoLocals] at hms
  simp only [List.mem_cons, List.not_mem_nil, or_false] at hms
  rcases hms with rfl | rfl
  · have ht : Terminated twoLocals (declarationMembers 4 "a" "30:8:0" (.obj oneMembers)) (twoLocals.take 30)
        "uint a=1".toList [] (twoLocals.drop 39) := ⟨by decide, by decide, nofun⟩
    have hv : IsValue twoLocals l ['1'] := by
      rw [IsValue, hinitial]
      exact ⟨['1'], holds_twoLocals 37 38 (by decide), by decide⟩
    obtain ⟨e, he, -, hexact, -⟩ := assignment_exact_iff hmem hdeclares ht hv
    rw [hname] at hexact
    exact ⟨l, _, hmem, hdeclares, ht, hv, e, he, hexact.2 ⟨rfl, by decide⟩⟩
  · have hother := hdeclares.1
    rw [hstatement, hinitial] at hother
    exact absurd hother (by decide)

def oneLocal (statement : String) : Chars :=
  "contract C\x7bfunction f()public\x7b".toList ++ (statement.toList ++ "\x7d\x7d".toList)

/-- The tree of a function that declares one local of the given type. -/
def oneLocalTree (type name src value : String) (stop : String) : Json :=
  .obj [("nodeType", .str "ContractDefinition"), ("id", .int 1), ("name", .str "C"), ("src", .str stop),
    ("nodes", .arr [.obj [("nodeType", .str "FunctionDefinition"), ("stateMutability", .str "nonpayable"),
      ("body", .obj [("statements", .arr [.obj [("nodeType", .str declarationKind),
        ("declarations", .arr [.obj [("id", .int 4), ("name", .str name), ("stateVariable", .bool false),
          ("typeDescriptions", .obj [("typeString", .str type)])]]),
        ("initialValue", .obj [("src", .str value)]), ("src", .str src)]])])]])]

/-- The edits for the declarations of a tree. -/
def assignmentsOf (s : Bytes) (tree : Json) : Except Fault (List Edit) := do
  (← promotionOf s tree).locals.values.mapM (assignmentEdit s)

/-- **A semicolon in a literal** is taken for that of the statement, and one behind a
blank is left behind. -/
theorem semicolon_missed :
    assignmentsOf (encode (oneLocal "string memory s=\";\";"))
        (oneLocalTree "string memory" "s" "30:19:0" "46:3:0" "0:52:0") =
      .ok [⟨30, 50, encode "__state_s_0 = \";\";\";".toList⟩] ∧
    assignmentsOf (encode (oneLocal "uint a=1 ;")) (oneLocalTree "uint256" "a" "30:8:0" "37:1:0" "0:42:0") =
      .ok [⟨30, 39, encode "__state_a_0 = 1;".toList⟩] ∧
    (encode (oneLocal "uint a=1 ;"))[39]? = some 59 := by
  decide +kernel

end Obscura.Storage
