import Obscura.Proofs.Inlining

/-
  Calls inside of calls. Calls are replaced from the last to the first, each in the
  range that it had in the source. An outer call is replaced after those inside of it,
  and its range is right by then only if they have kept their length. So a call with
  calls inside is replaced as it should be exactly in that case
  (`nested_calls_replaced_iff`).
-/

namespace Obscura.Flow

open Text Ast Json List

/-- A source in stretches of text and calls. The text of a call may have calls in it. -/
inductive Nest where
  | nil
  | text (t : Chars) (rest : Nest)
  | call (u : Use) (inside rest : Nest)

namespace Nest

def old : Nest → Chars
  | nil => []
  | text t r => t ++ r.old
  | call _ i r => i.old ++ r.old

/-- The source with the outermost calls replaced. -/
def new : Nest → Chars
  | nil => []
  | text t r => t ++ r.new
  | call u _ r => u.inlined ++ r.new

/-- The calls and their places in the bytes, if the first byte has the position `p`. -/
def calls (p : Nat) : Nest → List (Hole Use)
  | nil => []
  | text t r => r.calls (p + (encode t).length)
  | call u i r => ⟨p, p + (encode i.old).length, u⟩ ::
      (i.calls p ++ r.calls (p + (encode i.old).length))

/-- Each call starts with text, the name of its function. -/
def Led : Nest → Prop
  | nil => True
  | text _ r => r.Led
  | call _ i r => (∃ t j, i = text t j ∧ t ≠ []) ∧ i.Led ∧ r.Led

/-- The calls of the tree to functions that can be inlined are those of the source,
each in its place. -/
structure Described (tree : Json) (n : Nest) : Prop where
  sites : ∃ known sites, inlinables tree = .ok known ∧ callSites known tree = .ok sites ∧
    sites.Perm ((n.calls 0).map fun h => h.what.site)
  placed : ∀ h ∈ n.calls 0, rangeOf h.what.site.node = .ok ⟨h.start, h.stop⟩
  shown : ∀ h ∈ n.calls 0, h.what.Shown (encode n.old) ∧ Aligned h.what.returned
  led : n.Led

end Nest

/-! ## The order of the calls -/

section Edits

variable {hs : List (Hole Use)}
  (hplaced : ∀ h ∈ hs, rangeOf h.what.site.node = .ok ⟨h.start, h.stop⟩)

include hplaced

theorem orderedSites_eq {sites : List CallSite} (hrising : hs.Pairwise fun a b => (a.start : Int) < b.start)
    (hsites : sites.Perm (hs.map fun h => h.what.site)) :
    orderedSites sites = .ok (hs.reverse.map fun h => h.what.site) := by
  let key (c : CallSite) : Int := ((rangeOf c.node).toOption.map Range.start).getD 0
  have hkey : ∀ h ∈ hs, key h.what.site = h.start := by
    intro h hh
    show ((rangeOf h.what.site.node).toOption.map Range.start).getD 0 = h.start
    rw [hplaced h hh]
    rfl
  have hmap : sites.mapM (fun c => do return ((← rangeOf c.node).start, c)) =
      Except.ok (sites.map fun c => (key c, c)) := by
    refine mapM_of_forall fun c hc => ?_
    obtain ⟨h, hh, rfl⟩ := mem_map.1 (hsites.subset hc)
    rw [hkey h hh]
    exact bind_ok.2 ⟨_, hplaced h hh, rfl⟩
  have hperm : (sites.map fun c => (key c, c)).Perm (hs.map fun h => ((h.start : Int), h.what.site)) := by
    refine (hsites.map _).trans (Perm.of_eq ?_)
    rw [map_map]
    refine map_congr_left fun h hh => ?_
    exact Prod.ext (hkey h hh) rfl
  refine bind_ok.2 ⟨_, hmap, ?_⟩
  rw [mergeSort_eq_reverse hperm (pairwise_map.2 hrising), ← map_reverse, map_map]
  rfl

theorem callEdits_eq {s : Bytes} (hshown : ∀ h ∈ hs, h.what.Shown s ∧ Aligned h.what.returned) :
    (hs.map fun h => h.what.site).mapM (callEdit s) =
      .ok (hs.map fun h => [⟨h.start, h.stop, encode h.what.inlined⟩]) := by
  refine mapM_of_forall₂ (forall₂_map_left_iff.2 (forall₂_map_right_iff.2
    (forall₂_same.2 fun h hh => ?_)))
  obtain ⟨hs, ha⟩ := hshown h hh
  exact bind_ok.2 ⟨_, inlinedText_of_aligned hs ha, bind_ok.2 ⟨_, hplaced h hh, rfl⟩⟩

end Edits

namespace Nest

theorem length_encode_pos {t : Chars} (h : t ≠ []) : 0 < (encode t).length :=
  length_pos_of_ne_nil fun hnil => h (encode_injective (u := []) hnil)

theorem bounds_of_mem_calls {n : Nest} (hled : n.Led) {p : Nat} {h : Hole Use} (hh : h ∈ n.calls p) :
    p ≤ h.start ∧ h.start < p + (encode n.old).length := by
  induction n generalizing p with
  | nil => cases hh
  | text t r ih =>
    have := ih hled hh
    rw [old, encode_append, length_append]
    omega
  | call u i r ihi ihr =>
    obtain ⟨⟨t, j, rfl, ht⟩, hi, hr⟩ := hled
    rw [old, encode_append, length_append]
    rcases mem_cons.1 hh with rfl | hh
    · have := length_encode_pos ht
      rw [old, encode_append, length_append]
      exact ⟨Nat.le_refl p, by dsimp only; omega⟩
    rcases mem_append.1 hh with hh | hh
    · have := ihi hi hh
      omega
    · have := ihr hr hh
      omega

theorem pairwise_calls {n : Nest} (hled : n.Led) (p : Nat) :
    (n.calls p).Pairwise fun a b => (a.start : Int) < b.start := by
  induction n generalizing p with
  | nil => exact .nil
  | text t r ih => exact ih hled _
  | call u i r ihi ihr =>
    obtain ⟨⟨t, j, rfl, ht⟩, hi, hr⟩ := hled
    have hpos := length_encode_pos ht
    have hlen : (encode (text t j).old).length = (encode t).length + (encode j.old).length := by
      rw [old, encode_append, length_append]
    -- the name of its function stands between the start of a call and the calls inside of it
    refine .cons (fun h hh => ?_) (pairwise_append.2 ⟨ihi hi p, ihr hr _, fun a ha b hb => ?_⟩)
    · show (p : Int) < h.start
      rcases mem_append.1 hh with hh | hh
      · have := (bounds_of_mem_calls (n := j) hi hh).1
        omega
      · have := (bounds_of_mem_calls hr hh).1
        omega
    · have ha' := (bounds_of_mem_calls hi ha).2
      have hb' := (bounds_of_mem_calls hr hb).1
      omega

/-! ## Replacing from the last call to the first -/

/-- The bytes after all calls are replaced, if the bytes `k` follow. From an outer call
on, as many bytes are taken away as it had in the source. -/
def run : Nest → Bytes → Bytes
  | nil, k => k
  | text t r, k => encode t ++ r.run k
  | call u i r, k => encode u.inlined ++ (i.run (r.run k)).drop (encode i.old).length

theorem splice_append {α : Type} (p x v : List α) (m : Nat) :
    splice (p ++ x) p.length (p.length + m : Nat) v = p ++ (v ++ x.drop m) := by
  have hstop : max p.length (place (p ++ x).length (p.length + m : Nat)) = p.length + min m x.length := by
    rw [place_ofNat, length_append]
    omega
  have hdrop : x.drop (min m x.length) = x.drop m := by
    rcases Nat.le_total m x.length with h | h
    · rw [Nat.min_eq_left h]
    · rw [Nat.min_eq_right h, drop_length, drop_eq_nil_of_le h]
  rw [splice, place_ofNat_of_le (by simp), hstop, take_left, append_assoc,
    drop_append, drop_of_length_le (by omega), Nat.add_sub_cancel_left, nil_append, hdrop]

theorem foldr_calls (n : Nest) (p k : Bytes) :
    (n.calls p.length).foldr (fun h t => splice t h.start h.stop (encode h.what.inlined))
      (p ++ (encode n.old ++ k)) = p ++ n.run k := by
  induction n generalizing p k with
  | nil => rfl
  | text t r ih =>
    have hrest := ih (p ++ encode t) k
    rw [length_append, append_assoc, append_assoc] at hrest
    rw [old, encode_append, append_assoc]
    exact hrest
  | call u i r ihi ihr =>
    have hrest := ihr (p ++ encode i.old) k
    rw [length_append, append_assoc, append_assoc] at hrest
    rw [old, encode_append, append_assoc, calls, foldr_cons, foldr_append, hrest, ihi]
    -- what is behind the call and what is inside of it are done; the call comes last
    exact splice_append p _ _ _

end Nest

theorem decoded_eq_ok_iff {s : Bytes} {t : Chars} : decoded s = .ok t ↔ s = encode t := by
  constructor
  · intro h
    rw [decoded] at h
    split at h
    · rename_i hread
      cases h
      exact (encode_of_decode? hread).symm
    · cases h
  · rintro rfl
    exact decoded_encode

namespace Nest

variable {tree : Json} {n : Nest}

theorem Described.eq_run (h : n.Described tree) : inlineCallsWith n.old tree = decoded (n.run []) := by
  obtain ⟨known, sites, hknown, hsites, hperm⟩ := h.sites
  have hedits := callEdits_eq (s := encode n.old)
    (fun x (hx : x ∈ (n.calls 0).reverse) => h.placed x (mem_reverse.1 hx))
    (fun x hx => h.shown x (mem_reverse.1 hx))
  have hrun := foldr_calls n [] []
  rw [append_nil] at hrun
  simp only [inlineCallsWith, hknown, hsites, orderedSites_eq h.placed (pairwise_calls h.led 0) hperm, hedits,
    bind, Except.bind]
  rw [← flatMap_def, ← map_eq_flatMap, foldl_map, foldl_reverse]
  exact congrArg decoded hrun

/-- The calls inside of a call have kept its length when it is replaced. -/
def Even : Nest → Prop
  | nil => True
  | text _ r => r.Even
  | call _ i r => (encode i.new).length = (encode i.old).length ∧ i.Even ∧ r.Even

theorem run_of_even (h : n.Even) (k : Bytes) : n.run k = encode n.new ++ k := by
  induction n generalizing k with
  | nil => rfl
  | text t r ih => rw [run, new, ih h, encode_append, append_assoc]
  | call u i r ihi ihr =>
    obtain ⟨hlen, hi, hr⟩ := h
    rw [run, new, ihi hi, ihr hr, ← hlen, drop_left, encode_append, append_assoc]

theorem Described.eq_new (h : n.Described tree) (heven : n.Even) : inlineCallsWith n.old tree = .ok n.new := by
  rw [h.eq_run, run_of_even heven, append_nil, decoded_encode]

end Nest

theorem drop_append_eq_iff {α : Type} {x k : List α} {m : Nat} :
    (x ++ k).drop m = k ↔ x.length = m ∨ x.length ≤ m ∧ k = [] := by
  constructor
  · intro h
    have hlen := congrArg length h
    rw [length_drop, length_append] at hlen
    by_cases hk : k = []
    · subst hk
      rw [length_nil] at hlen
      exact .inr ⟨by omega, rfl⟩
    · have := length_pos_of_ne_nil hk
      omega
  · rintro (rfl | ⟨hle, rfl⟩)
    · exact drop_left
    · rw [append_nil, drop_eq_nil_of_le hle]

/-- **Calls inside of calls.** After all calls are replaced, the bytes are those of
`Nest.run`. They are the source with each outermost call replaced if in each call the
calls inside keep its length. For a call whose calls inside are such, and likewise those
behind it, this is so only if they keep its length, or shorten it and nothing follows. -/
theorem nested_calls_replaced_iff {tree : Json} {n : Nest} (h : n.Described tree) :
    inlineCallsWith n.old tree = decoded (n.run []) ∧
    (n.Even → inlineCallsWith n.old tree = .ok n.new) ∧
    ∀ front u i r, n = .text front (.call u i r) → i.Even → r.Even →
      (inlineCallsWith n.old tree = .ok n.new ↔
        (encode i.new).length = (encode i.old).length ∨
          (encode i.new).length ≤ (encode i.old).length ∧ r.new = []) := by
  refine ⟨h.eq_run, h.eq_new, ?_⟩
  rintro front u i r rfl hi hr
  have hnil : encode r.new = [] ↔ r.new = [] :=
    ⟨fun hnil => encode_injective (u := []) hnil, fun hnil => hnil ▸ rfl⟩
  rw [h.eq_run, decoded_eq_ok_iff]
  simp only [Nest.run, Nest.new, Nest.run_of_even hi, Nest.run_of_even hr, encode_append, List.append_nil,
    List.append_cancel_left_eq, drop_append_eq_iff, hnil]

/-! ## A call that is doubled twice -/

def nestedName (blanks : Nat) : Passed :=
  ⟨nameNode "b" 3 ("4" ++ toString (5 + blanks) ++ ":1:0"), 45 + blanks, ['b']⟩

def innerSrc (blanks : Nat) : String :=
  "43:" ++ toString (4 + blanks) ++ ":0"

/-- The call `f(b)`, with some blanks before its argument. -/
def nestedCall (blanks : Nat) : Passed :=
  ⟨callNode (innerSrc blanks) (nestedName blanks).members, 43,
    "f(".toList ++ (List.replicate blanks ' ' ++ "b)".toList)⟩

def outerSrc (blanks : Nat) : String :=
  "41:" ++ toString (7 + blanks) ++ ":0"

def nestedDouble (blanks : Nat) : Nest :=
  .text doubleFront (.call (doubleUse (outerSrc blanks) (nestedCall blanks))
    (.text "f(".toList (.call (doubleUse (innerSrc blanks) (nestedName blanks))
      (.text (nestedCall blanks).text .nil)
      (.text [')'] .nil))) (.text [';'] .nil))

def nestedDoubleTree (blanks : Nat) : Json :=
  callTreeOf (outerSrc blanks) (nestedCall blanks).members

theorem nestedDouble_described {n : Nat} (h : n = 0 ∨ n = 1) :
    (nestedDouble n).Described (nestedDoubleTree n) where
  sites := ⟨_, _, rfl, rfl, .of_eq rfl⟩
  placed := by
    show ∀ h ∈ [_, _], _
    rw [forall_mem_cons, forall_mem_singleton]
    rcases h with rfl | rfl <;> decide
  shown := by
    have haligned : Aligned (doubleUse "" (nestedName 0)).returned :=
      .inr ⟨forall_mem_of_all rfl, .inl nofun⟩
    show ∀ h ∈ [_, _], _
    rw [forall_mem_cons, forall_mem_singleton]
    refine ⟨⟨doubleUse_shown _ _ ⟨?_, encode (doubleFront ++ "f(".toList), encode ");".toList,
      ?_, ?_⟩, haligned⟩,
      doubleUse_shown _ _ ⟨?_, encode (doubleFront ++ ("f(f(".toList ++ replicate n ' ')), encode "));".toList,
        ?_, ?_⟩, haligned⟩
    all_goals rcases h with rfl | rfl <;> decide +kernel
  led := ⟨⟨_, _, rfl, by decide⟩, ⟨⟨_, _, rfl, by simp [nestedCall]⟩, trivial, trivial⟩, trivial⟩

/-- The inner call keeps its length, and the outer one is replaced as it should be. -/
theorem nested_calls_replaced_double : (nestedDouble 1).Described (nestedDoubleTree 1) ∧ (nestedDouble 1).Even ∧
    inlineCallsWith (doubleFront ++ "f(f( b));".toList) (nestedDoubleTree 1) =
      .ok (doubleFront ++ "(f( b)) * 2;".toList) := by
  have hdescribed := nestedDouble_described (.inr (rfl : 1 = 1))
  have heven : (nestedDouble 1).Even := ⟨by decide, ⟨rfl, trivial, trivial⟩, trivial⟩
  exact ⟨hdescribed, heven, (nested_calls_replaced_iff hdescribed).2.1 heven⟩

/-- **A call that grows inside of another** leaves a part of the other behind. -/
theorem inner_call_leaves_rest :
    inlineCallsWith (doubleFront ++ "f(f(b));".toList) (nestedDoubleTree 0) =
      .ok (doubleFront ++ "(f(b)) * 2);".toList) :=
  (nestedDouble_described (.inl rfl)).eq_run.trans (by decide +kernel)

end Obscura.Flow
