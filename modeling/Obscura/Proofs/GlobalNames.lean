import Obscura.Proofs.Promotion

/-
  The names of promoted locals. A contract numbers its new variables, and the number
  stands behind the last underscore of a name, so the names of a contract differ
  whatever its locals are called (`Counted.nodup`). Each name that is written is
  declared by the contract around the local, in one line and with its type
  (`filter_variableLine`), and this line stands in the text that comes of the source.
-/

namespace Obscura.Storage

open Text Ast Json Number Expression List

variable {es : List Edit} {ms : Members} {x : Home}

/-! ## Numbered names -/

theorem underscore_notMem_digits (n : Nat) : '_' ∉ digits n :=
  fun hmem => absurd (isDigit_digits n _ hmem) (by decide)

theorem globalName_number {a b : Chars} {n m : Nat} (h : globalName a n = globalName b m) : n = m := by
  have hnumber : digits n = digits m :=
    eq_of_append_cons (underscore_notMem_digits n) (underscore_notMem_digits m) h
  rw [← numeral_digits n, hnumber, numeral_digits]

theorem Counted.nodup (h : Counted x) : (x.globals.map (·.2)).Nodup := by
  refine pairwise_map.2 (pairwise_iff_getElem.2 fun i j hi hj hij heq => ?_)
  obtain ⟨a, ha⟩ := h.named i _ (getElem?_eq_getElem hi)
  obtain ⟨b, hb⟩ := h.named j _ (getElem?_eq_getElem hj)
  rw [ha, hb] at heq
  exact Nat.ne_of_lt hij (globalName_number heq)

/-! ## Where a name is declared -/

/-- The local is declared in a contract of the tree with the number `k`, with the type
that its new variable has. -/
def FoundIn (s : Bytes) (tree : Json) (l : Promoted) (k : Key) : Prop :=
  ∃ above ms d halves contract, (above, ms) ∈ nestedNodes [] tree ∧ isKind declarationKind ms = true ∧
    Declares s l ms ∧ onlyDeclarator ms = .ok (some (.obj d)) ∧ declaredType? d = .ok (some (l.type, halves)) ∧
    above.find? (isKind "ContractDefinition") = some contract ∧ (fieldOf "id" contract).key = .ok k

/-- The end of a line that declares a variable of the name. -/
def lineEnd (name : Chars) : Chars :=
  " private ".toList ++ (name ++ [';'])

/-- The line that declares a variable, given its type and its name. -/
def variableLine (g : Chars × Chars) : Chars :=
  "    ".toList ++ (g.1 ++ lineEnd g.2)

/-- The lines that declare the variables of a contract, under a line of comment. -/
def declarationBlock (globals : List (Chars × Chars)) : Chars :=
  "\n    // === local-to-state promoted variables ===\n".toList ++
    (globals.map variableLine).flatMap (· ++ ['\n'])

/-- The block declares the new variable of the local in one line, and it is that of a
contract with the number of the contract around the local. -/
structure DeclaredIn (s : Bytes) (tree : Json) (p : Promotion) (l : Promoted) (x : Home)
    (block : Chars) : Prop where
  contract : ∃ k, FoundIn s tree l k ∧ p.homes.find k = some x ∧
    ∃ ms ∈ nodesOf "ContractDefinition" tree, (fieldOf "id" ms).key = .ok k ∧
      insertionPoint? s ms = some x.position
  block_eq : block = declarationBlock x.globals
  once : (x.globals.map variableLine).filter (lineEnd l.globalName).isSuffixOf =
    [variableLine (l.type, l.globalName)]

theorem globalsBlock_eq (globals : List (Chars × Chars)) :
    globalsBlock globals = declarationBlock globals := by
  have hhead : [[], "    // === local-to-state promoted variables ===".toList].flatMap (· ++ ['\n']) =
      "\n    // === local-to-state promoted variables ===\n".toList := by decide
  have hline (g : Chars × Chars) : "    ".toList ++ g.1 ++ " private ".toList ++ g.2 ++ [';'] =
      variableLine g := by
    unfold variableLine lineEnd
    simp only [append_assoc]
  rw [globalsBlock, joinWith_append _ _ (cons_ne_nil [] []), flatMap_append, hhead, joinWith, append_nil]
  simp only [hline]
  rfl

theorem lineEnd_globalName (name : Chars) (n : Nat) :
    ∃ v, lineEnd (globalName name n) = v ++ '_' :: (digits n ++ [';']) := by
  refine ⟨" private ".toList ++ ("__state_".toList ++ name), ?_⟩
  unfold lineEnd globalName
  simp only [append_assoc, cons_append]

/-- A line can end with the name of another variable only if the numbers agree. -/
theorem Counted.eq_of_lineEnd (h : Counted x) {g e : Chars × Chars} (hg : g ∈ x.globals)
    (he : e ∈ x.globals) (hline : lineEnd g.2 <:+ variableLine e) : e = g := by
  obtain ⟨i, hi⟩ := mem_iff_getElem?.1 hg
  obtain ⟨j, hj⟩ := mem_iff_getElem?.1 he
  obtain ⟨a, ha⟩ := h.named i g hi
  obtain ⟨b, hb⟩ := h.named j e hj
  obtain ⟨u, hu⟩ := hline
  obtain ⟨v, hv⟩ := lineEnd_globalName a i
  obtain ⟨w, hw⟩ := lineEnd_globalName b j
  rw [variableLine, ha, hb, hv, hw, ← append_assoc, ← append_assoc, ← append_assoc] at hu
  have hdigits (k : Nat) : '_' ∉ digits k ++ [';'] := by
    simpa using underscore_notMem_digits k
  have hnumber := append_cancel_right (eq_of_append_cons (hdigits i) (hdigits j) hu)
  obtain rfl : i = j := by rw [← numeral_digits i, hnumber, numeral_digits]
  exact Option.some.inj (hj.symm.trans hi)

theorem Counted.filter_lines (h : Counted x) {g : Chars × Chars} (hg : g ∈ x.globals) :
    (x.globals.map variableLine).filter (lineEnd g.2).isSuffixOf = [variableLine g] := by
  have hself : (lineEnd g.2).isSuffixOf (variableLine g) = true :=
    isSuffixOf_iff_suffix.2 ⟨"    ".toList ++ g.1, by rw [variableLine, append_assoc]⟩
  obtain ⟨l, r, hlr⟩ := append_of_mem hg
  have hnodup : (l ++ g :: r).Nodup := hlr ▸ h.nodup.of_map
  have hnone {es : List (Chars × Chars)} (hes : es ⊆ l ++ r) :
      (es.map variableLine).filter (lineEnd g.2).isSuffixOf = [] := by
    refine filter_eq_nil_iff.2 fun u hu hline => ?_
    obtain ⟨e, he, rfl⟩ := mem_map.1 hu
    have hmem : e ∈ x.globals := hlr ▸ perm_middle.symm.subset (.tail g (hes he))
    have heq := h.eq_of_lineEnd hg hmem (isSuffixOf_iff_suffix.1 hline)
    exact (nodup_cons.1 (nodup_middle.1 hnodup)).1 (heq ▸ hes he)
  rw [hlr, map_append, map_cons, filter_append, filter_cons, if_pos hself,
    hnone (subset_append_left l r), hnone (subset_append_right l r), nil_append]

theorem contract_of_surroundingIn {known : Assoc Key Home} {above : List Members} {k : Key}
    (h : surroundingIn known above = .ok (.contract k)) :
    (∃ ms, above.find? (isKind "ContractDefinition") = some ms ∧ (fieldOf "id" ms).key = .ok k) ∧
      ∃ x, known.find k = some x := by
  induction above with
  | nil => cases h
  | cons ms above ih =>
    rw [surroundingIn] at h
    split at h
    · rename_i hkind
      obtain ⟨k', hk, h⟩ := bind_ok.1 h
      split at h
      · rename_i x hx
        split at h
        · cases h
        · cases h
          exact ⟨⟨ms, by rw [find?_cons, hkind], hk⟩, x, hx⟩
      · cases h
    · rename_i hkind
      rw [find?_cons, Bool.eq_false_iff.2 hkind]
      exact ih h

theorem type_of_declaredBy {s : Bytes} {c : Candidate} (h : DeclaredBy s c ms) :
    ∃ d halves, onlyDeclarator ms = .ok (some (.obj d)) ∧ declaredType? d = .ok (some (c.type, halves)) := by
  obtain ⟨k, d, hd, h, -⟩ := h
  obtain ⟨-, halves, htype⟩ := candidateOf_ok h
  exact ⟨d, halves, hd, htype⟩

section Promotion

variable {s : Bytes} {tree : Json} {p : Promotion} (hp : promotionOf s tree = .ok p)

include hp

theorem counted_homes (hx : x ∈ p.homes.values) : Counted x := by
  obtain ⟨known, cs, hknown, -, hhomes, -⟩ := exists_found hp
  rw [← hhomes] at hx
  obtain ⟨y, hy, hgrows⟩ := grown_of_enterAll hx
  obtain ⟨e, he, rfl⟩ := mem_map.1 hy
  obtain ⟨-, -, -, -, hcounted⟩ := home_of_homes hknown he
  exact hgrows.counted hcounted

theorem exists_declaredIn {l : Promoted} (hl : l ∈ p.locals.values) :
    ∃ x block, DeclaredIn s tree p l x block := by
  obtain ⟨known, cs, hknown, hfound, hhomes, hlocals⟩ := exists_found hp
  have hmem := append_nil (enterAll known cs).2 ▸ (values_takeUp hlocals).subset hl
  obtain ⟨c, hc, hentered⟩ := exists_of_drawn (entered_enterAll known cs) l hmem
  obtain ⟨⟨above, ms⟩, hq, hat⟩ := exists_of_drawn hfound c hc
  obtain ⟨hnode, hkind⟩ := mem_filter.1 hq
  obtain ⟨x, hx, hglobal⟩ := hentered.home
  obtain ⟨⟨contract, hcontract, hk⟩, y, hy⟩ := contract_of_surroundingIn hat.around
  obtain ⟨d, halves, hd, htype⟩ := type_of_declaredBy hat.declared
  obtain ⟨z, hz, hgrows⟩ := find_enterAll hy cs
  cases hx.symm.trans hz
  obtain ⟨ms', hms', hpoint, hk', -⟩ := home_of_homes hknown (Assoc.mem_of_find hy)
  rw [hhomes] at hx
  rw [← hentered.type] at htype
  refine ⟨x, _, ⟨c.contract, ?_, hx, ms', hms', hk', hgrows.position ▸ hpoint⟩, rfl,
    (counted_homes hp (mem_values_of_find hx)).filter_lines hglobal⟩
  exact ⟨above, ms, d, halves, contract, hnode, hkind, declares_of_promotes hentered.promotes hat.declared, hd,
    htype, hcontract, hk⟩

end Promotion

/-! ## Names that are written -/

/-- What an edit of a promotion writes: the assignment of a local, its name, or the
block of a contract. -/
inductive Writes (p : Promotion) : Edit → Prop
  | statement {l : Promoted} (hl : l ∈ p.locals.values) {u v : Chars} (hu : ∀ c ∈ u, isBlank c) :
      Writes p ⟨l.statement.start, l.statement.stop, encode (u ++ (l.globalName ++ (" = ".toList ++ v)))⟩
  | name {l : Promoted} (hl : l ∈ p.locals.values) (r : Range) :
      Writes p ⟨r.start, r.stop, encode l.globalName⟩
  | block {x : Home} (hx : x ∈ p.homes.values) :
      Writes p ⟨x.position, x.position, encode (declarationBlock x.globals)⟩

theorem writes_assignmentEdit {s : Bytes} {p : Promotion} {l : Promoted} {e : Edit}
    (hl : l ∈ p.locals.values) (h : assignmentEdit s l = .ok e) : Writes p e := by
  have hwrites {value statement : Chars} : Writes p
      ⟨l.statement.start, l.statement.stop, encode (assignmentText l.globalName value statement)⟩ := by
    rw [assignmentText, append_assoc, append_assoc, append_assoc]
    exact .statement hl fun c hc => mem_takeWhile_imp hc
  rw [assignmentEdit] at h
  split at h
  · obtain ⟨initial, -, h⟩ := bind_ok.1 h
    obtain ⟨value, -, h⟩ := bind_ok.1 h
    obtain ⟨statement, -, h⟩ := bind_ok.1 h
    cases h
    exact hwrites
  · obtain ⟨value, -, h⟩ := bind_ok.1 h
    obtain ⟨statement, -, h⟩ := bind_ok.1 h
    cases h
    exact hwrites

theorem name_of_renamingHere {locals : Assoc Key Promoted} {ns : List Renaming}
    (h : renamingHere locals ms = .ok ns) {n : Renaming} (hn : n ∈ ns) :
    ∃ l ∈ locals.values, n.name = l.globalName := by
  obtain ⟨k, -, h⟩ := bind_ok.1 h
  split at h
  · rename_i l r hl hr
    cases h
    split at hn
    · cases mem_singleton.1 hn
      exact ⟨l, mem_values_of_find hl, rfl⟩
    · cases hn
  · cases h
    cases hn

theorem homeEdit_eq (h : homeEdit x = .ok es) :
    es = if x.globals = [] then [] else [⟨x.position, x.position, encode (globalsBlock x.globals)⟩] := by
  rw [homeEdit] at h
  split at h
  · rename_i hnil
    cases h
    rw [if_pos (isEmpty_iff.1 hnil)]
  · rename_i hne
    split at h
    · cases h
    · cases h
      rw [if_neg fun hnil => hne (isEmpty_iff.2 hnil)]

theorem writes_of_promotionEdits {s : Bytes} {p : Promotion} {tree : Json}
    (h : promotionEdits s p tree = .ok es) :
    (∀ e ∈ es, Writes p e) ∧ ∀ x ∈ p.homes.values, x.globals ≠ [] →
      ⟨x.position, x.position, encode (globalsBlock x.globals)⟩ ∈ es := by
  obtain ⟨ns, hns, h⟩ := bind_ok.1 h
  obtain ⟨as, has, h⟩ := bind_ok.1 h
  obtain ⟨gs, hgs, h⟩ := bind_ok.1 h
  cases h
  constructor
  · intro e he
    -- the assignments come first, then the names, then the blocks
    rcases mem_append.1 he with he | he
    · rcases mem_append.1 he with he | he
      · obtain ⟨l, hl, hassign⟩ := exists_of_mapM has e he
        exact writes_assignmentEdit hl hassign
      · obtain ⟨n, hn, rfl⟩ := mem_map.1 he
        obtain ⟨found, hfound, hns⟩ := bind_ok.1 hns
        cases hns
        obtain ⟨here, hhere, hn⟩ := mem_flatten.1 hn
        obtain ⟨ms, -, hms⟩ := exists_of_mapM hfound here hhere
        obtain ⟨l, hl, hname⟩ := name_of_renamingHere hms hn
        exact hname ▸ .name hl n.range
    · obtain ⟨here, hhere, he⟩ := mem_flatten.1 he
      obtain ⟨x, hx, hedit⟩ := exists_of_mapM hgs here hhere
      rw [homeEdit_eq hedit] at he
      split at he
      · cases he
      · rw [mem_singleton.1 he, globalsBlock_eq]
        exact .block hx
  · intro x hx hne
    obtain ⟨here, hhere, hedit⟩ := exists_mem_of_forall₂ (forall₂_of_mapM hgs).flip x hx
    rw [homeEdit_eq hedit, if_neg hne] at hhere
    exact mem_append_right _ (mem_flatten.2 ⟨_, hhere, mem_singleton.2 rfl⟩)

theorem DeclaredIn.mem_edits {s : Bytes} {tree : Json} {p : Promotion} {l : Promoted} {block : Chars}
    (h : DeclaredIn s tree p l x block) (hes : promotionEdits s p tree = .ok es) :
    ⟨x.position, x.position, encode block⟩ ∈ es := by
  obtain ⟨⟨k, -, hfind, -⟩, rfl, honce⟩ := h
  rw [← globalsBlock_eq]
  refine (writes_of_promotionEdits hes).2 x (mem_values_of_find hfind) fun hnil => ?_
  rw [hnil] at honce
  cases honce

/-- **Promoted names are distinct and declared.** The names that a contract gives out
differ, whatever its locals are called. What is written are assignments and names of
promoted locals and blocks of contracts. The name of each promoted local is declared in
one line, with the type of the local, of a block that is written for the contract in
which the local was found, and this block stands in the text that is returned. -/
theorem global_names_declared_once {source : Chars} {tree : Json} {p : Promotion}
    (hp : promotionOf (encode source) tree = .ok p) :
    (∀ x ∈ p.homes.values, (x.globals.map (·.2)).Nodup) ∧
    (∀ l ∈ p.locals.values, ∃ x block, DeclaredIn (encode source) tree p l x block) ∧
    (∀ es, promotionEdits (encode source) p tree = .ok es →
      (∀ e ∈ es, Writes p e) ∧
      ∀ l x block, DeclaredIn (encode source) tree p l x block →
        ⟨x.position, x.position, encode block⟩ ∈ es) ∧
    (Placed source tree → Clear p →
      ∃ out es, promoteLocals source tree = .ok (out, p.locals.length) ∧
        encode out = patched 0 (encode source) es ∧
        ∀ l ∈ p.locals.values, ∀ x block, DeclaredIn (encode source) tree p l x block →
          Becomes (encode source) es ⟨x.position, x.position⟩ block) := by
  refine ⟨fun x hx => (counted_homes hp hx).nodup, fun l hl => exists_declaredIn hp hl,
    fun es hes => ⟨(writes_of_promotionEdits hes).1, fun l x block hx => hx.mem_edits hes⟩, ?_⟩
  intro hplaced hclear
  obtain ⟨out, edits, hok, hedits, hout, horder, -⟩ := promoteLocals_ok hp hplaced hclear
  refine ⟨out, Edit.patches edits, hok, hout, fun l hl x block hx => (becomes_iff horder).2 ?_⟩
  have hne : p.locals ≠ [] := by
    rintro hnil
    rw [hnil] at hl
    cases hl
  exact Edit.mem_patches.2 ⟨_, hx.mem_edits (hedits hne), rfl⟩

/-- Both locals of the sample have a variable of their own, and the block that declares
them stands behind the opening brace of the contract. -/
theorem global_names_declared_two :
    Placed twoLocals twoLocalsTree ∧ Clear twoLocalsPromotion ∧ (twoGlobals.map (·.2)).Nodup ∧
    ∃ out es l x, promoteLocals twoLocals twoLocalsTree = .ok (out, 2) ∧
      encode out = patched 0 (encode twoLocals) es ∧
      l.globalName = "__state_a_0".toList ∧ x.globals = twoGlobals ∧ x.position = 11 ∧
      ∃ block, DeclaredIn (encode twoLocals) twoLocalsTree twoLocalsPromotion l x block ∧
        Becomes (encode twoLocals) es ⟨11, 11⟩ block := by
  have hhomes : twoLocalsPromotion.homes.values.map (fun x => (x.globals, x.position)) =
      [(twoGlobals, 11)] := by decide +kernel
  obtain ⟨hclear, hlength, hname, -⟩ := twoLocalsPromotion_spec
  obtain ⟨hnodup, hdeclared, -, hrun⟩ := global_names_declared_once promotionOf_twoLocals
  obtain ⟨out, es, hok, hout, hblocks⟩ := hrun placed_twoLocals hclear
  obtain ⟨l, hl, hl'⟩ := Option.map_eq_some_iff.1 hname
  obtain ⟨x, block, hx⟩ := hdeclared l (mem_values_of_find hl)
  obtain ⟨k, -, hfind, -⟩ := hx.contract
  have hmem := mem_values_of_find hfind
  have hx' : (x.globals, x.position) = (twoGlobals, 11) :=
    List.mem_singleton.1 (hhomes ▸ List.mem_map_of_mem (f := fun x : Home => (x.globals, x.position)) hmem)
  obtain ⟨hglobals, hposition⟩ := Prod.mk.inj hx'
  refine ⟨placed_twoLocals, hclear, hglobals ▸ hnodup x hmem, out, es, l, x, hlength ▸ hok, hout, hl',
    hglobals, hposition, block, hx, ?_⟩
  have hstands := hblocks l (mem_values_of_find hl) x block hx
  rwa [hposition] at hstands

end Obscura.Storage
