import Obscura.Proofs.Edits
import Obscura.Proofs.Expression.Value
import Obscura.Proofs.Locals

/-
  References to promoted locals. The declaration of a promoted local and each name
  that refers to one are replaced, the latter only outside of such declarations. If
  the ranges of the tree are those of its nodes, nothing overlaps, so each name
  comes to stand where the reference stood; the initial value of a declaration is
  copied as it is, and a reference inside of it keeps the name that has gone.
-/

namespace Obscura.Storage

open Text Ast Json Expression List

variable {e f : Edit} {k : Key} {l : Promoted} {n : Renaming} {r : Range} {s : Bytes}
  {t w name statement value : Chars} {x : Home}

/-! ## Trees with the ranges of their nodes -/

def nameRanges (tree : Json) : List Range :=
  (nodesOf "Identifier" tree).filterMap rangeOf?

/-- The ranges of the tree are those of its nodes in the source: they hold texts,
and names lie in declarations or outside of them. -/
structure Placed (source : Chars) (tree : Json) : Prop where
  name : ∀ ms ∈ nodesOf "Identifier" tree, ∃ r w k, rangeOf? ms = some r ∧ r.Holds source w ∧
    IsName w ∧ (fieldOf "referencedDeclaration" ms).key = .ok k
  names : (nameRanges tree).Pairwise Range.Apart
  declaration : ∀ ms ∈ nodesOf declarationKind tree, ∀ x ∈ rangesOf? (encode source) ms,
    (∃ t, t ≠ [] ∧ x.1.Holds source t) ∧ ∀ i ∈ x.2, ∃ t, i.Holds source t
  declarations : (extents (encode source) tree).Pairwise Range.Apart
  nested : ∀ r ∈ nameRanges tree, ∀ x ∈ extents (encode source) tree, r.Within x ∨ r.Apart x
  contract : ∀ ms ∈ nodesOf "ContractDefinition" tree, ∀ r ∈ rangeOf? ms, ∃ t, r.Holds source t

/-- New variables have types that are whole texts, and are not declared in the
middle of a declaration that is replaced. -/
def Clear (p : Promotion) : Prop :=
  ∀ x ∈ p.homes.values, x.globals ≠ [] → x.torn = false ∧
    ∀ l ∈ p.locals.values, x.position ≤ l.statement.start ∨ l.statement.stop ≤ x.position

/-- A name of the tree stands in the range and refers to the promoted local. -/
def Refers (source : Chars) (tree : Json) (p : Promotion) (k : Key) (l : Promoted) (r : Range)
    (w : Chars) : Prop :=
  ∃ ms ∈ nodesOf "Identifier" tree, rangeOf? ms = some r ∧ r.Holds source w ∧
    (fieldOf "referencedDeclaration" ms).key = .ok k ∧ p.locals.find k = some l

/-- The range lies in no declaration that is replaced. -/
def Outside (locals : Assoc Key Promoted) (r : Range) : Prop :=
  ∀ l ∈ locals.values, ¬ r.Within l.statement

instance (p : Promotion) : Decidable (Clear p) :=
  inferInstanceAs (Decidable (∀ x ∈ p.homes.values, _ → _ ∧ ∀ l ∈ p.locals.values, _ ∨ _))

instance (locals : Assoc Key Promoted) (r : Range) : Decidable (Outside locals r) :=
  inferInstanceAs (Decidable (∀ l ∈ locals.values, ¬ r.Within l.statement))

/-- What is assigned in the place of a declaration. -/
def IsValue (source : Chars) (l : Promoted) (v : Chars) : Prop :=
  match l.initial with
  | some i => ∃ u, i.Holds source u ∧ v = trim u
  | none => v = defaultValue l.type

/-- The edits that a promotion may make. -/
inductive Piece (source : Chars) (tree : Json) (p : Promotion) : Edit → Prop
  | reference {k : Key} {l : Promoted} {r : Range} {w : Chars} (hw : Refers source tree p k l r w)
      (hout : Outside p.locals r) : Piece source tree p ⟨r.start, r.stop, encode l.globalName⟩
  | declaration {l : Promoted} {t v : Chars} (hl : l ∈ p.locals.values)
      (ht : l.statement.Holds source t) (hv : IsValue source l v) :
      Piece source tree p ⟨l.statement.start, l.statement.stop, encode (assignmentText l.globalName v t)⟩
  | globals {x : Home} (hx : x ∈ p.homes.values) (hne : x.globals ≠ []) :
      Piece source tree p ⟨x.position, x.position, encode (globalsBlock x.globals)⟩

/-! ## Renamings -/

section Renamings

variable {locals : Assoc Key Promoted} {ms : Members}

/-- The node is a name that is to be replaced. -/
def Renames (locals : Assoc Key Promoted) (n : Renaming) (ms : Members) : Prop :=
  ∃ k l, (fieldOf "referencedDeclaration" ms).key = .ok k ∧ locals.find k = some l ∧
    n.name = l.globalName ∧ rangeOf? ms = some n.range ∧ Outside locals n.range

theorem renamingHere_ok (hr : rangeOf? ms = some r) (hstart : 0 ≤ r.start)
    (hk : (fieldOf "referencedDeclaration" ms).key = .ok k) :
    ∃ ns, renamingHere locals ms = .ok ns ∧ SublistForall₂ (Renames locals) ns [ms] ∧
      ∀ n, Renames locals n ms → n ∈ ns := by
  rw [renamingHere, hk, hr]
  dsimp only [bind, Except.bind]
  cases hl : locals.find k with
  | none =>
    refine ⟨[], rfl, .nil, ?_⟩
    rintro n ⟨k', l', hk', hl', -⟩
    cases hk.symm.trans hk'
    cases hl.symm.trans hl'
  | some l =>
    have hinside : (locals.values.any fun q =>
        decide (q.statement.start ≤ r.start ∧ r.stop ≤ q.statement.stop)) = false ↔ Outside locals r := by
      simp only [any_eq_false, decide_eq_true_eq]
      rfl
    dsimp only
    rw [decide_eq_true hstart, Bool.true_and]
    cases hin : locals.values.any fun q =>
        decide (q.statement.start ≤ r.start ∧ r.stop ≤ q.statement.stop) with
    | true =>
      refine ⟨[], rfl, .nil, ?_⟩
      rintro n ⟨k', l', -, -, -, hr', hout⟩
      cases hr.symm.trans hr'
      cases hin.symm.trans (hinside.2 hout)
    | false =>
      refine ⟨[⟨r, l.globalName⟩], rfl, .cons ⟨k, l, hk, hl, rfl, hr, hinside.1 hin⟩ .nil, ?_⟩
      rintro ⟨x, name⟩ ⟨k', l', hk', hl', hname, hr', -⟩
      cases hk.symm.trans hk'
      cases hl.symm.trans hl'
      cases hr.symm.trans hr'
      cases hname
      exact mem_singleton.2 rfl

theorem drawn_flatten {α β : Type} {R : α → β → Prop} {yss : List (List α)} {xs : List β}
    (h : Forall₂ (fun ys x => SublistForall₂ R ys [x]) yss xs) :
    SublistForall₂ R yss.flatten xs := by
  induction h with
  | nil => exact .nil
  | cons hx _ ih => exact drawn_append hx ih

theorem renamings_ok (locals : Assoc Key Promoted)
    (hplaced : Placed source tree) :
    ∃ ns, renamings locals tree = .ok ns ∧
      SublistForall₂ (Renames locals) ns (nodesOf "Identifier" tree) ∧
      ∀ ms ∈ nodesOf "Identifier" tree, ∀ n, Renames locals n ms → n ∈ ns := by
  have hstep : ∀ ms ∈ nodesOf "Identifier" tree, ∃ ns, renamingHere locals ms = .ok ns ∧
      (SublistForall₂ (Renames locals) ns [ms] ∧ ∀ n, Renames locals n ms → n ∈ ns) := by
    intro ms hms
    obtain ⟨r, w, k, hr, hw, -, hk⟩ := hplaced.name ms hms
    exact renamingHere_ok hr hw.bounds.1 hk
  obtain ⟨found, hfound, hall⟩ := exists_mapM hstep
  refine ⟨found.flatten, ?_, drawn_flatten (hall.imp fun _ _ h => h.1), ?_⟩
  · rw [renamings, hfound]
    rfl
  · intro ms hms n hn
    obtain ⟨ns, hns, h⟩ := exists_mem_of_forall₂ hall ms hms
    exact mem_flatten.2 ⟨ns, hns, h.2 n hn⟩

end Renamings

/-! ## Edits -/

section Edits

variable {source : Chars} {tree : Json} {p : Promotion}
  (hp : promotionOf (encode source) tree = .ok p) (hplaced : Placed source tree)

include hp hplaced

theorem holds_of_local (hl : l ∈ p.locals.values) :
    (∃ t, t ≠ [] ∧ l.statement.Holds source t) ∧ ∀ i ∈ l.initial, ∃ t, i.Holds source t := by
  obtain ⟨ms, hms, hdeclares⟩ := exists_declaration hp hl
  exact hplaced.declaration ms hms _ hdeclares.1

theorem home_behind (hx : x ∈ p.homes.values) :
    ∃ (n : Nat) (b : UInt8), x.position = n + 1 ∧ (encode source)[n]? = some b ∧ (b = 10 ∨ b = 123) := by
  obtain ⟨ms, hms, hpoint⟩ := exists_contract hp hx
  exact insertionPoint?_behind (hplaced.contract ms hms) hpoint

omit hp hplaced in
theorem textIn_of_holds (h : r.Holds source t) : textIn (encode source) r = .ok t := by
  rw [textIn, h.slice_eq, decode?_encode]

omit hp hplaced in
theorem assignmentEdit_eq {v : Chars} (ht : l.statement.Holds source t)
    (hv : IsValue source l v) : assignmentEdit (encode source) l =
      .ok ⟨l.statement.start, l.statement.stop, encode (assignmentText l.globalName v t)⟩ := by
  unfold assignmentEdit
  cases hi : l.initial with
  | none =>
    rw [IsValue, hi] at hv
    subst hv
    exact bind_ok.2 ⟨_, rfl, bind_ok.2 ⟨t, textIn_of_holds ht, rfl⟩⟩
  | some i =>
    rw [IsValue, hi] at hv
    obtain ⟨u, hu, rfl⟩ := hv
    exact bind_ok.2 ⟨u, textIn_of_holds hu, bind_ok.2 ⟨_, rfl, bind_ok.2 ⟨t, textIn_of_holds ht, rfl⟩⟩⟩

/-- The edit puts an assignment in the place of the declaration. -/
def Assigns (source : Chars) (e : Edit) (l : Promoted) : Prop :=
  ∃ t v, t ≠ [] ∧ l.statement.Holds source t ∧ IsValue source l v ∧
    e = ⟨l.statement.start, l.statement.stop, encode (assignmentText l.globalName v t)⟩

theorem assignmentEdit_ok (hl : l ∈ p.locals.values) :
    ∃ e, assignmentEdit (encode source) l = .ok e ∧ Assigns source e l := by
  obtain ⟨⟨t, hne, ht⟩, hinitial⟩ := holds_of_local hp hplaced hl
  obtain ⟨v, hv⟩ : ∃ v, IsValue source l v := by
    unfold IsValue
    split
    · rename_i i hi
      obtain ⟨u, hu⟩ := hinitial i hi
      exact ⟨trim u, u, hu, rfl⟩
    · exact ⟨_, rfl⟩
  exact ⟨_, assignmentEdit_eq ht hv, t, v, hne, ht, hv, rfl⟩

omit hp hplaced in
theorem homeEdit_ok (hclear : Clear p) (hx : x ∈ p.homes.values) :
    ∃ es, homeEdit x = .ok es ∧ ∀ e ∈ es, x.globals ≠ [] ∧
      e = ⟨x.position, x.position, encode (globalsBlock x.globals)⟩ := by
  rw [homeEdit]
  split
  · exact ⟨[], rfl, fun e he => nomatch he⟩
  · rename_i hne
    have hglobals : x.globals ≠ [] := fun hnil => hne (by rw [hnil]; rfl)
    rw [(hclear x hx hglobals).1]
    exact ⟨_, rfl, fun e he => ⟨hglobals, mem_singleton.1 he⟩⟩

omit hp hplaced in
theorem fits_of_apart (he : e.start < e.stop) (hf : f.start < f.stop)
    (h : e.stop ≤ f.start ∨ f.stop ≤ e.start) : e.Fits f := ⟨h, fun _ => by omega⟩

omit hp hplaced in
theorem fits_of_insertion (hf : f.stop = f.start)
    (h : f.start ≤ e.start ∨ e.stop ≤ f.start) : e.Fits f := ⟨by omega, fun _ => hf⟩

omit hp in
theorem isName_of_refers (h : Refers source tree p k l r w) : IsName w := by
  obtain ⟨ms, hms, hr, hw, -⟩ := h
  obtain ⟨r', w', k, hr', hw', hname, -⟩ := hplaced.name ms hms
  cases hr.symm.trans hr'
  rwa [hw.unique hw']

theorem Piece.inside (h : Piece source tree p e) :
    (0 ≤ e.start ∧ e.start ≤ e.stop ∧ e.stop ≤ (encode source).length) ∧
      (IsEnd source e.start.toNat ∧ IsEnd source e.stop.toNat) ∧ ∃ x, e.text = encode x := by
  cases h with
  | reference hw _ =>
    obtain ⟨ms, -, -, hholds, -⟩ := hw
    exact ⟨hholds.bounds, hholds.isEnd, _, rfl⟩
  | declaration _ ht _ => exact ⟨ht.bounds, ht.isEnd, _, rfl⟩
  | globals hx _ =>
    obtain ⟨n, b, hpos, hn, hb⟩ := home_behind hp hplaced hx
    obtain ⟨hend, hle⟩ := isEnd_of_behind hn hb
    have htoNat : (n + 1 : Int).toNat = n + 1 := by omega
    dsimp only
    rw [hpos, htoNat]
    exact ⟨by omega, ⟨hend, hend⟩, _, rfl⟩

theorem Piece.fits_globals (hclear : Clear p) (h : Piece source tree p e)
    (hx : x ∈ p.homes.values) (hne : x.globals ≠ []) {t : Bytes} :
    e.Fits ⟨x.position, x.position, t⟩ := by
  refine fits_of_insertion rfl ?_
  cases h with
  | reference hw _ =>
    obtain ⟨n, b, hpos, hn, hb⟩ := home_behind hp hplaced hx
    have hname := isName_of_refers hplaced hw
    obtain ⟨ms, -, -, hholds, -⟩ := hw
    rw [hpos]
    exact apart_of_name hn hb hholds fun c hc => isNamePart_of_isName hname hc
  | declaration hl _ _ => exact (hclear x hx hne).2 _ hl
  | globals _ _ => exact Int.le_total _ _

theorem pairwise_assigns {as : List Edit} (h : Forall₂ (Assigns source) as p.locals.values) :
    as.Pairwise Edit.Fits := by
  refine pairwise_of_drawn ?_ (sublistForall₂_iff.2 ⟨_, h, Sublist.refl _⟩)
    (pairwise_locals hp hplaced.declarations)
  rintro e f l l' ⟨t, v, hne, ht, -, rfl⟩ ⟨t', v', hne', ht', -, rfl⟩ hapart
  exact fits_of_apart (ht.lt hne) (ht'.lt hne') hapart

/-- The edit that gives a name its new text. -/
def Renaming.edit (n : Renaming) : Edit :=
  ⟨n.range.start, n.range.stop, encode n.name⟩

omit hp in
theorem refers_of_renames (hms : ms ∈ nodesOf "Identifier" tree)
    (h : Renames p.locals n ms) : ∃ k l w, Refers source tree p k l n.range w ∧ n.name = l.globalName := by
  obtain ⟨k, l, hk, hl, hname, hr, -⟩ := h
  obtain ⟨r, w, -, hr', hw, -⟩ := hplaced.name ms hms
  cases hr.symm.trans hr'
  exact ⟨k, l, w, ⟨ms, hms, hr, hw, hk, hl⟩, hname⟩

omit hp in
theorem lt_of_refers (h : Refers source tree p k l r w) : r.start < r.stop := by
  obtain ⟨c, t, rfl, -⟩ := isName_of_refers hplaced h
  obtain ⟨ms, -, -, hw, -⟩ := h
  exact hw.lt (cons_ne_nil c t)

omit hp in
theorem pairwise_renames {ns : List Renaming}
    (h : SublistForall₂ (Renames p.locals) ns (nodesOf "Identifier" tree)) :
    (ns.map Renaming.edit).Pairwise Edit.Fits := by
  have hlt : ∀ n ∈ ns, n.range.start < n.range.stop := by
    intro n hn
    obtain ⟨ms, hms, hrenames⟩ := exists_of_drawn h n hn
    obtain ⟨k, l, w, hrefers, -⟩ := refers_of_renames hplaced hms hrenames
    exact lt_of_refers hplaced hrefers
  have hapart : ns.Pairwise fun n n' => n.range.Apart n'.range := by
    refine pairwise_of_drawn ?_ h (pairwise_filterMap.1 hplaced.names)
    rintro n n' ms ms' ⟨-, -, -, -, -, hr, -⟩ ⟨-, -, -, -, -, hr', -⟩ hms
    exact hms _ hr _ hr'
  refine pairwise_map.2 (hapart.imp_of_mem fun hn hn' hnn => ?_)
  exact fits_of_apart (hlt _ hn) (hlt _ hn') hnn

theorem fits_renaming (hl : l ∈ p.locals.values) (he : Assigns source e l)
    (hms : ms ∈ nodesOf "Identifier" tree) (hn : Renames p.locals n ms) :
    e.Fits n.edit := by
  obtain ⟨t, v, hne, ht, -, rfl⟩ := he
  obtain ⟨k, l', w, hrefers, -⟩ := refers_of_renames hplaced hms hn
  obtain ⟨b, hb, hdeclares⟩ := exists_declaration hp hl
  obtain ⟨-, -, -, -, -, hr, hout⟩ := hn
  refine fits_of_apart (ht.lt hne) (lt_of_refers hplaced hrefers) ?_
  have hname : n.range ∈ nameRanges tree := mem_filterMap.2 ⟨ms, hms, hr⟩
  rcases hplaced.nested _ hname _ (mem_extents hb hdeclares) with hin | hapart
  · exact absurd hin (hout l hl)
  · exact hapart.symm

/-- The edits in the order in which they are given: assignments, names, new
variables. -/
structure Parts (source : Chars) (tree : Json) (p : Promotion) (as : List Edit) (ns : List Renaming)
    (gs : List Edit) : Prop where
  assigns : Forall₂ (Assigns source) as p.locals.values
  renames : List.SublistForall₂ (Renames p.locals) ns (nodesOf "Identifier" tree)
  complete : ∀ ms ∈ nodesOf "Identifier" tree, ∀ n, Renames p.locals n ms → n ∈ ns
  globals : ∀ e ∈ gs, ∃ x ∈ p.homes.values, x.globals ≠ [] ∧
    e = ⟨x.position, x.position, encode (globalsBlock x.globals)⟩

theorem promotionEdits_ok (hclear : Clear p) : ∃ as ns gs, Parts source tree p as ns gs ∧
    promotionEdits (encode source) p tree = .ok (as ++ ns.map Renaming.edit ++ gs) := by
  obtain ⟨ns, hns, hdrawn, hmem⟩ := renamings_ok p.locals hplaced
  obtain ⟨as, has, hassigns⟩ := exists_mapM fun l hl => assignmentEdit_ok hp hplaced hl
  obtain ⟨gs, hgs, hglobals⟩ := exists_mapM fun x hx => homeEdit_ok hclear hx
  refine ⟨as, ns, gs.flatten, ⟨hassigns, hdrawn, hmem, ?_⟩, ?_⟩
  · intro e he
    obtain ⟨es, hes, he⟩ := mem_flatten.1 he
    obtain ⟨x, hx, hall⟩ := exists_mem_of_forall₂ hglobals.flip es hes
    exact ⟨x, hx, hall e he⟩
  · rw [promotionEdits]
    exact bind_ok.2 ⟨ns, hns, bind_ok.2 ⟨as, has, bind_ok.2 ⟨gs, hgs, rfl⟩⟩⟩

section Parts

variable {as gs : List Edit} {ns : List Renaming} (h : Parts source tree p as ns gs)

include h

omit hp in
theorem Parts.piece : ∀ e ∈ as ++ ns.map Renaming.edit ++ gs, Piece source tree p e := by
  intro e he
  rcases mem_append.1 he with he | he
  · rcases mem_append.1 he with he | he
    · obtain ⟨l, hl, t, v, -, ht, hv, rfl⟩ := exists_mem_of_forall₂ h.assigns.flip e he
      exact .declaration hl ht hv
    · obtain ⟨n, hn, rfl⟩ := mem_map.1 he
      obtain ⟨ms, hms, hrenames⟩ := exists_of_drawn h.renames n hn
      obtain ⟨k, l, w, hrefers, hname⟩ := refers_of_renames hplaced hms hrenames
      obtain ⟨-, -, -, -, -, -, hout⟩ := hrenames
      rw [Renaming.edit, hname]
      exact .reference hrefers hout
  · obtain ⟨x, hx, hne, rfl⟩ := h.globals e he
    exact .globals hx hne

theorem Parts.fits (hclear : Clear p) : (as ++ ns.map Renaming.edit ++ gs).Pairwise Edit.Fits := by
  have hglobals : ∀ e ∈ as ++ ns.map Renaming.edit ++ gs, ∀ f ∈ gs, e.Fits f := by
    intro e he f hf
    obtain ⟨x, hx, hne, rfl⟩ := h.globals f hf
    exact (h.piece hplaced e he).fits_globals hp hplaced hclear hx hne
  refine pairwise_append.2 ⟨pairwise_append.2
    ⟨pairwise_assigns hp hplaced h.assigns, pairwise_renames hplaced h.renames, ?_⟩, ?_, ?_⟩
  · intro e he f hf
    obtain ⟨l, hl, hassign⟩ := exists_mem_of_forall₂ h.assigns.flip e he
    obtain ⟨n, hn, rfl⟩ := mem_map.1 hf
    obtain ⟨ms, hms, hrenames⟩ := exists_of_drawn h.renames n hn
    exact fits_renaming hp hplaced hl hassign hms hrenames
  · exact pairwise_of_forall_mem_list fun e he => hglobals e (mem_append_right _ he)
  · exact fun e he => hglobals e (mem_append_left _ he)

omit hp hplaced in
theorem Parts.exists_assigns (hl : l ∈ p.locals.values) :
    ∃ e ∈ as ++ ns.map Renaming.edit ++ gs, Assigns source e l := by
  obtain ⟨e, he, hassign⟩ := exists_mem_of_forall₂ h.assigns l hl
  exact ⟨e, mem_append_left _ (mem_append_left _ he), hassign⟩

omit hp hplaced in
theorem Parts.mem_of_refers (hw : Refers source tree p k l r w) (hout : Outside p.locals r) :
    ⟨r.start, r.stop, encode l.globalName⟩ ∈ as ++ ns.map Renaming.edit ++ gs := by
  obtain ⟨ms, hms, hr, -, hk, hl⟩ := hw
  have hn := h.complete ms hms ⟨r, l.globalName⟩ ⟨k, l, hk, hl, rfl, hr, hout⟩
  exact mem_append_left _ (mem_append_right _ (mem_map.2 ⟨_, hn, rfl⟩))

end Parts

end Edits

/-! ## Texts -/

theorem isPlainWord_plainName : ∀ c ∈ plainName name, isPlainWord c := by
  have hmap (word : Chars) :
      ∀ c ∈ word.map (fun c => if isPlainWord c then c else '_'), isPlainWord c = true := by
    intro c hc
    obtain ⟨d, -, rfl⟩ := mem_map.1 hc
    split
    · assumption
    · decide
  have hfront (u : Chars) (hu : ∀ c ∈ u, isPlainWord c) :
      ∀ c ∈ 'v' :: '_' :: u, isPlainWord c := by
    intro c hc
    rcases mem_cons.1 hc with rfl | hc
    · decide
    · rcases mem_cons.1 hc with rfl | hc
      · decide
      · exact hu c hc
  unfold plainName
  dsimp only
  split
  · exact hfront _ (hmap _)
  · split
    · exact hfront _ (hmap _)
    · exact hmap _

theorem isPlainWord_globalName (n : Nat) :
    ∀ c ∈ globalName (plainName name) n, isPlainWord c := by
  have hfront : ∀ c ∈ "__state_".toList, isPlainWord c := forall_mem_of_all rfl
  intro c hc
  unfold globalName at hc
  rcases mem_append.1 hc with hc | hc
  · rcases mem_append.1 hc with hc | hc
    · exact hfront c hc
    · exact isPlainWord_plainName c hc
  · rcases mem_cons.1 hc with hc | hc
    · rw [hc]
      decide
    · simp [isPlainWord, Char.isAlphanum, isDigit_digits n c hc]

theorem trim_name {a b : Chars} (h : IsName w) :
    trim (a ++ (w ++ b)) = trimLeft a ++ (w ++ trimRight b) := by
  have hblank : ∀ c ∈ w, isBlank c = false := fun c hc => isBlank_of_isNamePart (isNamePart_of_isName h hc)
  obtain ⟨d, u, rfl, -⟩ := h
  have hlast : ∀ c, (trimLeft a ++ d :: u).getLast? = some c → isBlank c = false := by
    intro c hc
    rw [getLast?_append_of_ne_nil _ (cons_ne_nil d u)] at hc
    exact hblank c (mem_of_getLast? hc)
  rw [trim, trimLeft_append, ← append_assoc, trimRight_append hlast, append_assoc]
  intro c hc
  exact hblank c (mem_of_head? hc)

/-! ## What becomes of the source -/

/-- The text comes to stand in the place of the range, between what becomes of the
source in front of it and behind it. -/
def Becomes (s : Bytes) (es : List (Patch UInt8)) (r : Range) (t : Chars) : Prop :=
  ∃ fs gs, es = fs ++ ⟨r.start.toNat, r.stop.toNat, encode t⟩ :: gs ∧
    patched 0 s es = patched 0 (s.take r.start.toNat) fs ++
      (encode t ++ patched r.stop.toNat (s.drop r.stop.toNat) gs)

theorem becomes_iff {n : Nat} {es : List (Patch UInt8)} (h : InOrder n 0 es) {r : Range}
    {t : Chars} : Becomes s es r t ↔ ⟨r.start.toNat, r.stop.toNat, encode t⟩ ∈ es := by
  constructor
  · rintro ⟨fs, gs, rfl, -⟩
    exact mem_append_right fs mem_cons_self
  · intro hmem
    obtain ⟨fs, gs, rfl⟩ := append_of_mem hmem
    exact ⟨fs, gs, rfl, patched_append_cons h⟩

theorem promoteLocals_of_edits {out : Chars} {edits : List Edit}
    (hp : promotionOf (encode source) tree = .ok p) (hne : p.locals.isEmpty = false)
    (hedits : promotionEdits (encode source) p tree = .ok edits)
    (hout : Edit.glueAll (encode source) edits = encode out) :
    promoteLocals source tree = .ok (out, p.locals.length) := by
  rw [promoteLocals, hp]
  dsimp only [bind, Except.bind]
  rw [hne, hedits]
  dsimp only
  rw [hout, decode?_encode]
  rfl

section Run

variable {source : Chars} {tree : Json} {p : Promotion}
  (hp : promotionOf (encode source) tree = .ok p) (hplaced : Placed source tree) (hclear : Clear p)

include hp hplaced hclear

theorem promoteLocals_ok : ∃ out edits, promoteLocals source tree = .ok (out, p.locals.length) ∧
    (p.locals ≠ [] → promotionEdits (encode source) p tree = .ok edits) ∧
    encode out = patched 0 (encode source) (Edit.patches edits) ∧
    InOrder (encode source).length 0 (Edit.patches edits) ∧ (∀ e ∈ edits, Piece source tree p e) ∧
    (∀ l ∈ p.locals.values, ∃ e ∈ edits, Assigns source e l) ∧
    ∀ k l r w, Refers source tree p k l r w → Outside p.locals r →
      ⟨r.start, r.stop, encode l.globalName⟩ ∈ edits := by
  by_cases hnil : p.locals = []
  · have hnone : ∀ e ∈ ([] : List Edit), False := fun _ => not_mem_nil
    refine ⟨source, [], ?_, fun hne => absurd hnil hne, by rw [Edit.patches_nil, patched],
      Edit.inOrder_patches (fun e he => (hnone e he).elim) .nil, fun e he => (hnone e he).elim, ?_, ?_⟩
    · rw [promoteLocals, hp]
      dsimp only [bind, Except.bind]
      rw [hnil]
      rfl
    · rw [hnil]
      exact fun l hl => absurd hl not_mem_nil
    · rintro k l r w ⟨ms, -, -, -, -, hl⟩
      rw [hnil] at hl
      cases hl
  · obtain ⟨as, ns, gs, hparts, hedits⟩ := promotionEdits_ok hp hplaced hclear
    have hpieces := hparts.piece hplaced
    have hfits := hparts.fits hp hplaced hclear
    have hinside := fun e he => ((hpieces e he).inside hp hplaced).1
    have horder := Edit.inOrder_patches hinside hfits
    have htext : ∃ out, patched 0 (encode source) (Edit.patches (as ++ ns.map Renaming.edit ++ gs)) =
        encode out := by
      refine Edit.exists_encode_patched (by rwa [Nat.zero_add]) ?_ ?_
      · intro x hx
        obtain ⟨e, he, rfl⟩ := Edit.mem_patches.1 hx
        exact ((hpieces e he).inside hp hplaced).2.1
      · intro x hx
        obtain ⟨e, he, rfl⟩ := Edit.mem_patches.1 hx
        exact ((hpieces e he).inside hp hplaced).2.2
    obtain ⟨out, hout⟩ := htext
    refine ⟨out, _, ?_, fun _ => hedits, hout.symm, horder, hpieces, fun l hl => hparts.exists_assigns hl,
      fun k l r w hw hfree => hparts.mem_of_refers hw hfree⟩
    exact promoteLocals_of_edits hp (isEmpty_eq_false_iff.2 hnil) hedits
      ((Edit.glueAll_eq_patched hinside hfits).trans hout)

end Run

theorem blank_notMem_globalName (h : Declares s l ms) : ' ' ∉ l.globalName := by
  obtain ⟨-, d, name, n, -, -, -, hname⟩ := h
  rw [hname]
  intro hmem
  exact absurd (isPlainWord_globalName n _ hmem) (by decide)

theorem blank_mem_assignmentText :
    ' ' ∈ assignmentText name value statement := by
  unfold assignmentText
  exact mem_append_left _ (mem_append_left _ (mem_append_right _ (by decide)))

/-- A range that takes a new name alone lies outside of the declarations. -/
theorem outside_of_piece
    (h : Piece source tree p e) {name : Chars} (hstart : 0 ≤ r.start)
    (hlt : r.start < r.stop) (hblank : ' ' ∉ name)
    (hpatch : e.patch = ⟨r.start.toNat, r.stop.toNat, encode name⟩) : Outside p.locals r := by
  have hfirst : e.start.toNat = r.start.toNat := congrArg Patch.start hpatch
  have hlast : e.stop.toNat = r.stop.toNat := congrArg Patch.stop hpatch
  have htext : e.text = encode name := congrArg Patch.text hpatch
  cases h with
  | @reference k l x w hw hout =>
    obtain ⟨-, -, -, hholds, -⟩ := hw
    have hbounds := hholds.bounds
    obtain ⟨a, b⟩ := x
    obtain ⟨c, d⟩ := r
    dsimp only at *
    obtain rfl : a = c := by omega
    obtain rfl : b = d := by omega
    exact hout
  | declaration _ _ _ => exact absurd (encode_injective htext ▸ blank_mem_assignmentText) hblank
  | globals _ _ =>
    dsimp only at *
    omega

/-- **References follow exactly outside of promoted declarations.** There the new name
of the local comes to stand where the reference stood. In the initial value of a
declaration that is replaced, the reference keeps its old name. -/
theorem promoteLocals_renames_exactly {source : Chars} {tree : Json} {p : Promotion}
    (hp : promotionOf (encode source) tree = .ok p) (hplaced : Placed source tree) (hclear : Clear p) :
    ∃ out es, promoteLocals source tree = .ok (out, p.locals.length) ∧
      encode out = patched 0 (encode source) es ∧
      (∀ x ∈ es, ∃ e, Piece source tree p e ∧ e.patch = x) ∧
      ∀ k l r w, Refers source tree p k l r w →
        (l.id.key = .ok k ∧ ∃ ms ∈ nodesOf declarationKind tree, Declares (encode source) l ms) ∧
        (Becomes (encode source) es r l.globalName ↔ Outside p.locals r) ∧
        ∀ l' ∈ p.locals.values, ∀ i ∈ l'.initial, r.Within i →
          ∃ a b t, i.Holds source (a ++ (w ++ b)) ∧ l'.statement.Holds source t ∧
            Becomes (encode source) es l'.statement
              (assignmentText l'.globalName (trimLeft a ++ (w ++ trimRight b)) t) := by
  obtain ⟨out, edits, hok, -, hout, horder, hpieces, hassigns, hrefers⟩ :=
    promoteLocals_ok hp hplaced hclear
  refine ⟨out, Edit.patches edits, hok, hout, ?_, ?_⟩
  · intro x hx
    obtain ⟨e, he, rfl⟩ := Edit.mem_patches.1 hx
    exact ⟨e, hpieces e he, rfl⟩
  intro k l r w href
  obtain ⟨ms, hms, hr, hw, hk, hl⟩ := id href
  have hlocal := mem_values_of_find hl
  obtain ⟨ms', hms', hdeclares⟩ := exists_declaration hp hlocal
  refine ⟨⟨key_of_find hp hl, ms', hms', hdeclares⟩, ⟨?_, ?_⟩, ?_⟩
  · intro hbecomes
    obtain ⟨e, he, hpatch⟩ := Edit.mem_patches.1 ((becomes_iff horder).1 hbecomes)
    exact outside_of_piece (hpieces e he) hw.bounds.1 (lt_of_refers hplaced href)
      (blank_notMem_globalName hdeclares) hpatch
  · intro houtside
    exact (becomes_iff horder).2 (Edit.mem_patches.2 ⟨_, hrefers k l r w href houtside, rfl⟩)
  · intro l' hl' i hi hin
    obtain ⟨e, he, t, v, -, ht, hv, rfl⟩ := hassigns l' hl'
    rw [IsValue, show l'.initial = some i from hi] at hv
    obtain ⟨u, hu, rfl⟩ := hv
    obtain ⟨a, b, rfl⟩ := hw.within hu hin
    refine ⟨a, b, t, hu, ht, (becomes_iff horder).2 (Edit.mem_patches.2 ⟨_, he, ?_⟩)⟩
    rw [trim_name (isName_of_refers hplaced href)]
    rfl

/-! ## A local in the initial value of another -/

def nameMembers (name : String) (target : Int) (src : String) : Members :=
  [("nodeType", .str "Identifier"), ("name", .str name), ("referencedDeclaration", .int target),
    ("src", .str src)]

def declarationMembers (id : Int) (name src : String) (value : Json) : Members :=
  [("nodeType", .str declarationKind),
    ("declarations", .arr [.obj [("nodeType", .str "VariableDeclaration"), ("id", .int id),
      ("name", .str name), ("stateVariable", .bool false),
      ("typeDescriptions", .obj [("typeString", .str "uint256")])]]),
    ("initialValue", value), ("src", .str src)]

def oneMembers : Members :=
  [("nodeType", .str "Literal"), ("value", .str "1"), ("src", .str "37:1:0")]

def twoLocals : Chars :=
  "contract C\x7b".toList ++ "function f()public\x7b".toList ++ "uint a=1;".toList ++ "uint b=a;".toList
    ++ "a=b;\x7d\x7d".toList

def twoLocalsMembers : Members :=
  [("nodeType", .str "ContractDefinition"), ("id", .int 1), ("name", .str "C"), ("src", .str "0:54:0"),
    ("nodes", .arr [.obj [("nodeType", .str "FunctionDefinition"), ("id", .int 2), ("name", .str "f"),
      ("stateMutability", .str "nonpayable"), ("src", .str "11:42:0"),
      ("body", .obj [("nodeType", .str "Block"), ("src", .str "29:24:0"), ("statements", .arr [
        .obj (declarationMembers 4 "a" "30:8:0" (.obj oneMembers)),
        .obj (declarationMembers 6 "b" "39:8:0" (.obj (nameMembers "a" 4 "46:1:0"))),
        .obj [("nodeType", .str "ExpressionStatement"), ("src", .str "48:3:0"),
          ("expression", .obj [("nodeType", .str "Assignment"), ("operator", .str "="),
            ("src", .str "48:3:0"),
            ("leftHandSide", .obj (nameMembers "a" 4 "48:1:0")),
            ("rightHandSide", .obj (nameMembers "b" 6 "50:1:0"))])]])])]])]

def twoLocalsTree : Json :=
  .obj twoLocalsMembers

def twoLocalsPromotion : Promotion :=
  (promotionOf (encode twoLocals) twoLocalsTree).toOption.getD ⟨[], []⟩

theorem promotionOf_twoLocals :
    promotionOf (encode twoLocals) twoLocalsTree = .ok twoLocalsPromotion := by
  have hok : (promotionOf (encode twoLocals) twoLocalsTree).isOk := by decide +kernel
  rw [twoLocalsPromotion]
  cases hp : promotionOf (encode twoLocals) twoLocalsTree with
  | error e =>
    rw [hp] at hok
    cases hok
  | ok p => rfl

theorem names_twoLocals : nodesOf "Identifier" twoLocalsTree =
    [nameMembers "a" 4 "46:1:0", nameMembers "a" 4 "48:1:0", nameMembers "b" 6 "50:1:0"] := rfl

theorem declarations_twoLocals : nodesOf declarationKind twoLocalsTree =
    [declarationMembers 4 "a" "30:8:0" (.obj oneMembers),
      declarationMembers 6 "b" "39:8:0" (.obj (nameMembers "a" 4 "46:1:0"))] := rfl

theorem holds_twoLocals (a b : Nat)
    (h : twoLocals = twoLocals.take a ++ ((twoLocals.take b).drop a ++ twoLocals.drop b) ∧
      (encode (twoLocals.take a)).length = a ∧ a + (encode ((twoLocals.take b).drop a)).length = b) :
    Range.Holds ⟨a, b⟩ twoLocals ((twoLocals.take b).drop a) :=
  ⟨_, _, h.1, congrArg Int.ofNat h.2.1.symm, by rw [h.2.1, h.2.2]⟩

theorem holds_a (n : Nat) (h : n = 46 ∨ n = 48) : Range.Holds ⟨n, n + 1⟩ twoLocals ['a'] := by
  rcases h with rfl | rfl
  · exact holds_twoLocals 46 47 (by decide)
  · exact holds_twoLocals 48 49 (by decide)

theorem placed_twoLocals : Placed twoLocals twoLocalsTree where
  name ms hms := by
    have ha : IsName ['a'] := ⟨'a', [], rfl, rfl, nofun⟩
    rw [names_twoLocals] at hms
    simp only [mem_cons, not_mem_nil, or_false] at hms
    rcases hms with rfl | rfl | rfl
    · exact ⟨⟨46, 47⟩, ['a'], .whole 4, rfl, holds_a 46 (.inl rfl), ha, rfl⟩
    · exact ⟨⟨48, 49⟩, ['a'], .whole 4, rfl, holds_a 48 (.inr rfl), ha, rfl⟩
    · exact ⟨_, _, .whole 6, rfl, holds_twoLocals 50 51 (by decide),
        ⟨'b', [], by decide, rfl, nofun⟩, rfl⟩
  names := by decide
  declaration ms hms x hx := by
    rw [declarations_twoLocals] at hms
    simp only [mem_cons, not_mem_nil, or_false] at hms
    rcases hms with rfl | rfl
    · obtain rfl : (⟨30, 39⟩, some ⟨37, 38⟩) = x := Option.some.inj (.trans (by decide +kernel) hx)
      refine ⟨⟨_, by decide, holds_twoLocals 30 39 (by decide)⟩, fun i hi => ?_⟩
      cases hi
      exact ⟨_, holds_twoLocals 37 38 (by decide)⟩
    · obtain rfl : (⟨39, 48⟩, some ⟨46, 47⟩) = x := Option.some.inj (.trans (by decide +kernel) hx)
      refine ⟨⟨_, by decide, holds_twoLocals 39 48 (by decide)⟩, fun i hi => ?_⟩
      cases hi
      exact ⟨_, holds_a 46 (.inl rfl)⟩
  declarations := by decide +kernel
  nested := by decide +kernel
  contract ms hms r hr := by
    obtain rfl : ms = twoLocalsMembers := mem_singleton.1 hms
    obtain rfl : ⟨0, 54⟩ = r := Option.some.inj (.trans (by decide) hr)
    exact ⟨_, holds_twoLocals 0 54 (by decide)⟩

theorem twoLocalsPromotion_spec : Clear twoLocalsPromotion ∧ twoLocalsPromotion.locals.length = 2 ∧
    (twoLocalsPromotion.locals.find (.whole 4)).map (·.globalName) = some "__state_a_0".toList ∧
    Outside twoLocalsPromotion.locals ⟨48, 49⟩ ∧ ¬ Outside twoLocalsPromotion.locals ⟨46, 47⟩ := by
  decide +kernel

theorem refers_twoLocals : ∃ l, l.globalName = "__state_a_0".toList ∧ ∀ n : Nat, n = 46 ∨ n = 48 →
    Refers twoLocals twoLocalsTree twoLocalsPromotion (.whole 4) l ⟨n, n + 1⟩ ['a'] := by
  obtain ⟨-, -, hname, -⟩ := twoLocalsPromotion_spec
  obtain ⟨l, hl, hl'⟩ := Option.map_eq_some_iff.1 hname
  refine ⟨l, hl', fun n hn => ?_⟩
  have hholds := holds_a n hn
  unfold Refers
  rw [names_twoLocals]
  rcases hn with rfl | rfl
  · exact ⟨nameMembers "a" 4 "46:1:0", .head _, rfl, hholds, rfl, hl⟩
  · exact ⟨nameMembers "a" 4 "48:1:0", .tail _ (.head _), rfl, hholds, rfl, hl⟩

theorem promoteLocals_renames_two : Placed twoLocals twoLocalsTree ∧ Clear twoLocalsPromotion ∧
    ∃ out es, promoteLocals twoLocals twoLocalsTree = .ok (out, twoLocalsPromotion.locals.length) ∧
      encode out = patched 0 (encode twoLocals) es ∧
      Becomes (encode twoLocals) es ⟨48, 49⟩ "__state_a_0".toList ∧
      ¬ Becomes (encode twoLocals) es ⟨46, 47⟩ "__state_a_0".toList := by
  obtain ⟨hclear, -, -, hfree, hinside⟩ := twoLocalsPromotion_spec
  refine ⟨placed_twoLocals, hclear, ?_⟩
  obtain ⟨out, es, hok, hout, -, hrefers⟩ :=
    promoteLocals_renames_exactly promotionOf_twoLocals placed_twoLocals hclear
  obtain ⟨l, hname, href⟩ := refers_twoLocals
  obtain ⟨-, hfollows, -⟩ := hrefers _ _ _ _ (href 48 (.inr rfl))
  obtain ⟨-, hstays, -⟩ := hrefers _ _ _ _ (href 46 (.inl rfl))
  rw [hname] at hfollows hstays
  exact ⟨out, es, hok, hout, hfollows.2 hfree, fun hbecomes => hinside (hstays.1 hbecomes)⟩

def twoGlobals : List (Chars × Chars) :=
  [("uint256".toList, "__state_a_0".toList), ("uint256".toList, "__state_b_1".toList)]

/-- The edits of the sample, from left to right. -/
def twoLocalsEdits : List Edit :=
  [⟨11, 11, encode (globalsBlock twoGlobals)⟩, ⟨30, 39, encode "__state_a_0 = 1;".toList⟩,
    ⟨39, 48, encode "__state_b_1 = a;".toList⟩, ⟨48, 49, encode "__state_a_0".toList⟩,
    ⟨50, 51, encode "__state_b_1".toList⟩]

/-- **A reference in an initial value keeps its name**, though its local has gone. -/
theorem reference_in_value_dangles :
    (∃ l, l.globalName = "__state_a_0".toList ∧
      Refers twoLocals twoLocalsTree twoLocalsPromotion (.whole 4) l ⟨46, 47⟩ ['a']) ∧
    promoteLocals twoLocals twoLocalsTree =
      .ok ("contract C\x7b".toList ++ globalsBlock twoGlobals ++ "function f()public\x7b".toList
        ++ "__state_a_0 = 1;".toList ++ "__state_b_1 = a;".toList
        ++ "__state_a_0=__state_b_1;\x7d\x7d".toList, 2) := by
  constructor
  · obtain ⟨l, hname, href⟩ := refers_twoLocals
    exact ⟨l, hname, href 46 (.inl rfl)⟩
  · have hedits : promotionEdits (encode twoLocals) twoLocalsPromotion twoLocalsTree =
        .ok (twoLocalsEdits.tail ++ twoLocalsEdits.take 1) := by decide +kernel
    have hordered : Edit.ordered (twoLocalsEdits.tail ++ twoLocalsEdits.take 1) = twoLocalsEdits.reverse :=
      mergeSort_eq_reverse (f := Edit.start) List.perm_append_comm (by decide)
    obtain ⟨-, hcount, -⟩ := twoLocalsPromotion_spec
    have hne : twoLocalsPromotion.locals.isEmpty = false := by
      rw [List.isEmpty_eq_false_iff]
      intro hnil
      rw [hnil] at hcount
      cases hcount
    rw [← hcount]
    refine promoteLocals_of_edits promotionOf_twoLocals hne hedits ?_
    rw [Edit.glueAll, hordered]
    decide +kernel

end Obscura.Storage
