import Obscura.Literal.BooleanTree
import Obscura.Proofs.Formula
import Obscura.Proofs.Placement
import Obscura.Proofs.Session
import Obscura.Proofs.Edits

/-
  The truth-value pass on the trees of a file. A tree says which kind a literal is of,
  but the pass goes by the value that a node names and by the text that it stands on.
  Ranges that overlap are thinned out: no two that are kept overlap
  (`pairwise_keepApart`), and one that is dropped starts in one that is kept
  (`exists_keepApart`). In a tree that says of each literal where it stands and what it
  is, the ranges swapped are those of the truth values and of the strings whose value
  reads like one.
-/

namespace Obscura.Literal

open Text Ast Number List

variable {a b last : Nat} {c : Char} {d : Draws} {kind kind' path : String} {ns : List TruthNode}
  {v : Json} {x y : ByteSwap} {σ : Session} {node : TruthNode} {token t : Chars} {bytes : Bytes}
  {xs : List ByteSwap}

/-! ## Ranges that are kept -/

theorem keepApart_sublist (last : Nat) (xs : List ByteSwap) : (keepApart last xs).Sublist xs := by
  induction xs generalizing last with
  | nil => exact .slnil
  | cons x xs ih =>
    rw [keepApart]
    split
    · exact (ih x.stop).cons_cons x
    · exact (ih last).cons x

theorem le_start_of_mem_keepApart (hle : ∀ x ∈ xs, x.start ≤ x.stop)
    (hy : y ∈ keepApart last xs) : last ≤ y.start := by
  induction xs generalizing last with
  | nil => cases hy
  | cons x xs ih =>
    have hrest : ∀ x ∈ xs, x.start ≤ x.stop := fun x hx => hle x (.tail _ hx)
    rw [keepApart] at hy
    split at hy
    · rename_i hlast
      rcases mem_cons.1 hy with rfl | hy
      · exact hlast
      · have := hle x mem_cons_self
        have := ih hrest hy
        omega
    · exact ih hrest hy

theorem pairwise_keepApart (hle : ∀ x ∈ xs, x.start ≤ x.stop) :
    (keepApart last xs).Pairwise fun x y => x.stop ≤ y.start := by
  induction xs generalizing last with
  | nil => exact .nil
  | cons x xs ih =>
    have hrest : ∀ x ∈ xs, x.start ≤ x.stop := fun x hx => hle x (.tail _ hx)
    rw [keepApart]
    split
    · exact .cons (fun y hy => le_start_of_mem_keepApart hrest hy) (ih hrest)
    · exact ih hrest

/-- A range that is dropped starts in one that is kept, or before the last end. -/
theorem exists_keepApart (hlt : ∀ x ∈ xs, x.start < x.stop)
    (hsorted : xs.Pairwise fun x y => x.start ≤ y.start) (hx : x ∈ xs) :
    x.start < last ∨ ∃ y ∈ keepApart last xs, y.start ≤ x.start ∧ x.start < y.stop := by
  induction xs generalizing last with
  | nil => cases hx
  | cons z xs ih =>
    obtain ⟨hfirst, hsorted⟩ := pairwise_cons.1 hsorted
    have hrest : ∀ x ∈ xs, x.start < x.stop := fun x hx => hlt x (.tail _ hx)
    rw [keepApart]
    split
    · rename_i hlast
      right
      rcases mem_cons.1 hx with rfl | hx
      · exact ⟨x, mem_cons_self, Nat.le_refl _, hlt x mem_cons_self⟩
      · have hcase : x.start < z.stop ∨ _ := ih hrest hsorted hx
        rcases hcase with hin | ⟨y, hy, hover⟩
        · exact ⟨z, mem_cons_self, hfirst x hx, hin⟩
        · exact ⟨y, .tail _ hy, hover⟩
    · rename_i hlast
      rcases mem_cons.1 hx with rfl | hx
      · exact .inl (Nat.lt_of_not_le hlast)
      · exact ih hrest hsorted hx

theorem precedes_iff : x.precedes y ↔
    x.start < y.start ∨ x.start = y.start ∧ y.stop - y.start ≤ x.stop - x.start := by
  simp [ByteSwap.precedes]

theorem pairwise_precedes :
    (xs.mergeSort ByteSwap.precedes).Pairwise fun x y => x.precedes y = true := by
  refine pairwise_mergeSort (fun x y z hxy hyz => ?_) (fun x y => ?_) xs
  · rw [precedes_iff] at *
    omega
  · rw [Bool.or_eq_true, precedes_iff, precedes_iff]
    omega

theorem mem_thinOut (h : x ∈ thinOut xs) : x ∈ xs :=
  (mergeSort_perm xs _).subset ((keepApart_sublist 0 _).subset h)

section Thinning

variable {xs : List ByteSwap} (hlt : ∀ x ∈ xs, x.start < x.stop)

include hlt

theorem pairwise_thinOut : (thinOut xs).Pairwise fun x y => x.stop ≤ y.start :=
  pairwise_keepApart fun x hx => Nat.le_of_lt (hlt x ((mergeSort_perm xs _).subset hx))

/-- **A range that is dropped overlaps one that is kept.** -/
theorem exists_thinOut (hx : x ∈ xs) : ∃ y ∈ thinOut xs, y.start ≤ x.start ∧ x.start < y.stop := by
  have hperm := mergeSort_perm xs ByteSwap.precedes
  have hsorted : (xs.mergeSort ByteSwap.precedes).Pairwise fun x y => x.start ≤ y.start := by
    refine pairwise_precedes.imp fun h => ?_
    rw [precedes_iff] at h
    omega
  exact (exists_keepApart (fun y hy => hlt y (hperm.subset hy)) hsorted (hperm.symm.subset hx)).resolve_left
    (Nat.not_lt_zero _)

end Thinning

def ByteSwap.patch (x : ByteSwap) : Patch UInt8 :=
  ⟨x.start, x.stop, encode x.replacement⟩

theorem applySwaps_eq_patched
    (hin : ∀ x ∈ xs, x.start ≤ x.stop ∧ x.stop ≤ bytes.length)
    (hxs : xs.Pairwise fun x y => x.stop ≤ y.start) :
    InOrder bytes.length 0 (xs.map ByteSwap.patch) ∧
      applySwaps bytes xs = patched 0 bytes (xs.map ByteSwap.patch) := by
  have horder : InOrder bytes.length 0 (xs.map ByteSwap.patch) := by
    refine inOrder_of_pairwise ?_ (pairwise_map.2 hxs) (fun _ _ => Nat.zero_le _) (Nat.zero_le _)
    intro e he
    obtain ⟨x, hx, rfl⟩ := mem_map.1 he
    exact hin x hx
  refine ⟨horder, ?_⟩
  rw [← foldl_reverse_eq_patched (fun t e => splice_eq_put) horder, ← map_reverse, foldl_map]
  rfl

/-! ## Candidates of a tree -/

theorem truthNodesOfMembers_eq (h : Json.lookup "attributes" ms = none) :
    truthNodesOfMembers ms = truthNodes (.arr (ms.map Prod.snd)) := by
  induction ms with
  | nil => rfl
  | cons m ms ih =>
    rw [Json.lookup] at h
    split at h
    · cases h
    · rename_i hne
      rw [truthNodesOfMembers, if_neg hne, ih h]
      rfl

theorem truthNodes_eq (v : Json) (h : ∀ ms ∈ nodes v, Json.lookup "attributes" ms = none) :
    truthNodes v = (nodes v).filterMap truthNode? := by
  induction v using walkInduction with
  | cons v vs hv hvs =>
    obtain ⟨hfirst, hrest⟩ := forall_mem_append.1 h
    exact (congrArg₂ _ (hv hfirst) (hvs hrest)).trans filterMap_append.symm
  | obj ms _ hms =>
    rw [nodes, nodesOfMembers_eq] at h ⊢
    obtain ⟨hfirst, hrest⟩ := forall_mem_cons.1 h
    rw [truthNodes, truthNodesOfMembers_eq hfirst, hms hrest, filterMap_cons]
    cases truthNode? ms <;> rfl
  | _ => rfl

/-! ## Formulas that are drawn -/

def textIn (bytes : Bytes) (a b : Nat) : Chars :=
  decodeLossy ((bytes.take b).drop a)

/-- The swap puts a formula of its value in the place of a candidate. -/
structure Swaps (bytes : Bytes) (x : ByteSwap) (node : TruthNode) : Prop where
  range : candidateRange bytes.length node = some (x.start, x.stop)
  literal : x.literal = textIn bytes x.start x.stop
  formula : ∃ v f, candidateValue x.literal node = some v ∧ Sound v f ∧ x.replacement = f.text

theorem drawSwaps_cons (bytes : Bytes) (node : TruthNode) (rest : List TruthNode) (d : Draws) :
    (drawSwaps bytes (node :: rest) d).1 = (drawSwaps bytes rest d).1 ∧
        (∀ a b, candidateRange bytes.length node = some (a, b) →
          candidateValue (textIn bytes a b) node = none) ∨
      ∃ x d', (drawSwaps bytes (node :: rest) d).1 = x :: (drawSwaps bytes rest d').1 ∧ Swaps bytes x node := by
  cases hrange : candidateRange bytes.length node with
  | none =>
    refine .inl ⟨?_, nofun⟩
    rw [drawSwaps, hrange]
  | some r =>
    obtain ⟨a, b⟩ := r
    cases hvalue : candidateValue (textIn bytes a b) node with
    | none =>
      refine .inl ⟨?_, ?_⟩
      · rw [drawSwaps, hrange]
        dsimp only
        rw [← textIn, hvalue]
      · rintro _ _ ⟨⟩
        exact hvalue
    | some v =>
      refine .inr ⟨⟨a, b, textIn bytes a b, (truthFormula v d).1.text⟩, (truthFormula v d).2, ?_, hrange, rfl,
        v, _, hvalue, yields_truthFormula v d, rfl⟩
      rw [drawSwaps, hrange]
      dsimp only
      rw [← textIn, hvalue]
      rfl

theorem exists_of_mem_drawSwaps
    (h : x ∈ (drawSwaps bytes ns d).1) : ∃ node ∈ ns, Swaps bytes x node := by
  induction ns generalizing d with
  | nil => cases h
  | cons node ns ih =>
    rcases drawSwaps_cons bytes node ns d with ⟨heq, -⟩ | ⟨y, d', heq, hy⟩
    · rw [heq] at h
      obtain ⟨n, hn, hx⟩ := ih h
      exact ⟨n, .tail _ hn, hx⟩
    · rw [heq] at h
      rcases mem_cons.1 h with rfl | h
      · exact ⟨node, mem_cons_self, hy⟩
      · obtain ⟨n, hn, hx⟩ := ih h
        exact ⟨n, .tail _ hn, hx⟩

theorem exists_mem_drawSwaps
    (hnode : node ∈ ns) (hrange : candidateRange bytes.length node = some (a, b))
    (hvalue : candidateValue (textIn bytes a b) node ≠ none) :
    ∃ x ∈ (drawSwaps bytes ns d).1, x.start = a ∧ x.stop = b := by
  induction ns generalizing d with
  | nil => cases hnode
  | cons n ns ih =>
    rcases drawSwaps_cons bytes n ns d with ⟨heq, hnone⟩ | ⟨y, d', heq, hy⟩
    · rcases mem_cons.1 hnode with rfl | hnode
      · exact absurd (hnone a b hrange) hvalue
      · rw [heq]
        exact ih hnode
    · rw [heq]
      rcases mem_cons.1 hnode with rfl | hnode
      · have hsame := Option.some.inj (hy.range.symm.trans hrange)
        exact ⟨y, mem_cons_self, congrArg Prod.fst hsame, congrArg Prod.snd hsame⟩
      · obtain ⟨x, hx, hplace⟩ := ih hnode
        exact ⟨x, .tail _ hx, hplace⟩

theorem candidateRange_lt {n : Nat} (h : candidateRange n node = some (a, b)) :
    a < b ∧ b ≤ n := by
  unfold candidateRange at h
  split at h
  · split at h
    · cases h
    · cases h
      omega
  · cases h

/-! ## Trees that tell the literals -/

/-- The node is a literal of the language or of the assembly in it. -/
def isLiteral (ms : Members) : Bool :=
  isKind "Literal" ms || isKind "YulLiteral" ms

def literalNodes (trees : List Json) : List Members :=
  (nodesOfItems trees).filter isLiteral

/-- The bytes that a node stands on, in a file of `n` bytes. -/
def placeOf? (n : Nat) (ms : Members) : Option (Nat × Nat) :=
  match Json.fieldOf "src" ms with
  | .str s => candidateRange n ⟨s, none⟩
  | _ => none

/-- The token of a literal of a kind and a value. The value of a string is any, and that
of a number stands at the front of its token, before the unit. -/
inductive IsToken : String → Json → Chars → Prop
  | bool {v : String} (hv : truthWord? v.toList ≠ none) : IsToken "bool" (.str v) v.toList
  | string {v : Json} {p : String} {q : Char} {t : Chars} (hp : p ∈ ["", "hex", "unicode"])
      (hq : q ∈ ['"', '\'']) : IsToken "string" v (p.toList ++ q :: t)
  | number {v : String} {c : Char} {t u : Chars} (hc : c.isDigit = true ∨ c = '.')
      (hv : v.toList = c :: t) : IsToken "number" (.str v) (c :: t ++ u)

/-- The trees say of each literal its kind, its value and exactly where its token stands.
No two tokens overlap, though trees may name one twice, and no node but a literal has a
truth value or the name of a literal where a truth value stands. -/
structure Tells (source : Chars) (trees : List Json) : Prop where
  layout : ∀ ms ∈ nodesOfItems trees, Json.lookup "attributes" ms = none ∧ Json.lookup "literal" ms = none
  literal : ∀ ms ∈ literalNodes trees, ∃ kind a b token, Json.fieldOf "kind" ms = .str kind ∧
    placeOf? (encode source).length ms = some (a, b) ∧ Range.Holds ⟨a, b⟩ source token ∧
    IsToken kind (Json.fieldOf "value" ms) token
  other : ∀ ms ∈ nodesOfItems trees, isLiteral ms = false →
    namedTruth (Json.fieldOf "value" ms) = none ∧ (isLiteralKind ms = true →
      ∀ a b, placeOf? (encode source).length ms = some (a, b) →
        truthWord? (trim (textIn (encode source) a b)) = none)
  apart : ∀ ms ∈ literalNodes trees, ∀ ms' ∈ literalNodes trees, ∀ a b a' b',
    placeOf? (encode source).length ms = some (a, b) → placeOf? (encode source).length ms' = some (a', b') →
      a = a' ∧ b = b' ∨ b ≤ a' ∨ b' ≤ a

theorem decodeLossy_encode : decodeLossy (encode t) = t := by
  have hread := readChars_encode (t := t) (r := [])
  rw [append_nil, readChars, append_nil] at hread
  rw [decodeLossy, hread, map_map]
  exact map_id t

theorem textIn_of_holds (h : Range.Holds ⟨a, b⟩ source token) :
    textIn (encode source) a b = token := by
  have hslice := h.slice_eq
  obtain ⟨-, hab, hb⟩ := h.bounds
  dsimp only at hslice hab hb
  rw [slice, place_ofNat_of_le (by omega), place_ofNat_of_le (by omega)] at hslice
  rw [textIn, hslice, decodeLossy_encode]

theorem truthWord?_cons {t : Chars} (hc : c ≠ 't' ∧ c ≠ 'f') : truthWord? (c :: t) = none := by
  rw [truthWord?, if_neg, if_neg]
  · intro h
    exact hc.2 (cons.inj h).1
  · intro h
    exact hc.1 (cons.inj h).1

theorem truthWord?_trim (hblank : isBlank c = false) (hc : c ≠ 't' ∧ c ≠ 'f') :
    truthWord? (trim (c :: t)) = none := by
  have hleft : trimLeft (c :: t) = c :: t :=
    trimLeft_append (a := []) (u := c :: t) fun d hd => Option.some.inj hd ▸ hblank
  have hright : trimRight (c :: t) = c :: trimRight t :=
    trimRight_append (u := [c]) (b := t) fun d hd => Option.some.inj hd ▸ hblank
  rw [trim, hleft, hright, truthWord?_cons hc]

theorem trim_of_truthWord? {w : Chars} (h : truthWord? w ≠ none) : trim w = w := by
  unfold truthWord? at h
  split at h
  · rename_i hw
    rw [hw]
    decide
  · split at h
    · rename_i hw
      rw [hw]
      decide
    · exact absurd rfl h

def kindOfFirst (c : Char) : String :=
  if c = 't' ∨ c = 'f' then "bool" else if c.isDigit = true ∨ c = '.' then "number" else "string"

theorem IsToken.kind_eq (h : IsToken kind v token) :
    ∃ c u, token = c :: u ∧ isBlank c = false ∧ kind = kindOfFirst c := by
  cases h with
  | @bool v hv =>
    unfold truthWord? at hv
    split at hv
    · rename_i hw
      exact ⟨'t', _, hw, by decide, rfl⟩
    · split at hv
      · rename_i hw
        exact ⟨'f', _, hw, by decide, rfl⟩
      · exact absurd rfl hv
  | @string v p q t hp hq =>
    have hquote : isBlank q = false ∧ "string" = kindOfFirst q := by
      simp only [mem_cons, not_mem_nil, or_false] at hq
      rcases hq with rfl | rfl <;> decide
    simp only [mem_cons, not_mem_nil, or_false] at hp
    rcases hp with rfl | rfl | rfl
    · exact ⟨q, t, rfl, hquote⟩
    · exact ⟨'h', _, rfl, by decide, by decide⟩
    · exact ⟨'u', _, rfl, by decide, by decide⟩
  | @number v c t u hc hv =>
    have hblank : isBlank c = false := by
      rcases hc with hc | rfl
      · exact Expression.isBlank_of_isNamePart (Expression.isNamePart_of_isDigit hc)
      · decide
    refine ⟨c, t ++ u, rfl, hblank, ?_⟩
    rw [kindOfFirst, if_neg, if_pos hc]
    rintro (rfl | rfl)
    · exact absurd hc (by decide)
    · exact absurd hc (by decide)

theorem IsToken.kind_unique {v' : Json} (h : IsToken kind v token)
    (h' : IsToken kind' v' token) : kind = kind' := by
  obtain ⟨c, u, rfl, -, rfl⟩ := h.kind_eq
  obtain ⟨c', u', htoken, -, rfl⟩ := h'.kind_eq
  rw [(cons.inj htoken).1]

/-- What the pass can see of a literal: a truth value stands on its token and is its value;
on other tokens none stands, and a number has none as its value either. -/
theorem IsToken.cases {kind : String} {v : Json} (h : IsToken kind v token) :
    kind = "bool" ∧ truthWord? (trim token) ≠ none ∧ namedTruth v ≠ none ∨
      kind ≠ "bool" ∧ truthWord? (trim token) = none ∧ (kind = "string" ∨ namedTruth v = none) := by
  obtain ⟨c, u, htoken, hblank, hfirst⟩ := h.kind_eq
  have hne (hkind : kind ≠ "bool") : c ≠ 't' ∧ c ≠ 'f' := by
    rw [← not_or]
    intro hc
    exact hkind (hfirst.trans (if_pos hc))
  have hnone (hkind : kind ≠ "bool") : truthWord? (trim token) = none :=
    htoken ▸ truthWord?_trim hblank (hne hkind)
  cases h with
  | bool hv => exact .inl ⟨rfl, by rwa [trim_of_truthWord? hv], hv⟩
  | string => exact .inr ⟨by decide, hnone (by decide), .inl rfl⟩
  | number hc hv =>
    cases htoken
    refine .inr ⟨by decide, hnone (by decide), .inr ?_⟩
    rw [namedTruth, hv, truthWord?_cons (hne (by decide))]

theorem truthNode?_eq_some_iff (hattributes : Json.lookup "attributes" ms = none)
    (hliteral : Json.lookup "literal" ms = none) : truthNode? ms = some node ↔
      Json.fieldOf "src" ms = .str node.src ∧ node.value = namedTruth (Json.fieldOf "value" ms) ∧
        (node.value.isSome ∨ isLiteralKind ms) := by
  have hvalue : namedTruth (valueOf ms) = namedTruth (Json.fieldOf "value" ms) := by
    have hnull : Json.fieldOf "literal" ms = .null := by rw [Json.fieldOf, hliteral]; rfl
    rw [valueOf, hnull, Json.orElse]
    split
    · rfl
    · rename_i hset
      cases hv : Json.fieldOf "value" ms with
      | str v =>
        rw [hv] at hset
        obtain rfl : v = "" := by simpa [Json.isSet] using hset
        rfl
      | _ => rfl
  have hattrs : attributesOf ms = some [] := by rw [attributesOf, hattributes]
  have hsrc : (Json.fieldOf "src" []).orElse (Json.fieldOf "src" ms) = Json.fieldOf "src" ms := rfl
  have hinner : ((some []).bind fun a => namedTruth (valueOf a)) = none := rfl
  rw [truthNode?, hattrs]
  dsimp only
  rw [hsrc, hinner, hvalue, Option.or_none]
  cases Json.fieldOf "src" ms with
  | str s =>
    dsimp only
    split
    · rename_i hpos
      rw [Bool.or_eq_true] at hpos
      constructor
      · rintro ⟨⟩
        exact ⟨rfl, rfl, hpos⟩
      · rintro ⟨⟨⟩, hval, -⟩
        rw [← hval]
    · rename_i hneg
      rw [Bool.or_eq_true] at hneg
      constructor
      · intro h
        cases h
      · rintro ⟨-, hval, hpos⟩
        exact absurd (hval ▸ hpos) hneg
  | _ =>
    constructor
    · intro h
      cases h
    · rintro ⟨h, -⟩
      cases h

/-! ## What is swapped -/

/-- The literal is a truth value, or a string whose value is the text of one. -/
def ReadsAsTruth (ms : Members) : Prop :=
  Json.fieldOf "kind" ms = .str "bool" ∨
    Json.fieldOf "kind" ms = .str "string" ∧ namedTruth (Json.fieldOf "value" ms) ≠ none

section Tells

variable {source : Chars} {trees : List Json} (h : Tells source trees) {ms : Members}

include h

theorem Tells.range (hms : ms ∈ nodesOfItems trees) (hnode : truthNode? ms = some node) (n : Nat) :
    candidateRange n node = placeOf? n ms := by
  obtain ⟨hattributes, hliteral⟩ := h.layout ms hms
  rw [placeOf?, ((truthNode?_eq_some_iff hattributes hliteral).1 hnode).1]
  rfl

theorem Tells.value_iff (hms : ms ∈ nodesOfItems trees) (hnode : truthNode? ms = some node)
    (hplace : placeOf? (encode source).length ms = some (a, b)) :
    candidateValue (textIn (encode source) a b) node ≠ none ↔ isLiteral ms ∧ ReadsAsTruth ms := by
  obtain ⟨hattributes, hliteral⟩ := h.layout ms hms
  obtain ⟨-, hvalue, hwhy⟩ := (truthNode?_eq_some_iff hattributes hliteral).1 hnode
  rw [candidateValue, hvalue]
  cases hkind : isLiteral ms with
  | true =>
    obtain ⟨kind, a', b', token, hk, hplace', hholds, htoken⟩ := h.literal ms (mem_filter.2 ⟨hms, hkind⟩)
    cases hplace.symm.trans hplace'
    rw [textIn_of_holds hholds, ReadsAsTruth, hk]
    rcases htoken.cases with ⟨rfl, htruth, -⟩ | ⟨hne, hnone, hwhich⟩
    · obtain ⟨t, ht⟩ := Option.ne_none_iff_exists'.1 htruth
      rw [ht]
      exact ⟨fun _ => ⟨rfl, .inl rfl⟩, fun _ => nofun⟩
    · rw [hnone, Option.none_or]
      constructor
      · intro hv
        exact ⟨rfl, .inr ⟨congrArg Json.str (hwhich.resolve_right hv), hv⟩⟩
      · rintro ⟨-, hbool | ⟨-, hv⟩⟩
        · exact absurd (Json.str.inj hbool) hne
        · exact hv
  | false =>
    obtain ⟨hnone, htext⟩ := h.other ms hms hkind
    have hname : isLiteralKind ms := by
      refine hwhy.resolve_left fun hsome => ?_
      rw [hvalue, hnone] at hsome
      cases hsome
    rw [htext hname a b hplace, hnone]
    exact ⟨fun hv => absurd rfl hv, fun hv => nomatch hv.1⟩

theorem Tells.exists_node (hms : ms ∈ literalNodes trees) (hreads : ReadsAsTruth ms) :
    ∃ node, truthNode? ms = some node := by
  obtain ⟨hnodes, hkind⟩ := mem_filter.1 hms
  obtain ⟨hattributes, hliteral⟩ := h.layout ms hnodes
  obtain ⟨kind, a, b, token, hk, hplace, -, htoken⟩ := h.literal ms hms
  have hvalue : namedTruth (Json.fieldOf "value" ms) ≠ none := by
    rcases hreads with hbool | ⟨-, hv⟩
    · rcases htoken.cases with ⟨-, -, hv⟩ | ⟨hne, -⟩
      · exact hv
      · exact absurd (Json.str.inj (hk.symm.trans hbool)) hne
    · exact hv
  rw [placeOf?] at hplace
  split at hplace
  · rename_i src hsrc
    refine ⟨⟨src, namedTruth (Json.fieldOf "value" ms)⟩, (truthNode?_eq_some_iff hattributes hliteral).2 ?_⟩
    exact ⟨hsrc, rfl, .inl (Option.isSome_iff_ne_none.2 hvalue)⟩
  · cases hplace

/-- The swaps drawn for the truth values of the trees. -/
abbrev drawnFor (source : Chars) (trees : List Json) (d : Draws) : List ByteSwap :=
  (drawSwaps (encode source) (truthNodesOfItems trees) d).1

theorem Tells.of_mem (hx : x ∈ drawnFor source trees d) : ∃ ms ∈ literalNodes trees, ReadsAsTruth ms ∧
      placeOf? (encode source).length ms = some (x.start, x.stop) := by
  obtain ⟨node, hnode, hswaps⟩ := exists_of_mem_drawSwaps hx
  replace hnode : _ ∈ truthNodes (.arr trees) := hnode
  rw [truthNodes_eq (.arr trees) fun ms hms => (h.layout ms hms).1] at hnode
  obtain ⟨ms, hms, hnode⟩ := mem_filterMap.1 hnode
  have hplace := (h.range hms hnode _).symm.trans hswaps.range
  obtain ⟨v, f, hv, -⟩ := hswaps.formula
  rw [hswaps.literal] at hv
  obtain ⟨hkind, hreads⟩ := (h.value_iff hms hnode hplace).1 (by rw [hv]; exact nofun)
  exact ⟨ms, mem_filter.2 ⟨hms, hkind⟩, hreads, hplace⟩

/-- **The ranges that are kept** are those of the literals that read as truth values. -/
theorem Tells.thinOut_iff : (∃ y ∈ thinOut (drawnFor source trees d), y.start = a ∧ y.stop = b) ↔
      ∃ ms ∈ literalNodes trees, ReadsAsTruth ms ∧ placeOf? (encode source).length ms = some (a, b) := by
  have hlt : ∀ x ∈ drawnFor source trees d, x.start < x.stop := fun x hx => by
    obtain ⟨node, -, hswaps⟩ := exists_of_mem_drawSwaps hx
    exact (candidateRange_lt hswaps.range).1
  constructor
  · rintro ⟨y, hy, rfl, rfl⟩
    exact h.of_mem (mem_thinOut hy)
  · rintro ⟨ms, hms, hreads, hplace⟩
    obtain ⟨hnodes, hkind⟩ := mem_filter.1 hms
    obtain ⟨node, hnode⟩ := h.exists_node hms hreads
    have hmem : node ∈ truthNodes (.arr trees) := by
      rw [truthNodes_eq (.arr trees) fun ms hms => (h.layout ms hms).1]
      exact mem_filterMap.2 ⟨ms, hnodes, hnode⟩
    obtain ⟨x, hx, rfl, rfl⟩ := exists_mem_drawSwaps (d := d) hmem ((h.range hnodes hnode _).trans hplace)
      ((h.value_iff hnodes hnode hplace).2 ⟨hkind, hreads⟩)
    -- the one that is kept there is of a literal as well, and literals do not overlap
    obtain ⟨y, hy, hle, hover⟩ := exists_thinOut hlt hx
    obtain ⟨ms', hms', -, hplace'⟩ := h.of_mem (mem_thinOut hy)
    refine ⟨y, hy, ?_⟩
    rcases h.apart ms' hms' ms hms _ _ _ _ hplace' hplace with hsame | hapart | hapart
    · exact hsame
    · omega
    · have := hlt x hx
      omega

/-- What is swapped begins and ends with characters, so that the bytes are a text again. -/
theorem Tells.exists_text (d : Draws) : ∃ out,
    encode out = patched 0 (encode source) ((thinOut (drawnFor source trees d)).map ByteSwap.patch) ∧
      applySwaps (encode source) (thinOut (drawnFor source trees d)) = encode out := by
  have hrange {x : ByteSwap} (hx : x ∈ thinOut (drawnFor source trees d)) :
      ∃ token, Range.Holds ⟨x.start, x.stop⟩ source token := by
    obtain ⟨ms, hms, -, hplace⟩ := h.of_mem (mem_thinOut hx)
    obtain ⟨kind, a, b, token, -, hplace', hholds, -⟩ := h.literal ms hms
    cases hplace.symm.trans hplace'
    exact ⟨token, hholds⟩
  have hlt {x : ByteSwap} (hx : x ∈ drawnFor source trees d) :
      x.start < x.stop ∧ x.stop ≤ (encode source).length := by
    obtain ⟨node, -, hswaps⟩ := exists_of_mem_drawSwaps hx
    exact candidateRange_lt hswaps.range
  obtain ⟨horder, happly⟩ := applySwaps_eq_patched
    (fun x hx => ⟨Nat.le_of_lt (hlt (mem_thinOut hx)).1, (hlt (mem_thinOut hx)).2⟩)
    (pairwise_thinOut fun x hx => (hlt hx).1)
  obtain ⟨out, hout⟩ := Edit.exists_encode_patched (p := 0) (by rwa [Nat.zero_add]) (fun e he => by
    obtain ⟨x, hx, rfl⟩ := mem_map.1 he
    obtain ⟨token, hholds⟩ := hrange hx
    exact hholds.isEnd) fun e he => by
      obtain ⟨x, hx, rfl⟩ := mem_map.1 he
      exact ⟨_, rfl⟩
  exact ⟨out, hout.symm, happly.trans hout⟩

end Tells

/-! ## Runs -/

/-- The session has the source in a file, and the compiler answers with trees for it. -/
structure Compiles (σ : Session) (path : String) (source : Chars) (trees : List Json) : Prop where
  exist : σ.files.exist path = true
  read : σ.files.read path = .ok (encode source)
  present : σ.compiler.present = true
  reachable : σ.compiler.reachable = true
  answer : ∃ f rest, σ.compiler.answers = some f :: rest ∧
    (f path).filterMap (fun u => u.2.filter Json.isSet) = trees
  nonempty : trees ≠ []

/-- The two sessions draw alike and get the same answers of the compiler. -/
def Alike (σ σ' : Session) : Prop :=
  σ'.draws = σ.draws ∧ σ'.compiler.present = σ.compiler.present ∧
    σ'.compiler.reachable = σ.compiler.reachable ∧ σ'.compiler.answers = σ.compiler.answers

theorem alike_install : Alike σ (Run.install σ).2 := by
  rw [Run.install, Run.get_bind]
  cases σ.compiler.installsLeft with
  | none => exact ⟨rfl, rfl, rfl, rfl⟩
  | some n =>
    cases n with
    | zero => exact ⟨rfl, rfl, rfl, rfl⟩
    | succ n => exact ⟨rfl, rfl, rfl, rfl⟩

theorem alike_requireVersion (version : String) (σ : Session) : Alike σ (Run.requireVersion version σ).2 := by
  rw [Run.requireVersion, Run.get_bind]
  cases hr : σ.compiler.reachable with
  | false => exact ⟨rfl, rfl, rfl, rfl⟩
  | true =>
    cases σ.compiler.installed.contains version with
    | true => exact ⟨rfl, rfl, rfl, rfl⟩
    | false => exact alike_install

theorem ensureVersion_ok (version : String) (σ : Session) :
    ∃ b σ', Run.ensureVersion version σ = (.ok b, σ') ∧ Alike σ σ' := by
  rw [Run.ensureVersion, Run.get_bind]
  split
  · have halike := alike_requireVersion version σ
    rw [Run.attempt_bind]
    cases (Run.requireVersion version σ).1 with
    | ok _ => exact ⟨true, _, rfl, halike⟩
    | error _ => exact ⟨false, _, rfl, halike⟩
  · exact ⟨false, σ, rfl, rfl, rfl, rfl, rfl⟩

theorem treesOf_ok {f : String → Units} {rest : List (Option (String → Units))}
    (hpresent : σ.compiler.present) (hreachable : σ.compiler.reachable)
    (hanswer : σ.compiler.answers = some f :: rest)
    (htrees : (f path).filterMap (fun u => u.2.filter Json.isSet) = trees) (hne : trees ≠ []) :
    ∃ σ', treesOf path σ = (.ok (some (.obj [("asts", .arr trees)])), σ') ∧ σ'.draws = σ.draws := by
  have hcompile : Run.compile path σ =
      (.ok (f path), { σ with compiler := { σ.compiler with answers := rest } }) := by
    rw [Run.compile, Run.get_bind, hreachable, hanswer]
    rfl
  have hempty : trees.isEmpty = false := isEmpty_eq_false_iff.2 hne
  rw [treesOf, Run.get_bind, if_pos hpresent, Run.attempt_bind, hcompile]
  dsimp only
  rw [htrees, hempty]
  exact ⟨_, rfl, rfl⟩

def ByteSwap.listed (x : ByteSwap) : Swap :=
  ⟨x.start, x.stop, x.literal, x.replacement, .tree⟩

theorem swapTruthsInFile_ok (version : String) (announce : Bool) (h : Compiles σ path source trees) : ∃ σ',
      swapTruthsInFile path version announce σ =
        (.ok (unifyNewlines (decodeLossy (applySwaps (encode source)
          (thinOut (drawnFor source trees σ.draws)))),
          (thinOut (drawnFor source trees σ.draws)).reverse.map ByteSwap.listed), σ') := by
  obtain ⟨f, rest, hanswer, htrees⟩ := h.answer
  obtain ⟨b, σ₁, hversion, hdraws, hpresent, hreachable, hanswers⟩ := ensureVersion_ok version σ
  obtain ⟨σ₂, htreesOf, hdraws'⟩ := treesOf_ok (hpresent.trans h.present) (hreachable.trans h.reachable)
    (hanswers.trans hanswer) htrees h.nonempty
  have hbytes : Run.readBytes path σ = (.ok (encode source), σ) := by
    rw [Run.readBytes, Run.files_bind, h.read]
    rfl
  have hnodes : Run.ofExcept (truthNodesOfAll (.obj [("asts", .arr trees)])) σ₂ =
      (.ok (truthNodesOfItems trees), σ₂) := rfl
  rw [swapTruthsInFile, Run.files_bind, h.exist, if_pos rfl]
  dsimp only
  rw [Run.bind_of_ok hbytes, Run.bind_of_ok hversion, Run.bind_of_ok htreesOf]
  dsimp only
  rw [Run.bind_of_ok hnodes, ← hdraws, ← hdraws']
  cases announce with
  | true => exact ⟨_, rfl⟩
  | false => exact ⟨_, rfl⟩

/-- The bytes from `a` to `b` are among those swapped. -/
def SwappedAt (ops : List Swap) (a b : Nat) : Prop :=
  ∃ o ∈ ops, o.start = a ∧ o.stop = b

/-- A literal of the kind stands at the bytes from `a` to `b`. -/
def StandsAt (source : Chars) (trees : List Json) (kind : String) (a b : Nat) : Prop :=
  ∃ ms ∈ literalNodes trees, Json.fieldOf "kind" ms = .str kind ∧
    placeOf? (encode source).length ms = some (a, b)

theorem Tells.kind_unique (h : Tells source trees)
    (hstands : StandsAt source trees kind a b) (hstands' : StandsAt source trees kind' a b) :
    kind = kind' := by
  have htoken {k : String} (hk : StandsAt source trees k a b) :
      ∃ v token, Range.Holds ⟨a, b⟩ source token ∧ IsToken k v token := by
    obtain ⟨ms, hms, hkind, hplace⟩ := hk
    obtain ⟨k', a', b', token, hkind', hplace', hholds, htoken⟩ := h.literal ms hms
    cases hplace.symm.trans hplace'
    cases hkind.symm.trans hkind'
    exact ⟨_, token, hholds, htoken⟩
  obtain ⟨v, token, hholds, hv⟩ := htoken hstands
  obtain ⟨v', token', hholds', hv'⟩ := htoken hstands'
  cases hholds.unique hholds'
  exact hv.kind_unique hv'

theorem Tells.swappedAt_iff (h : Tells source trees) (d : Draws) :
    SwappedAt ((thinOut (drawnFor source trees d)).reverse.map ByteSwap.listed) a b ↔
      ∃ ms ∈ literalNodes trees, ReadsAsTruth ms ∧ placeOf? (encode source).length ms = some (a, b) := by
  rw [← h.thinOut_iff (d := d), SwappedAt]
  simp only [mem_map, mem_reverse, exists_exists_and_eq_and]
  rfl

def Swap.bytePatch (o : Swap) : Patch UInt8 :=
  ⟨o.start, o.stop, encode o.replacement⟩

/-- **What is swapped by the trees.** On a file whose trees tell its literals the pass gives
the text with the formulas put in for exactly the truth values and the strings that read
like one. So exactly the truth values are swapped if and only if no string reads like one,
and numbers are never swapped. -/
theorem swapTruthsInFile_swaps_readings {σ : Session} {path : String} (version : String) (announce : Bool)
    {source : Chars} {trees : List Json} (h : Compiles σ path source trees) (htells : Tells source trees) :
    ∃ out ops σ', swapTruthsInFile path version announce σ = (.ok (unifyNewlines out, ops), σ') ∧
      encode out = patched 0 (encode source) (ops.reverse.map Swap.bytePatch) ∧
      (∀ a b, SwappedAt ops a b ↔
        ∃ ms ∈ literalNodes trees, ReadsAsTruth ms ∧ placeOf? (encode source).length ms = some (a, b)) ∧
      ((∀ a b, SwappedAt ops a b ↔ StandsAt source trees "bool" a b) ↔
        ∀ ms ∈ literalNodes trees, Json.fieldOf "kind" ms = .str "string" →
          namedTruth (Json.fieldOf "value" ms) = none) ∧
      ∀ a b, StandsAt source trees "number" a b → ¬ SwappedAt ops a b := by
  obtain ⟨σ', hrun⟩ := swapTruthsInFile_ok version announce h
  obtain ⟨out, hpatched, happly⟩ := htells.exists_text σ.draws
  rw [happly, decodeLossy_encode] at hrun
  have hiff (a b : Nat) := htells.swappedAt_iff σ.draws (a := a) (b := b)
  refine ⟨out, _, σ', hrun, ?_, hiff, ⟨fun hexact ms hms hkind => ?_, fun hno a b => ?_⟩,
    fun a b hnumber hswapped => ?_⟩
  · rw [hpatched, ← List.map_reverse, List.reverse_reverse, List.map_map]
    rfl
  · by_contra hvalue
    obtain ⟨-, a, b, -, -, hplace, -⟩ := htells.literal ms hms
    have hbool := (hexact a b).1 ((hiff a b).2 ⟨ms, hms, .inr ⟨hkind, hvalue⟩, hplace⟩)
    exact absurd (htells.kind_unique hbool ⟨ms, hms, hkind, hplace⟩) (by decide)
  · rw [hiff]
    constructor
    · rintro ⟨ms, hms, hbool | ⟨hstring, hvalue⟩, hplace⟩
      · exact ⟨ms, hms, hbool, hplace⟩
      · exact absurd (hno ms hms hstring) hvalue
    · rintro ⟨ms, hms, hbool, hplace⟩
      exact ⟨ms, hms, .inl hbool, hplace⟩
  · obtain ⟨ms, hms, hbool | ⟨hstring, -⟩, hplace⟩ := (hiff a b).1 hswapped
    · exact absurd (htells.kind_unique ⟨ms, hms, hbool, hplace⟩ hnumber) (by decide)
    · exact absurd (htells.kind_unique ⟨ms, hms, hstring, hplace⟩ hnumber) (by decide)

/-! A file with a literal of each kind, and one whose string reads like a truth value. -/

def literalNode (kind value src : String) : Members :=
  [("nodeType", .str "Literal"), ("kind", .str kind), ("value", .str value), ("src", .str src)]

def unitNode (nodes : List Members) : Members :=
  [("nodeType", .str "SourceUnit"), ("nodes", .arr (nodes.map .obj))]

def holding (source : Chars) (tree : Json) : Session where
  files := { entries := [("in.sol", encode source)] }
  compiler := { answers := [some fun path => [(path ++ ":C", some tree)]] }

def mixedNodes : List Members :=
  [literalNode "bool" "true" "2:4:0", literalNode "string" "no" "9:4:0", literalNode "number" "1" "16:1:0"]

def mixed : Chars := "b=true;s=\"no\";n=1;".toList

theorem nodesOfItems_mixed :
    nodesOfItems [.obj (unitNode mixedNodes)] = [unitNode mixedNodes, literalNode "bool" "true" "2:4:0",
      literalNode "string" "no" "9:4:0", literalNode "number" "1" "16:1:0"] := rfl

theorem literalNodes_mixed : literalNodes [.obj (unitNode mixedNodes)] =
    [literalNode "bool" "true" "2:4:0", literalNode "string" "no" "9:4:0",
      literalNode "number" "1" "16:1:0"] := rfl

theorem tells_mixed : Tells mixed [.obj (unitNode mixedNodes)] where
  layout := by
    rw [nodesOfItems_mixed]
    simp only [forall_mem_cons]
    exact ⟨⟨rfl, rfl⟩, ⟨rfl, rfl⟩, ⟨rfl, rfl⟩, ⟨rfl, rfl⟩, nofun⟩
  literal := by
    rw [literalNodes_mixed]
    simp only [forall_mem_cons]
    refine ⟨⟨"bool", 2, 6, "true".toList, rfl, rfl, ⟨"b=".toList, ";s=\"no\";n=1;".toList, rfl, rfl, rfl⟩,
        .bool (by decide)⟩,
      ⟨"string", 9, 13, "\"no\"".toList, rfl, rfl, ⟨"b=true;s=".toList, ";n=1;".toList, rfl, rfl, rfl⟩,
        .string (p := "") (by decide) (by decide)⟩,
      ⟨"number", 16, 17, "1".toList, rfl, rfl, ⟨"b=true;s=\"no\";n=".toList, ";".toList, rfl, rfl, rfl⟩,
        .number (t := []) (u := []) (by decide) rfl⟩, nofun⟩
  other := by
    rw [nodesOfItems_mixed]
    simp only [forall_mem_cons]
    exact ⟨fun _ => ⟨rfl, nofun⟩, nofun, nofun, nofun, nofun⟩
  apart := by
    intro ms hms ms' hms' a b a' b' hplace hplace'
    have hplaces : (literalNodes [.obj (unitNode mixedNodes)]).map (placeOf? (encode mixed).length) =
        [some (2, 6), some (9, 13), some (16, 17)] := rfl
    have hmem := mem_map_of_mem (f := placeOf? (encode mixed).length) hms
    have hmem' := mem_map_of_mem (f := placeOf? (encode mixed).length) hms'
    rw [hplaces, hplace] at hmem
    rw [hplaces, hplace'] at hmem'
    simp only [mem_cons, Option.some.injEq, Prod.mk.injEq, not_mem_nil, or_false] at hmem hmem'
    omega

theorem compiles_mixed : Compiles (holding mixed (.obj (unitNode mixedNodes))) "in.sol" mixed
    [.obj (unitNode mixedNodes)] where
  exist := by decide
  read := by decide
  present := rfl
  reachable := rfl
  answer := ⟨_, _, rfl, rfl⟩
  nonempty := nofun

theorem swapTruthsInFile_swaps_mixed : Compiles (holding mixed (.obj (unitNode mixedNodes))) "in.sol" mixed
      [.obj (unitNode mixedNodes)] ∧ Tells mixed [.obj (unitNode mixedNodes)] ∧
    ∃ out ops σ', swapTruthsInFile "in.sol" "0.8.30" false (holding mixed (.obj (unitNode mixedNodes))) =
        (.ok (unifyNewlines out, ops), σ') ∧
      SwappedAt ops 2 6 ∧ ¬ SwappedAt ops 9 13 ∧ ¬ SwappedAt ops 16 17 := by
  refine ⟨compiles_mixed, tells_mixed, ?_⟩
  obtain ⟨out, ops, σ', hrun, -, -, hexact, hnumber⟩ :=
    swapTruthsInFile_swaps_readings "0.8.30" false compiles_mixed tells_mixed
  have hiff := hexact.2 (by
    rw [literalNodes_mixed]
    simp only [List.forall_mem_cons]
    exact ⟨fun hkind => absurd (Json.str.inj hkind) (by decide), fun _ => rfl, fun _ => rfl, nofun⟩)
  refine ⟨out, ops, σ', hrun, (hiff 2 6).2 ?_, fun hno => ?_, hnumber 16 17 ?_⟩
  · exact ⟨_, List.mem_cons_self, rfl, rfl⟩
  · have hstands := (hiff 9 13).1 hno
    exact absurd (tells_mixed.kind_unique hstands ⟨_, .tail _ List.mem_cons_self, rfl, rfl⟩) (by decide)
  · exact ⟨_, .tail _ (.tail _ List.mem_cons_self), rfl, rfl⟩

def quoted : Chars := "s=\"true\";".toList

def quotedTree : Json := .obj (unitNode [literalNode "string" "true" "2:6:0"])

theorem nodesOfItems_quoted : nodesOfItems [quotedTree] =
    [unitNode [literalNode "string" "true" "2:6:0"], literalNode "string" "true" "2:6:0"] := rfl

theorem tells_quoted : Tells quoted [quotedTree] where
  layout := by
    rw [nodesOfItems_quoted]
    simp only [forall_mem_cons]
    exact ⟨⟨rfl, rfl⟩, ⟨rfl, rfl⟩, nofun⟩
  literal := by
    have hnodes : literalNodes [quotedTree] = [literalNode "string" "true" "2:6:0"] := rfl
    rw [hnodes]
    simp only [forall_mem_cons]
    exact ⟨⟨"string", 2, 8, "\"true\"".toList, rfl, rfl, ⟨"s=".toList, ";".toList, rfl, rfl, rfl⟩,
      .string (p := "") (by decide) (by decide)⟩, nofun⟩
  other := by
    rw [nodesOfItems_quoted]
    simp only [forall_mem_cons]
    exact ⟨fun _ => ⟨rfl, nofun⟩, nofun, nofun⟩
  apart := by
    intro ms hms ms' hms' a b a' b' hplace hplace'
    cases (mem_singleton.1 hms).trans (mem_singleton.1 hms').symm
    exact .inl (Prod.ext_iff.1 (Option.some.inj (hplace.symm.trans hplace')))

theorem compiles_quoted : Compiles (holding quoted quotedTree) "in.sol" quoted [quotedTree] where
  exist := by decide
  read := by decide
  present := rfl
  reachable := rfl
  answer := ⟨_, _, rfl, rfl⟩
  nonempty := nofun

def quotedSwap : ByteSwap :=
  ⟨2, 8, "\"true\"".toList, "(((((7 + 8) == 15) && ((7 * 8) >= 56)) || ((7 % 8) < 8)))".toList⟩

/-- The value of a string can read like a truth value; then the string is swapped. -/
theorem string_swapped_for_truth : Compiles (holding quoted quotedTree) "in.sol" quoted [quotedTree] ∧
    Tells quoted [quotedTree] ∧ StandsAt quoted [quotedTree] "string" 2 8 ∧
    (swapTruthsInFile "in.sol" "0.8.30" false (holding quoted quotedTree)).1 =
      .ok ("s=(((((7 + 8) == 15) && ((7 * 8) >= 56)) || ((7 % 8) < 8)));".toList, [quotedSwap.listed]) := by
  refine ⟨compiles_quoted, tells_quoted, ⟨_, List.mem_cons_self, rfl, rfl⟩, ?_⟩
  obtain ⟨σ', hrun⟩ := swapTruthsInFile_ok "0.8.30" false compiles_quoted
  have hdrawn : drawnFor quoted [quotedTree] (holding quoted quotedTree).draws = [quotedSwap] := by
    decide +kernel
  have hthin : thinOut [quotedSwap] = [quotedSwap] := by simp [thinOut, keepApart]
  have happly : unifyNewlines (decodeLossy (applySwaps (encode quoted) [quotedSwap])) =
    "s=(((((7 + 8) == 15) && ((7 * 8) >= 56)) || ((7 % 8) < 8)));".toList := by decide +kernel
  rw [hrun, hdrawn, hthin, happly]
  rfl

end Obscura.Literal
