import Mathlib.Data.List.Induction
import Mathlib.Data.List.Pairwise
import Obscura.Proofs.Edits
import Obscura.Proofs.Integers
import Obscura.Proofs.Locals

/-
  Grouping of scalars as one edit. The edits come from four walks over the tree: the
  declarations of the variables go, the names that refer to them follow, and each
  contract with such variables gets its structure. With nodes that are numbered apart
  each variable has one declaration (`forall₂_declaring`) and each contract one
  structure (`perm_structs`), and edits that lie apart are made all at once.
-/

namespace Obscura.Storage

open Text Ast Json Number List Assoc

variable {bs ds rs : List (Patch UInt8)} {c ms : Members} {groups : Assoc Key (List Scalar)}
  {k : Key} {l : List (Key × Scalar)} {m n : Int} {p : Json × Members} {src : String}
  {contract v : Json} {vs : List Scalar} {structs : List (List Edit)} {names : List String}

/-! ## Numbers -/

/-- The whole number that a value is. -/
def number? : Json → Option Int
  | .int n => some n
  | _ => none

/-- Nodes have whole numbers or none, no two of them the same. Contracts have one, and
a name refers by one or not at all. -/
structure Numbered (tree : Json) : Prop where
  node : ∀ ms ∈ nodes tree, fieldOf "id" ms = .null ∨ ∃ n, fieldOf "id" ms = .int n
  contract : ∀ ms ∈ nodesOf "ContractDefinition" tree, ∃ n, fieldOf "id" ms = .int n
  name : ∀ ms ∈ nodesOf "Identifier" tree,
    fieldOf "referencedDeclaration" ms = .null ∨ ∃ n, fieldOf "referencedDeclaration" ms = .int n
  distinct : ((nodes tree).filterMap fun ms => number? (fieldOf "id" ms)).Nodup

theorem Numbered.eq {tree : Json} (h : Numbered tree) {ms' : Members} (hms : ms ∈ nodes tree)
    (hms' : ms' ∈ nodes tree) (hn : fieldOf "id" ms = .int n) (hn' : fieldOf "id" ms' = .int n) :
    ms = ms' := by
  by_contra hne
  have hpair := pairwise_filterMap.1 h.distinct
  have := @Pairwise.forall _ _ _ ⟨fun a b hab i hi j hj => (hab j hj i hi).symm⟩ hpair ms hms ms' hms' hne
  exact this n (by rw [hn]; rfl) n (by rw [hn']; rfl) rfl

theorem readNumber_shown (h : Ast.readNumber (shown (.int n)) = .ok m) : m = n := by
  have hread : readInt? (render n) = some m := by
    unfold Ast.readNumber at h
    split at h
    · cases h
      assumption
    · cases h
  rw [Literal.readInt?_render] at hread
  split at hread
  · exact (Option.some.inj hread).symm
  · cases hread

/-! ## Walks -/

theorem map_placedNodes (contract v : Json) : (placedNodes contract v).map Prod.snd = nodes v :=
  map_nodesIn contractBelow contract v

/-- The contract around a node is the given one, or one of those among the nodes. -/
def PlacedIn (contract : Json) (ns : List Members) (p : Json × Members) : Prop :=
  p.1 = contract ∨ ∃ ms ∈ ns, isKind "ContractDefinition" ms = true ∧ p.1 = fieldOf "id" ms

theorem PlacedIn.mono {ns ns' : List Members}
    (h : PlacedIn contract ns p) (hsub : ns ⊆ ns') : PlacedIn contract ns' p := by
  rcases h with h | ⟨ms, hms, h⟩
  · exact .inl h
  · exact .inr ⟨ms, hsub hms, h⟩

theorem placedIn_of_mem (contract v : Json) (h : p ∈ placedNodes contract v) :
    PlacedIn contract (nodes v) p := by
  induction v using walkInduction generalizing contract with
  | cons v vs hv hvs =>
    rcases mem_append.1 h with h | h
    · exact (hv _ h).mono (subset_append_left _ _)
    · exact (hvs _ h).mono (subset_append_right _ _)
  | obj ms _ hms =>
    rw [placedNodes, nodesIn, nodesInMembers_eq] at h
    rw [nodes, nodesOfMembers_eq]
    rcases mem_cons.1 h with rfl | h
    · exact .inl rfl
    · rcases (hms _ h).mono (subset_cons_self ms _) with hp | hp
      · rw [contractBelow] at hp
        split at hp
        · rename_i hkind
          exact .inr ⟨ms, mem_cons_self, hkind, hp⟩
        · exact .inl hp
      · exact .inr hp
  | _ => cases h

/-! ## Lists by key -/

section Keys

variable {ι κ α : Type} [DecidableEq κ]

theorem has_iff {k : κ} {m : Assoc κ α} : m.has k ↔ k ∈ m.map Prod.fst := by
  rw [has]
  induction m with
  | nil => simp [find]
  | cons e m ih =>
    rw [find]
    split
    · rename_i h
      simp [h]
    · rename_i h
      rw [ih, map_cons, mem_cons]
      exact ⟨.inr, fun hk => hk.resolve_left fun heq => h heq.symm⟩

theorem foldl_set_of_nodup {l m : Assoc κ α} (h : ((m ++ l).map Prod.fst).Nodup) :
    l.foldl (fun m e => Assoc.set e.1 e.2 m) m = m ++ l := by
  have hset {k : κ} {v : α} {m : Assoc κ α} (hk : k ∉ m.map Prod.fst) : Assoc.set k v m = m ++ [(k, v)] := by
    induction m with
    | nil => rfl
    | cons e m ih =>
      rw [map_cons, mem_cons, not_or] at hk
      rw [Assoc.set, if_neg fun heq => hk.1 heq.symm, ih hk.2]
      rfl
  induction l generalizing m with
  | nil => exact (append_nil m).symm
  | cons e l ih =>
    have hnew : e.1 ∉ m.map Prod.fst := by
      intro hmem
      rw [map_append, map_cons] at h
      exact (nodup_append.1 h).2.2 e.1 hmem e.1 mem_cons_self rfl
    rw [foldl_cons, hset hnew, ih (by rwa [append_assoc]), append_assoc]
    rfl

theorem find_foldl_set {k : κ} {x : α} {l m : Assoc κ α}
    (h : (l.foldl (fun m e => set e.1 e.2 m) m).find k = some x) : m.find k = some x ∨ (k, x) ∈ l := by
  induction l generalizing m with
  | nil => exact .inl h
  | cons e l ih =>
    rcases ih h with h | h
    · rw [find_set] at h
      split at h
      · rename_i heq
        cases h
        exact .inr (heq ▸ mem_cons_self)
      · exact .inl h
    · exact .inr (.tail _ h)

variable {R : α → ι → Prop}

/-- Items drawn from numbered ones, at most one from each, are told by their numbers. -/
theorem forall₂_drawn {kind : ι → Bool} {num : ι → Option κ} {key : α → κ} {xs : List ι}
    {ls : List (List α)}
    (h : Forall₂ (fun x l => l = [] ∨ ∃ y, l = [y] ∧ kind x = true ∧ num x = some (key y) ∧ R y x) xs ls)
    (hnum : (xs.filterMap num).Nodup) :
    Forall₂ R ls.flatten
        (xs.filter fun x => kind x && (num x).any fun k => decide (k ∈ ls.flatten.map key)) ∧
      (ls.flatten.map key).Sublist (xs.filterMap num) := by
  induction h with
  | nil => exact ⟨.nil, .slnil⟩
  | @cons x l xs ls hx _ ih =>
    have hsub : (xs.filterMap num).Sublist ((x :: xs).filterMap num) := (sublist_cons_self x xs).filterMap num
    obtain ⟨hdrawn, hkeys⟩ := ih (hnum.sublist hsub)
    -- the number of the first item is none of those that come behind it
    have hfresh {k : κ} (hk : num x = some k) : k ∉ xs.filterMap num := by
      rw [filterMap_cons_some hk] at hnum
      exact (nodup_cons.1 hnum).1
    rcases hx with rfl | ⟨y, rfl, hkind, hkey, hr⟩
    · rw [flatten_cons, nil_append, filter_cons_of_neg]
      · exact ⟨hdrawn, hkeys.trans hsub⟩
      · intro hpos
        rw [Bool.and_eq_true, Option.any_eq_true] at hpos
        obtain ⟨-, k, hk, hmem⟩ := hpos
        exact hfresh hk (hkeys.subset (of_decide_eq_true hmem))
    · rw [flatten_cons, singleton_append, map_cons, filterMap_cons_some hkey,
        filter_cons_of_pos]
      · refine ⟨.cons hr ?_, hkeys.cons_cons _⟩
        rw [filter_congr (q := fun x => kind x && (num x).any fun k => decide (k ∈ ls.flatten.map key))]
        · exact hdrawn
        · intro x' hx'
          refine congrArg (kind x' && ·) ?_
          cases hnum' : num x' with
          | none => rfl
          | some k =>
            have hne : k ≠ key y := by
              rintro rfl
              exact hfresh hkey (mem_filterMap.2 ⟨x', hx', hnum'⟩)
            show decide (k ∈ key y :: ls.flatten.map key) = decide (k ∈ ls.flatten.map key)
            simp [hne]
      · rw [hkind, hkey]
        exact decide_eq_true mem_cons_self

theorem forall₂_flatten {q : ι → Bool} {xs : List ι} {ls : List (List α)}
    (h : Forall₂ (fun x l => if q x = true then ∃ y, l = [y] ∧ R y x else l = []) xs ls) :
    Forall₂ R ls.flatten (xs.filter q) := by
  induction h with
  | nil => exact .nil
  | cons hx _ ih =>
    rw [filter_cons]
    split at hx
    · rename_i hq
      obtain ⟨y, rfl, hr⟩ := hx
      rw [if_pos hq]
      exact .cons hr ih
    · rename_i hq
      subst hx
      rw [if_neg hq]
      exact ih

theorem exists_of_forall₂ {xs : List α} {ys : List ι} (h : Forall₂ R xs ys) {x : α}
    (hx : x ∈ xs) : ∃ y ∈ ys, R x y :=
  exists_of_drawn (sublistForall₂_iff.2 ⟨ys, h, .refl ys⟩) x hx

theorem forall₂_along {β : Type} {R : ι → α → Prop} {S : ι → β → Prop} {T : β → α → Prop} {xs : List ι}
    {ys : List α} {zs : List β} (hR : Forall₂ R xs ys) (hS : Forall₂ S xs zs)
    (hT : ∀ x y z, y ∈ ys → R x y → S x z → T z y) : Forall₂ T zs ys := by
  induction hR generalizing zs with
  | nil =>
    cases hS
    exact .nil
  | cons hxy _ ih =>
    cases hS with
    | cons hxz hS =>
      exact .cons (hT _ _ _ mem_cons_self hxy hxz) (ih hS fun x y z hy => hT x y z (.tail _ hy))

theorem find_push (k j : κ) (v : α) (m : Assoc κ (List α)) :
    (push k v m).find j = if k = j then some ((m.find k).getD [] ++ [v]) else m.find j := by
  induction m with
  | nil => simp [push, find]
  | cons e m ih =>
    by_cases h : e.1 = k
    · simp only [push, h, if_true, find, Option.getD_some]
      split <;> rfl
    · simp only [push, h, if_false, find, ih]
      by_cases hj : e.1 = j
      · have : k ≠ j := fun x => h (hj.trans x.symm)
        simp [hj, this]
      · simp [hj]

theorem keys_push (k : κ) (v : α) (m : Assoc κ (List α)) :
    (push k v m).map Prod.fst = if k ∈ m.map Prod.fst then m.map Prod.fst else m.map Prod.fst ++ [k] := by
  induction m with
  | nil => rfl
  | cons e m ih =>
    by_cases h : e.1 = k
    · simp [push, h]
    · have hk : k ∈ (e :: m).map Prod.fst ↔ k ∈ m.map Prod.fst := by
        rw [map_cons, mem_cons, or_iff_right fun heq => h heq.symm]
      rw [push, if_neg h, map_cons, ih]
      simp only [hk]
      split <;> rfl

/-- **Items pushed under their keys**: each key that occurs has its items, in order. -/
theorem grouped_spec (g : α → κ) (vs : List α) :
    ((vs.foldl (fun m v => push (g v) v m) []).map Prod.fst).Nodup ∧
      ∀ k, (vs.foldl (fun m v => push (g v) v m) []).find k =
        if vs.filter (fun v => g v = k) = [] then none else some (vs.filter fun v => g v = k) := by
  induction vs using reverseRecOn with
  | nil => exact ⟨.nil, fun _ => rfl⟩
  | append_singleton vs v ih =>
    obtain ⟨hkeys, hfind⟩ := ih
    rw [foldl_append, foldl_cons, foldl_nil]
    refine ⟨?_, fun k => ?_⟩
    · rw [keys_push]
      split
      · exact hkeys
      · rename_i hnew
        exact nodup_append.2 ⟨hkeys, nodup_singleton _, fun a ha b hb hab =>
          hnew (mem_singleton.1 hb ▸ hab ▸ ha)⟩
    · rw [find_push, filter_append, filter_singleton]
      by_cases h : g v = k
      · subst h
        rw [if_pos rfl, hfind]
        split <;> simp_all
      · rw [if_neg h, hfind]
        simp [h]

theorem find_of_mem {m : Assoc κ α} (hm : (m.map Prod.fst).Nodup) {e : κ × α} (he : e ∈ m) :
    m.find e.1 = some e.2 := by
  induction m with
  | nil => cases he
  | cons d m ih =>
    rw [map_cons, nodup_cons] at hm
    rcases mem_cons.1 he with rfl | he
    · rw [find, if_pos rfl]
    · rw [find, if_neg, ih hm.2 he]
      intro heq
      exact hm.1 (heq ▸ mem_map_of_mem he)

end Keys

/-! ## What moves -/

/-- The value is the number of one of the variables. -/
def isNumberOf (vars : Assoc Key Scalar) (v : Json) : Bool :=
  (number? v).any fun n => vars.has (.whole n)

/-- The declarations of the variables, each with the contract around it. -/
def declaring (vars : Assoc Key Scalar) (tree : Json) : List (Json × Members) :=
  (placedNodes .null tree).filter fun p =>
    isKind "VariableDeclaration" p.2 && isNumberOf vars (fieldOf "id" p.2)

/-- The names that refer to one of the variables. -/
def naming (vars : Assoc Key Scalar) (tree : Json) : List Members :=
  (nodesOf "Identifier" tree).filter fun ms => isNumberOf vars (fieldOf "referencedDeclaration" ms)

/-- The variable stands in the contract. -/
def Scalar.isOf (contract : Members) (v : Scalar) : Bool :=
  number? v.contract == number? (fieldOf "id" contract)

/-- The contracts with variables that move. -/
def housing (vars : Assoc Key Scalar) (tree : Json) : List Members :=
  (nodesOf "ContractDefinition" tree).filter fun c => vars.values.any (Scalar.isOf c)

/-- The variable is what the node declares in its contract. -/
def IsDeclaredBy (v : Scalar) (p : Json × Members) : Prop :=
  v.id = fieldOf "id" p.2 ∧ fieldOf "name" p.2 = .str v.name ∧ typeText p.2 = .ok (v.type, v.torn) ∧
    v.contract = p.1

theorem isNumberOf_eq (vars : Assoc Key Scalar) (v : Json) : isNumberOf vars v =
    ((number? v).map Key.whole).any fun k => decide (k ∈ vars.map Prod.fst) := by
  rw [isNumberOf]
  cases number? v with
  | none => rfl
  | some n => exact Bool.eq_iff_iff.2 (has_iff.trans decide_eq_true_iff.symm)

section Scalars

variable {s : Bytes} {known : Assoc Key Site} {vars : Assoc Key Scalar} {tree : Json}

/-- A variable with its number is what the node declares in a contract with a site. -/
def Moves (known : Assoc Key Site) (e : Key × Scalar) (p : Json × Members) : Prop :=
  (fieldOf "id" p.2).key = .ok e.1 ∧ fieldOf "id" p.2 ≠ .null ∧ IsDeclaredBy e.2 p ∧
    ∃ k, p.1.key = .ok k ∧ known.has k = true

theorem map_declaring (vars : Assoc Key Scalar) (tree : Json) : (declaring vars tree).map Prod.snd =
    (nodesOf "VariableDeclaration" tree).filter fun ms => isNumberOf vars (fieldOf "id" ms) := by
  rw [nodesOf, filter_filter, ← map_placedNodes .null tree, filter_map, declaring]
  refine congrArg _ (filter_congr fun p _ => ?_)
  exact Bool.and_comm _ _

theorem named?_ok {type : String × Bool}
    (h : named? ms type contract = .ok l) : l = [] ∨ ∃ k name, fieldOf "name" ms = .str name ∧
      (fieldOf "id" ms).key = .ok k ∧ fieldOf "id" ms ≠ .null ∧
      l = [(k, ⟨fieldOf "id" ms, name, type.1, contract, type.2⟩)] := by
  unfold named? at h
  split at h
  · rename_i name hname
    split at h
    · exact .inl (Except.ok.inj h).symm
    · split at h
      · exact .inl (Except.ok.inj h).symm
      · rename_i hid
        obtain ⟨k, hk, h⟩ := bind_ok.1 h
        exact .inr ⟨k, name, hname, hk, hid, (pure_ok.1 h).symm⟩
  · split at h
    · exact .inl (Except.ok.inj h).symm
    · split at h
      · exact .inl (Except.ok.inj h).symm
      · cases h
  · split at h
    · cases h
    · exact .inl (Except.ok.inj h).symm

theorem scalarHere_ok (h : scalarHere known p.1 p.2 = .ok l) :
    l = [] ∨ ∃ e, l = [e] ∧ isKind "VariableDeclaration" p.2 ∧ Moves known e p := by
  unfold scalarHere at h
  split at h
  · rename_i hkind
    obtain ⟨k, hk, h⟩ := bind_ok.1 h
    split at h
    · exact .inl (pure_ok.1 h).symm
    · rename_i hknown
      split at h
      · exact .inl (pure_ok.1 h).symm
      · obtain ⟨type, htype, h⟩ := bind_ok.1 h
        split at h
        · split at h
          · rcases named?_ok h with rfl | ⟨j, name, hname, hj, hid, rfl⟩
            · exact .inl rfl
            · exact .inr ⟨_, rfl, hkind, hj, hid, ⟨rfl, hname, htype, rfl⟩, k, hk, by simpa using hknown⟩
          · exact .inl (pure_ok.1 h).symm
        · exact .inl (pure_ok.1 h).symm
  · exact .inl (pure_ok.1 h).symm

theorem key_of_number (h : v = .null ∨ ∃ n, v = .int n) (hk : v.key = .ok k)
    (hne : v ≠ .null) : (number? v).map Key.whole = some k := by
  rcases h with rfl | ⟨n, rfl⟩
  · exact absurd rfl hne
  · cases hk
    rfl

section Found

variable (hnum : Numbered tree) (hvars : scalars known tree = .ok vars)

include hnum hvars

/-- **Each variable has one declaration**, and they come in the order of the tree. -/
theorem forall₂_declaring :
    Forall₂ (fun e p => Moves known e p) vars (declaring vars tree) := by
  obtain ⟨found, hfound, h⟩ := bind_ok.1 hvars
  have hnodes (p : Json × Members) (hp : p ∈ placedNodes .null tree) : p.2 ∈ nodes tree :=
    map_placedNodes .null tree ▸ mem_map_of_mem hp
  have hnumbers : ((placedNodes .null tree).filterMap fun p =>
      (number? (fieldOf "id" p.2)).map Key.whole).Nodup := by
    have hwhole : Function.Injective Key.whole := fun a b hab => Key.whole.inj hab
    have := (hnum.distinct.map hwhole)
    rw [← map_placedNodes .null tree, filterMap_map, map_filterMap] at this
    exact this
  have hsteps : Forall₂ (fun p l => l = [] ∨ ∃ e, l = [e] ∧ isKind "VariableDeclaration" p.2 = true ∧
      (number? (fieldOf "id" p.2)).map Key.whole = some e.1 ∧ Moves known e p)
      (placedNodes .null tree) found := by
    refine Forall₂.imp ?_ ((forall₂_and_left _ _).2 ⟨hnodes, forall₂_of_mapM hfound⟩)
    rintro p l ⟨hp, hl⟩
    rcases scalarHere_ok hl with rfl | ⟨e, rfl, hkind, hmoves⟩
    · exact .inl rfl
    · exact .inr ⟨e, rfl, hkind, key_of_number (hnum.node p.2 hp) hmoves.1 hmoves.2.1, hmoves⟩
  obtain ⟨hdrawn, hkeys⟩ := forall₂_drawn hsteps hnumbers
  have hvars : found.flatten = vars := by
    rw [← pure_ok.1 h]
    exact (foldl_set_of_nodup (m := []) (hnumbers.sublist hkeys)).symm
  rw [hvars] at hdrawn
  simp only [declaring, isNumberOf_eq]
  exact hdrawn

theorem moves_of_mem {e : Key × Scalar} (he : e ∈ vars) : ∃ p ∈ placedNodes .null tree, Moves known e p := by
  obtain ⟨p, hp, hmoves⟩ := exists_of_forall₂ (forall₂_declaring hnum hvars) he
  exact ⟨p, mem_of_mem_filter hp, hmoves⟩

theorem has_key (hv : v = .null ∨ ∃ n, v = .int n) (hk : v.key = .ok k) : vars.has k = isNumberOf vars v := by
  rcases hv with rfl | ⟨n, rfl⟩
  · cases hk
    refine Bool.eq_false_iff.2 fun hhas => ?_
    obtain ⟨e, he, hnull⟩ := mem_map.1 (has_iff.1 hhas)
    obtain ⟨p, hp, hkey, hne, -⟩ := moves_of_mem hnum hvars he
    have hnode : p.2 ∈ nodes tree := map_placedNodes .null tree ▸ mem_map_of_mem hp
    rcases hnum.node p.2 hnode with hid | ⟨n, hid⟩
    · exact hne hid
    · rw [hid, hnull] at hkey
      cases hkey
  · cases hk
    rfl

/-- What a walk finds at the nodes whose member is the number of a variable. -/
theorem forall₂_found {α : Type} {xs : List Members} {member : String} {o : Members → Option α}
    {found : List (List α)}
    (hxs : ∀ ms ∈ xs, fieldOf member ms = .null ∨ ∃ n, fieldOf member ms = .int n)
    (h : (xs.mapM fun ms => do
      let k ← (fieldOf member ms).key
      return if vars.has k then (o ms).toList else []) = .ok found)
    (hread : ∀ ms ∈ xs.filter fun ms => isNumberOf vars (fieldOf member ms), o ms ≠ none) :
    Forall₂ (fun y ms => o ms = some y) found.flatten
      (xs.filter fun ms => isNumberOf vars (fieldOf member ms)) := by
  refine forall₂_flatten (Forall₂.imp ?_
    ((forall₂_and_left _ _).2 ⟨fun ms hms => hms, forall₂_of_mapM h⟩))
  rintro ms l ⟨hms, hl⟩
  obtain ⟨k, hk, hl⟩ := bind_ok.1 hl
  rw [has_key hnum hvars (hxs ms hms) hk, pure_ok] at hl
  subst hl
  split
  · rename_i hq
    obtain ⟨y, hy⟩ := Option.ne_none_iff_exists'.1 (hread ms (mem_filter.2 ⟨hms, hq⟩))
    exact ⟨y, by rw [hy]; rfl, hy⟩
  · rfl

theorem forall₂_declarations {rs : List Range} (h : declarations vars tree = .ok rs)
    (hread : ∀ p ∈ declaring vars tree, declarationRange? p.2 ≠ none) :
    Forall₂ (fun r p => declarationRange? p.2 = some r) rs (declaring vars tree) := by
  obtain ⟨found, hfound, h⟩ := bind_ok.1 h
  rw [← pure_ok.1 h, ← forall₂_map_right_iff (R := fun r ms => declarationRange? ms = some r) (f := Prod.snd),
    map_declaring]
  refine forall₂_found hnum hvars (fun ms hms => hnum.node ms (mem_of_mem_filter hms)) hfound fun ms hms => ?_
  rw [← map_declaring] at hms
  obtain ⟨p, hp, rfl⟩ := mem_map.1 hms
  exact hread p hp

theorem forall₂_usages {us : List Usage} (h : usages vars tree = .ok us)
    (hread : ∀ ms ∈ naming vars tree, rangeOf? ms ≠ none) :
    Forall₂ (fun u ms => rangeOf? ms = some u.range ∧ u.target = fieldOf "referencedDeclaration" ms) us
      (naming vars tree) := by
  obtain ⟨found, hfound, h⟩ := bind_ok.1 h
  rw [← pure_ok.1 h]
  simp only [← Option.toList_map] at hfound
  refine Forall₂.imp ?_ (forall₂_found hnum hvars hnum.name hfound fun ms hms => ?_)
  · intro u ms hu
    obtain ⟨r, hr, rfl⟩ := Option.map_eq_some_iff.1 hu
    exact ⟨hr, rfl⟩
  · rw [Ne, Option.map_eq_none_iff]
    exact hread ms hms

end Found

/-! ## The edits of each walk -/

/-- The piece takes out a declaration with the blanks and the semicolon behind it. -/
def Deletes (s : Bytes) (e : Patch UInt8) (p : Json × Members) : Prop :=
  ∃ r, declarationRange? p.2 = some r ∧ e = ⟨r.start.toNat, (declarationEnd s r.stop).toNat, []⟩

/-- The piece puts the field of a variable in the place of its name. -/
def Redirects (vars : Assoc Key Scalar) (e : Patch UInt8) (ms : Members) : Prop :=
  ∃ r n v, rangeOf? ms = some r ∧ fieldOf "referencedDeclaration" ms = .int n ∧
    vars.find (.whole n) = some v ∧ e = ⟨r.start.toNat, r.stop.toNat, encode (reference instanceName v)⟩

/-- The structure of some variables: a line for each of them, in order, and the variable
that holds the structure. -/
def structureText (vs : List Scalar) : Chars :=
  "    struct __BiAnScalars \x7b\n".toList ++
    vs.flatMap (fun v => "        ".toList ++ v.type.toList ++ [' '] ++ v.field ++ ";\n".toList) ++
    "    \x7d\n    __BiAnScalars private __scalar_vectors;\n".toList

theorem structBlock_eq (vs : List Scalar) : structBlock structName instanceName vs = structureText vs := by
  rw [structBlock, joinWith_append _ _ (cons_ne_nil _ _), flatMap_append, flatMap_map, flatMap_singleton]
  refine congrArg₂ (· ++ ·) (congrArg₂ (· ++ ·) (by decide) ?_) (by decide)
  exact congrArg (vs.flatMap ·) (funext fun v => append_assoc ..)

/-- The piece puts the structure of a contract where it takes declarations. -/
def Houses (s : Bytes) (vars : Assoc Key Scalar) (e : Patch UInt8) (contract : Members) : Prop :=
  ∃ p, insertionPoint? s contract = some p ∧
    e = ⟨p.toNat, p.toNat, encode (structureText (vars.values.filter (Scalar.isOf contract)))⟩

def deletion (s : Bytes) (r : Range) : Edit :=
  ⟨r.start, declarationEnd s r.stop, []⟩

theorem redirects_of_usageEdit (hnum : Numbered tree) {u : Usage} {e : Edit}
    (h : usageEdit vars u = .ok e) (hms : ms ∈ naming vars tree) (hr : rangeOf? ms = some u.range)
    (ht : u.target = fieldOf "referencedDeclaration" ms) :
    Redirects vars e.patch ms ∧ e.start = u.range.start ∧ e.stop = u.range.stop := by
  obtain ⟨m, hm, h⟩ := bind_ok.1 h
  obtain ⟨n, hn⟩ : ∃ n, fieldOf "referencedDeclaration" ms = .int n := by
    refine (hnum.name ms (mem_of_mem_filter hms)).resolve_left fun hnull => ?_
    have hq := (mem_filter.1 hms).2
    rw [hnull] at hq
    cases hq
  rw [ht, hn] at hm
  cases readNumber_shown hm
  split at h
  · rename_i v hv
    cases pure_ok.1 h
    exact ⟨⟨u.range, m, v, hr, hn, hv, rfl⟩, rfl, rfl⟩
  · cases h

/-! ## Structures -/

/-- The key of the contract that a variable stands in. -/
def Scalar.home (v : Scalar) : Key :=
  .whole ((number? v.contract).getD 0)

def contractKey (c : Members) : Key :=
  .whole ((number? (fieldOf "id" c)).getD 0)

theorem byContract_eq
    (hvs : ∀ v ∈ vs, ∃ n, v.contract = .int n) (h : byContract vs = .ok groups) :
    groups = vs.foldl (fun m v => push v.home v m) [] := by
  suffices hrun : ∀ m, vs.foldlM (fun m v => return push (← v.contract.key) v m) m = .ok groups →
      groups = vs.foldl (fun m v => push v.home v m) m from hrun [] h
  clear h
  induction vs with
  | nil => exact fun m h => (pure_ok.1 h).symm
  | cons v vs ih =>
    intro m h
    obtain ⟨n, hn⟩ := hvs v mem_cons_self
    rw [foldlM_cons] at h
    obtain ⟨m', hm, h⟩ := bind_ok.1 h
    obtain ⟨k, hk, hm⟩ := bind_ok.1 hm
    rw [hn] at hk
    cases hk
    cases pure_ok.1 hm
    have hhome : v.home = .whole n := by rw [Scalar.home, hn]; rfl
    rw [foldl_cons, hhome]
    exact ih (fun v' hv' => hvs v' (.tail _ hv')) _ h

theorem isOf_iff_home {v : Scalar} (hv : v.contract = .int m)
    (hc : fieldOf "id" c = .int n) : Scalar.isOf c v ↔ v.home = contractKey c := by
  rw [Scalar.isOf, Scalar.home, contractKey, hv, hc, beq_iff_eq]
  exact ⟨fun h => congrArg Key.whole (Option.some.inj h), fun h => congrArg some (Key.whole.inj h)⟩

def structPiece (known : Assoc Key Site) (vars : List Scalar) (k : Key) : Patch UInt8 :=
  ⟨(((known.find k).map Site.position).getD 0).toNat, (((known.find k).map Site.position).getD 0).toNat,
    encode (structureText (vars.filter fun v => v.home = k))⟩

theorem map_patch_structs
    (h : groups.mapM (structEdit known) = .ok structs)
    (hgroups : ∀ g ∈ groups, g.2 = vs.filter (fun v => v.home = g.1) ∧ known.has g.1 = true) :
    structs.flatten.map Edit.patch = groups.map (fun g => structPiece known vs g.1) ∧
      ∀ e ∈ structs.flatten, e.start = e.stop := by
  have hsteps := (forall₂_and_left _ _).2 ⟨hgroups, forall₂_of_mapM h⟩
  clear h hgroups
  induction hsteps with
  | nil => exact ⟨rfl, nofun⟩
  | @cons g l groups structs hg _ ih =>
    obtain ⟨⟨hlist, hhas⟩, hl⟩ := hg
    obtain ⟨site, hsite⟩ := Option.isSome_iff_exists.1 hhas
    rw [structEdit, hsite] at hl
    dsimp only at hl
    split at hl
    · cases hl
    · cases hl
      refine ⟨?_, ?_⟩
      · have hpiece : structPiece known vs g.1 = ⟨site.position.toNat, site.position.toNat,
            encode (structBlock structName instanceName g.2)⟩ := by
          rw [structPiece, hsite, ← hlist, structBlock_eq]
          rfl
        rw [flatten_cons, map_append, ih.1]
        exact congrArg (· :: _) hpiece.symm
      · intro e he
        rcases mem_append.1 he with he | he
        · cases mem_singleton.1 he
          rfl
        · exact ih.2 e he

variable (hnum : Numbered tree) (hsites : sites s tree = .ok known)

include hnum hsites

theorem contract_of_find {site : Site} (h : known.find k = some site) :
    ∃ c ∈ nodesOf "ContractDefinition" tree, ∃ n, fieldOf "id" c = .int n ∧
      k = .whole n ∧ insertionPoint? s c = some site.position := by
  obtain ⟨found, hfound, hsites⟩ := bind_ok.1 hsites
  rw [← pure_ok.1 hsites] at h
  rcases find_foldl_set h with h | h
  · cases h
  · obtain ⟨c, hc, hkind, l, hl, hmem⟩ := saidOf_atContracts hfound h
    have hc : c ∈ nodesOf "ContractDefinition" tree := mem_filter.2 ⟨hc, hkind⟩
    obtain ⟨n, hn⟩ := hnum.contract c hc
    rw [siteHere.eq_def, structurePoint?_eq] at hl
    split at hl
    · cases hl
      cases hmem
    · rename_i hpoint
      obtain ⟨j, hj, hl⟩ := bind_ok.1 hl
      cases pure_ok.1 hl
      cases mem_singleton.1 hmem
      rw [hn] at hj
      exact ⟨c, hc, n, hn, (Except.ok.inj hj).symm, hpoint⟩

variable (hvars : scalars known tree = .ok vars)

include hvars

theorem contract_of_mem {v : Scalar} (hv : v ∈ vars.values) :
    ∃ c ∈ nodesOf "ContractDefinition" tree, ∃ n site, fieldOf "id" c = .int n ∧ v.contract = .int n ∧
      known.find (.whole n) = some site ∧ insertionPoint? s c = some site.position := by
  obtain ⟨e, he, rfl⟩ := mem_map.1 hv
  obtain ⟨p, hp, -, -, ⟨-, -, -, hcontract⟩, k, hk, hhas⟩ := moves_of_mem hnum hvars he
  rw [has] at hhas
  obtain ⟨site, hsite⟩ := Option.isSome_iff_exists.1 hhas
  obtain ⟨c, hc, n, hn, rfl, hpoint⟩ := contract_of_find hnum hsites hsite
  refine ⟨c, hc, n, site, hn, ?_, hsite, hpoint⟩
  rw [hcontract]
  rcases placedIn_of_mem .null tree hp with hnull | ⟨ms, hms, hkind, hid⟩
  · rw [hnull] at hk
    cases hk
  · obtain ⟨m, hm⟩ := hnum.contract ms (mem_filter.2 ⟨hms, hkind⟩)
    rw [hid, hm] at hk ⊢
    exact congrArg Json.int (Key.whole.inj (Except.ok.inj hk))

theorem perm_keys {keys : List Key} (hnodup : keys.Nodup)
    (hkeys : ∀ k, k ∈ keys ↔ ∃ v ∈ vars.values, v.home = k) :
    keys.Perm ((housing vars tree).map contractKey) := by
  have hhousing {c : Members} (hc : c ∈ housing vars tree) : c ∈ nodesOf "ContractDefinition" tree :=
    mem_of_mem_filter hc
  refine (perm_ext_iff_of_nodup hnodup ?_).2 fun k => ?_
  · have hpair := (pairwise_filterMap.1 hnum.distinct).sublist
      ((filter_sublist (p := fun c => vars.values.any (Scalar.isOf c))).trans
        (filter_sublist (p := isKind "ContractDefinition") (l := nodes tree)))
    refine pairwise_map.2 (hpair.imp_of_mem fun {c c'} hc hc' hne heq => ?_)
    obtain ⟨n, hn⟩ := hnum.contract c (hhousing hc)
    obtain ⟨n', hn'⟩ := hnum.contract c' (hhousing hc')
    rw [hn, hn'] at hne
    rw [contractKey, contractKey, hn, hn'] at heq
    exact hne n rfl n' rfl (Key.whole.inj heq)
  · rw [hkeys, mem_map]
    constructor
    · rintro ⟨v, hv, rfl⟩
      obtain ⟨c, hc, n, -, hn, hvn, -⟩ := contract_of_mem hnum hsites hvars hv
      have hhome : v.home = contractKey c := by rw [Scalar.home, contractKey, hn, hvn]
      refine ⟨c, mem_filter.2 ⟨hc, any_eq_true.2 ⟨v, hv, ?_⟩⟩, hhome.symm⟩
      exact (isOf_iff_home hvn hn).2 hhome
    · rintro ⟨c, hc, rfl⟩
      obtain ⟨v, hv, hof⟩ := any_eq_true.1 (mem_filter.1 hc).2
      obtain ⟨n, hn⟩ := hnum.contract c (hhousing hc)
      obtain ⟨-, -, m, -, -, hvm, -⟩ := contract_of_mem hnum hsites hvars hv
      exact ⟨v, hv, (isOf_iff_home hvm hn).1 hof⟩

theorem houses_structPiece (hc : c ∈ housing vars tree) :
    Houses s vars (structPiece known vars.values (contractKey c)) c := by
  obtain ⟨hc, hany⟩ := mem_filter.1 hc
  obtain ⟨v, hv, hof⟩ := any_eq_true.1 hany
  obtain ⟨n, hn⟩ := hnum.contract c hc
  obtain ⟨c', hc', m, site, hm, hvm, hsite, hpoint⟩ := contract_of_mem hnum hsites hvars hv
  have hmn : m = n := by
    rw [Scalar.isOf, hvm, hn] at hof
    exact Option.some.inj (beq_iff_eq.1 hof)
  subst hmn
  obtain rfl := hnum.eq (mem_of_mem_filter hc') (mem_of_mem_filter hc) hm hn
  have hkey : contractKey c' = .whole m := by rw [contractKey, hn]; rfl
  refine ⟨site.position, hpoint, ?_⟩
  rw [structPiece, hkey, hsite, ← hkey]
  refine congrArg (fun l => Patch.mk _ _ (encode (structureText l))) ?_
  refine filter_congr fun w hw => ?_
  obtain ⟨-, -, i, -, -, hwi, -⟩ := contract_of_mem hnum hsites hvars hw
  exact Bool.eq_iff_iff.2 (decide_eq_true_iff.trans (isOf_iff_home hwi hn).symm)

/-- **Each contract with variables that move gets one structure**, which lists them. -/
theorem perm_structs (hgroups : byContract vars.values = .ok groups)
    (hstructs : groups.mapM (structEdit known) = .ok structs) :
    (∀ e ∈ structs.flatten, e.start = e.stop) ∧
      ∃ bs, (structs.flatten.map Edit.patch).Perm bs ∧ Forall₂ (Houses s vars) bs (housing vars tree) := by
  have hcontract {v : Scalar} (hv : v ∈ vars.values) := contract_of_mem hnum hsites hvars hv
  have heq := byContract_eq (fun v hv => by
    obtain ⟨-, -, n, -, -, hn, -⟩ := hcontract hv
    exact ⟨n, hn⟩) hgroups
  obtain ⟨hnodup, hfind⟩ := grouped_spec Scalar.home vars.values
  rw [← heq] at hnodup hfind
  have hne {k : Key} : groups.has k ↔ ∃ v ∈ vars.values, v.home = k := by
    rw [has, hfind]
    split
    · rename_i hnil
      simpa using hnil
    · rename_i hnil
      simpa using hnil
  have hlists : ∀ g ∈ groups, g.2 = vars.values.filter (fun v => v.home = g.1) ∧ known.has g.1 = true := by
    intro g hg
    have hsome := find_of_mem hnodup hg
    obtain ⟨v, hv, hhome⟩ := hne.1 (by rw [has, hsome]; rfl)
    obtain ⟨-, -, n, site, -, hn, hsite, -⟩ := hcontract hv
    rw [hfind] at hsome
    constructor
    · split at hsome
      · cases hsome
      · exact (Option.some.inj hsome).symm
    · rw [← hhome, Scalar.home, hn, has]
      exact Option.isSome_iff_exists.2 ⟨site, hsite⟩
  obtain ⟨hpatches, hempty⟩ := map_patch_structs hstructs hlists
  refine ⟨hempty, (housing vars tree).map fun c => structPiece known vars.values (contractKey c), ?_, ?_⟩
  · have hkeys := perm_keys hnum hsites hvars hnodup fun k => has_iff.symm.trans hne
    rw [hpatches]
    have := hkeys.map (structPiece known vars.values)
    rwa [map_map, map_map] at this
  · rw [forall₂_map_left_iff, forall₂_same]
    exact fun c hc => houses_structPiece hnum hsites hvars hc

end Scalars

/-! ## All at once -/

/-- The edits that the walks over a tree with nodes numbered apart collect. Their ranges
can be read, lie in the source and do not overlap. -/
structure Collected (source : Chars) (tree : Json) (vars : Assoc Key Scalar) (edits : List Edit) : Prop where
  numbered : Numbered tree
  found : ∃ known, sites (encode source) tree = .ok known ∧ scalars known tree = .ok vars ∧
    groupingEdits (encode source) known vars tree = .ok edits
  declaration : ∀ p ∈ declaring vars tree, declarationRange? p.2 ≠ none
  name : ∀ ms ∈ naming vars tree, rangeOf? ms ≠ none
  inside : ∀ e ∈ edits, 0 ≤ e.start ∧ e.start ≤ e.stop ∧ e.stop ≤ (encode source).length
  apart : edits.Pairwise Edit.Apart

/-- The pieces of a grouping, each kind in the order of the tree: one for each
declaration, for each name and for each contract. -/
structure Pieces (s : Bytes) (tree : Json) (vars : Assoc Key Scalar)
    (ds rs bs : List (Patch UInt8)) : Prop where
  deletes : Forall₂ (Deletes s) ds (declaring vars tree)
  redirects : Forall₂ (Redirects vars) rs (naming vars tree)
  houses : Forall₂ (Houses s vars) bs (housing vars tree)

section Collected

variable {source : Chars} {tree : Json} {vars : Assoc Key Scalar} {edits : List Edit}

theorem Collected.pieces (h : Collected source tree vars edits)
    (hnames : ∀ ms ∈ naming vars tree, ∀ r, rangeOf? ms = some r → r.start < r.stop) : ∃ ds rs bs,
    Pieces (encode source) tree vars ds rs bs ∧ (edits.map Edit.patch).Perm (ds ++ rs ++ bs) ∧
      edits.Pairwise fun e f => e.start = e.stop → e.text ≠ [] → f.start = f.stop := by
  obtain ⟨known, hsites, hvars, hedits⟩ := h.found
  have hnum := h.numbered
  obtain ⟨ranges, hranges, hedits⟩ := bind_ok.1 hedits
  obtain ⟨us, hus, hedits⟩ := bind_ok.1 hedits
  obtain ⟨named, hnamed, hedits⟩ := bind_ok.1 hedits
  obtain ⟨groups, hgroups, hedits⟩ := bind_ok.1 hedits
  obtain ⟨structs, hstructs, hedits⟩ := bind_ok.1 hedits
  rw [← pure_ok.1 hedits]
  obtain ⟨hempty, bs, hperm, hhouses⟩ := perm_structs hnum hsites hvars hgroups hstructs
  have hdeclared := forall₂_declarations hnum hvars hranges h.declaration
  have hused := forall₂_usages hnum hvars hus h.name
  have hrenamed : Forall₂ (fun e ms => Redirects vars (Edit.patch e) ms ∧ e.start < e.stop) named
      (naming vars tree) := by
    refine forall₂_along hused (forall₂_of_mapM hnamed) fun u ms e hms hu he => ?_
    obtain ⟨hredirects, hstart, hstop⟩ := redirects_of_usageEdit hnum he hms hu.1 hu.2
    exact ⟨hredirects, by rw [hstart, hstop]; exact hnames ms hms _ hu.1⟩
  show ∃ ds rs bs, _ ∧ ((ranges.map (deletion (encode source)) ++ named ++ structs.flatten).map _).Perm _ ∧
    (ranges.map (deletion (encode source)) ++ named ++ structs.flatten).Pairwise _
  refine ⟨(ranges.map (deletion (encode source))).map Edit.patch, named.map Edit.patch, bs, ⟨?_, ?_, hhouses⟩,
    ?_, ?_⟩
  · rw [forall₂_map_left_iff, forall₂_map_left_iff]
    exact hdeclared.imp fun r p hr => ⟨r, hr, rfl⟩
  · exact forall₂_map_left_iff.2 (hrenamed.imp fun _ _ hname => hname.1)
  · rw [map_append, map_append]
    exact hperm.append_left _
  · -- only insertions are given behind insertions
    refine pairwise_append.2 ⟨?_, ?_, ?_⟩
    · refine pairwise_of_forall_mem_list fun e he f _ hstop htext => ?_
      rcases mem_append.1 he with he | he
      · obtain ⟨r, -, rfl⟩ := mem_map.1 he
        exact absurd rfl htext
      · obtain ⟨ms, -, -, hlt⟩ := exists_of_forall₂ hrenamed he
        omega
    · exact pairwise_of_forall_mem_list fun e _ f hf _ _ => hempty f hf
    · exact fun e _ f hf _ _ => hempty f hf

theorem Pieces.text (h : Pieces s tree vars ds rs bs)
    {e : Patch UInt8} (he : e ∈ ds ++ rs ++ bs) : ∃ x, e.text = encode x := by
  rcases mem_append.1 he with he | he
  · rcases mem_append.1 he with he | he
    · obtain ⟨-, -, -, -, rfl⟩ := exists_of_forall₂ h.deletes he
      exact ⟨[], rfl⟩
    · obtain ⟨-, -, -, -, v, -, -, -, rfl⟩ := exists_of_forall₂ h.redirects he
      exact ⟨_, rfl⟩
  · obtain ⟨-, -, -, -, rfl⟩ := exists_of_forall₂ h.houses he
    exact ⟨_, rfl⟩

theorem Pieces.nil (h : Pieces s tree [] ds rs bs) : ds ++ rs ++ bs = [] := by
  have hnumber (v : Json) : isNumberOf [] v = false := by
    rw [isNumberOf]
    cases number? v <;> rfl
  obtain ⟨hds, hrs, hbs⟩ := h
  simp only [declaring, naming, hnumber, Bool.and_false, filter_false, forall₂_nil_right_iff] at hds hrs
  have hhousing : housing [] tree = [] := filter_eq_nil_iff.2 fun c _ => Bool.false_ne_true
  rw [hhousing, forall₂_nil_right_iff] at hbs
  rw [hds, hrs, hbs]
  rfl

theorem groupScalars_of_edits (hsites : sites (encode source) tree = .ok known)
    (hvars : scalars known tree = .ok vars) (hedits : groupingEdits (encode source) known vars tree = .ok edits)
    (hne : vars ≠ []) {bytes : Bytes} (hbytes : Edit.cutAll (encode source) edits = bytes) :
    (∀ out, encode out = bytes → groupScalars source tree = .ok (out, vars.length)) ∧
      ((∀ out, encode out ≠ bytes) → groupScalars source tree = .error .badBytes) := by
  have hempty : vars.isEmpty = false := isEmpty_eq_false_iff.2 hne
  simp only [groupScalars, bind, Except.bind, hsites, hvars, hempty, hedits, hbytes]
  constructor
  · rintro out rfl
    rw [decode?_encode]
    rfl
  · intro hnone
    have hdecode : decode? bytes = none :=
      Option.eq_none_iff_forall_ne_some.2 fun out hout => hnone out (encode_of_decode? hout)
    rw [hdecode]
    rfl

theorem groupScalars_of_none (hsites : sites (encode source) tree = .ok known)
    (hvars : scalars known tree = .ok []) : groupScalars source tree = .ok (source, 0) := by
  simp only [groupScalars, bind, Except.bind, hsites, hvars]
  rfl

/-- **Grouping is one edit.** The declarations go, the names follow and each contract with
such variables gets one structure that lists them, all at once; all other bytes stay. The
count is that of the declarations. Bytes that are no text are a fault, and they are a text
if all pieces begin and end with characters. -/
theorem groupScalars_edits_at_once (h : Collected source tree vars edits)
    (hnames : ∀ ms ∈ naming vars tree, ∀ r, rangeOf? ms = some r → r.start < r.stop) : ∃ ds rs bs es,
    List.Forall₂ IsDeclaredBy vars.values (declaring vars tree) ∧
      Pieces (encode source) tree vars ds rs bs ∧ es.Perm (ds ++ rs ++ bs) ∧
      InOrder (encode source).length 0 es ∧
      (∀ out, encode out = patched 0 (encode source) es → groupScalars source tree = .ok (out, ds.length)) ∧
      ((∀ out, encode out ≠ patched 0 (encode source) es) → groupScalars source tree = .error .badBytes) ∧
      ((∀ e ∈ es, IsEnd source e.start ∧ IsEnd source e.stop) →
        ∃ out, encode out = patched 0 (encode source) es) := by
  obtain ⟨known, hsites, hvars, hedits⟩ := h.found
  obtain ⟨ds, rs, bs, hpieces, hperm, hlast⟩ := h.pieces hnames
  obtain ⟨es, hes, horder, hcut⟩ := Edit.exists_cutAll_eq_patched h.inside h.apart hlast
  have hdeclared := forall₂_declaring h.numbered hvars
  have hlength : vars.length = ds.length := hdeclared.length_eq.trans hpieces.deletes.length_eq.symm
  have hrun : (∀ out, encode out = patched 0 (encode source) es →
      groupScalars source tree = .ok (out, ds.length)) ∧
      ((∀ out, encode out ≠ patched 0 (encode source) es) → groupScalars source tree = .error .badBytes) := by
    by_cases hne : vars = []
    · subst hne
      have hes : es = [] := (hpieces.nil ▸ hes.trans hperm).eq_nil
      rw [hes, ← hlength]
      refine ⟨fun out hout => ?_, fun hnone => absurd rfl (hnone source)⟩
      rw [groupScalars_of_none hsites hvars, encode_injective hout]
      rfl
    · rw [← hlength]
      exact groupScalars_of_edits hsites hvars hedits hne hcut
  refine ⟨ds, rs, bs, es, ?_, hpieces, hes.trans hperm, horder, hrun.1, hrun.2, ?_⟩
  · exact List.forall₂_map_left_iff.2 (hdeclared.imp fun e p hmoves => hmoves.2.2.1)
  · intro hends
    obtain ⟨out, hout⟩ := Edit.exists_encode_patched (p := 0) (by rwa [Nat.zero_add]) hends
      fun e he => hpieces.text ((hes.trans hperm).subset he)
    exact ⟨out, hout.symm⟩

end Collected

/-- A contract with one variable, at the start of whose declaration the structure goes. -/
def counter : Chars :=
  "contract C\x7b\n".toList ++ "uint a;//é\n".toList ++ "function f()public\x7ba=1;\x7d\n\x7d".toList

def counterName (src : String) : Members :=
  [("nodeType", .str "Identifier"), ("name", .str "a"), ("referencedDeclaration", .int 2), ("src", .str src)]

def counterDeclaration (src : String) : Members :=
  [("nodeType", .str "VariableDeclaration"), ("id", .int 2), ("name", .str "a"), ("src", .str src),
    ("stateVariable", .bool true), ("constant", .bool false),
    ("typeDescriptions", .obj [("typeString", .str "uint256")])]

def counterMembers (src : String) (names : List String) : Members :=
  [("nodeType", .str "ContractDefinition"), ("id", .int 1), ("name", .str "C"), ("src", .str "0:50:0"),
    ("nodes", .arr [.obj (counterDeclaration src),
      .obj [("names", .arr (names.map fun n => .obj (counterName n)))]])]

def counterTree (src : String) (names : List String) : Json :=
  .obj (counterMembers src names)

def counterScalar : Scalar :=
  ⟨.int 2, "a", "uint256", .int 1, false⟩

def counterVars : Assoc Key Scalar :=
  [(.whole 2, counterScalar)]

def counterField : Chars :=
  "__scalar_vectors.m_86f7e437faa5a7fc".toList

def counterBlock : Chars :=
  "    struct __BiAnScalars \x7b\n".toList ++ "        uint256 m_86f7e437faa5a7fc;\n".toList ++
    "    \x7d\n    __BiAnScalars private __scalar_vectors;\n".toList

theorem reference_counterScalar : reference instanceName counterScalar = counterField ∧
    structBlock structName instanceName [counterScalar] = counterBlock := by
  have hfield : counterScalar.field = "m_86f7e437faa5a7fc".toList := by decide +kernel
  rw [reference, structBlock, map_singleton, hfield]
  decide

theorem declarationEnd_counter : declarationEnd (encode counter) 18 = 19 ∧
    declarationEnd (encode counter) 22 = 22 := by
  decide +kernel

def counterEdits (stop : Int) (names : List Range) : List Edit :=
  ⟨12, stop, []⟩ :: (names.map fun r => ⟨r.start, r.stop, encode counterField⟩) ++
    [⟨12, 12, encode counterBlock⟩]

theorem nodes_counterTree (src : String) (names : List String) : nodes (counterTree src names) =
    [counterMembers src names, counterDeclaration src, [("typeString", .str "uint256")],
      [("names", .arr (names.map fun n => .obj (counterName n)))]] ++ names.map counterName := by
  have hnames : nodesOfItems (names.map fun n => .obj (counterName n)) = names.map counterName := by
    induction names with
    | nil => rfl
    | cons n names ih =>
      rw [map_cons, nodesOfItems, ih]
      rfl
  simp [counterTree, counterMembers, counterDeclaration, nodes, nodesOfMembers, nodesOfItems, hnames]

theorem mem_counterTree (h : ms ∈ nodes (counterTree src names)) :
    ms = counterMembers src names ∨ ms = counterDeclaration src ∨ ms = [("typeString", .str "uint256")] ∨
      ms = [("names", .arr (names.map fun n => .obj (counterName n)))] ∨ ∃ n ∈ names, counterName n = ms := by
  simpa [nodes_counterTree] using h

theorem numbered_counterTree (src : String) (names : List String) : Numbered (counterTree src names) where
  node ms hms := by
    rcases mem_counterTree hms with rfl | rfl | rfl | rfl | ⟨n, -, rfl⟩
    · exact .inr ⟨1, rfl⟩
    · exact .inr ⟨2, rfl⟩
    all_goals exact .inl rfl
  contract ms hms := by
    obtain ⟨hms, hkind⟩ := mem_filter.1 hms
    rcases mem_counterTree hms with rfl | rfl | rfl | rfl | ⟨n, -, rfl⟩
    · exact ⟨1, rfl⟩
    all_goals cases hkind
  name ms hms := by
    obtain ⟨hms, hkind⟩ := mem_filter.1 hms
    rcases mem_counterTree hms with rfl | rfl | rfl | rfl | ⟨n, -, rfl⟩
    iterate 4 cases hkind
    exact .inr ⟨2, rfl⟩
  distinct := by
    have hnames : (names.map counterName).filterMap (fun ms => number? (fieldOf "id" ms)) = [] := by
      rw [filterMap_map]
      exact filterMap_eq_nil_iff.2 fun n _ => rfl
    rw [nodes_counterTree, filterMap_append, hnames]
    exact nodup_cons.2 ⟨fun h => absurd (mem_singleton.1 h) (by decide), nodup_singleton 2⟩

def counterSites : Assoc Key Site :=
  [(.whole 1, ⟨.int 1, 12⟩)]

/-- The contract with its structure and with the given text in the place of the name. -/
def counterOut (name : Chars) : Chars :=
  "contract C\x7b\n".toList ++ counterBlock ++ "//é\n".toList ++ "function f()public\x7b".toList ++ name
    ++ "=1;\x7d\n\x7d".toList

theorem collected_counterTree {edits : List Edit}
    (hsites : sites (encode counter) (counterTree src names) = .ok counterSites)
    (hvars : scalars counterSites (counterTree src names) = .ok counterVars)
    (hedits : groupingEdits (encode counter) counterSites counterVars (counterTree src names) = .ok edits)
    (h : (∀ p ∈ declaring counterVars (counterTree src names), declarationRange? p.2 ≠ none) ∧
      (∀ ms ∈ naming counterVars (counterTree src names), rangeOf? ms ≠ none) ∧
      (∀ e ∈ edits, 0 ≤ e.start ∧ e.start ≤ e.stop ∧ e.stop ≤ (encode counter).length) ∧
      edits.Pairwise Edit.Apart) : Collected counter (counterTree src names) counterVars edits :=
  ⟨numbered_counterTree src names, ⟨counterSites, hsites, hvars, hedits⟩, h.1, h.2.1, h.2.2.1, h.2.2.2⟩

theorem ordered_counterEdits (stop : Int) : Edit.ordered (counterEdits stop [⟨43, 44⟩]) =
    [⟨43, 44, encode counterField⟩, ⟨12, stop, []⟩, ⟨12, 12, encode counterBlock⟩] := by
  simp [counterEdits, Edit.ordered, mergeSort, MergeSort.Internal.splitInTwo]

theorem groupScalars_edits_counter :
    Collected counter (counterTree "12:6:0" ["43:1:0"]) counterVars (counterEdits 19 [⟨43, 44⟩]) ∧
      ∃ ds rs bs es, Pieces (encode counter) (counterTree "12:6:0" ["43:1:0"]) counterVars ds rs bs ∧
        es.Perm (ds ++ rs ++ bs) ∧
        encode (counterOut counterField) = patched 0 (encode counter) es ∧
        groupScalars counter (counterTree "12:6:0" ["43:1:0"]) =
          .ok (counterOut counterField, ds.length) := by
  have hedits : groupingEdits (encode counter) counterSites counterVars (counterTree "12:6:0" ["43:1:0"]) =
      .ok (counterEdits (declarationEnd (encode counter) 18) [⟨43, 44⟩]) := by
    rw [counterEdits, ← reference_counterScalar.1, ← reference_counterScalar.2]
    rfl
  rw [declarationEnd_counter.1] at hedits
  have hcollected := collected_counterTree rfl rfl hedits (by decide)
  have hnames : ∀ ms ∈ naming counterVars (counterTree "12:6:0" ["43:1:0"]), ∀ r, rangeOf? ms = some r →
      r.start < r.stop := by
    intro ms hms r hr
    obtain rfl : ms = counterName "43:1:0" := List.mem_singleton.1 hms
    obtain rfl : ⟨43, 44⟩ = r := Option.some.inj (.trans (by decide) hr)
    decide
  have hrun : groupScalars counter (counterTree "12:6:0" ["43:1:0"]) =
      .ok (counterOut counterField, 1) := by
    refine (groupScalars_of_edits rfl rfl hedits (List.cons_ne_nil _ _) rfl).1 _ ?_
    rw [Edit.cutAll, ordered_counterEdits]
    decide +kernel
  obtain ⟨ds, rs, bs, es, -, hpieces, hperm, -, hok, herror, -⟩ :=
    groupScalars_edits_at_once hcollected hnames
  refine ⟨hcollected, ?_⟩
  by_cases hex : ∃ out, encode out = patched 0 (encode counter) es
  · obtain ⟨out, hout⟩ := hex
    have hsame := hok out hout
    obtain ⟨rfl, -⟩ := Prod.mk.inj (Except.ok.inj (hrun.symm.trans hsame))
    exact ⟨ds, rs, bs, es, hpieces, hperm, hout, hsame⟩
  · have hbad := herror (not_exists.1 hex)
    rw [hrun] at hbad
    cases hbad

/-- **Ranges that lie apart are not enough.** The text for an empty name is cut into by
that for the name that starts there, and a range that ends within a character leaves
bytes that are no text. -/
theorem empty_name_breaks_field :
    (Collected counter (counterTree "12:6:0" ["43:0:0", "43:1:0"]) counterVars
        (counterEdits 19 [⟨43, 43⟩, ⟨43, 44⟩]) ∧
      groupScalars counter (counterTree "12:6:0" ["43:0:0", "43:1:0"]) =
        .ok (counterOut (counterField ++ counterField.tail ++ ['a']), 1)) ∧
    Collected counter (counterTree "12:10:0" ["43:1:0"]) counterVars (counterEdits 22 [⟨43, 44⟩]) ∧
      groupScalars counter (counterTree "12:10:0" ["43:1:0"]) = .error .badBytes := by
  have hempty : groupingEdits (encode counter) counterSites counterVars
      (counterTree "12:6:0" ["43:0:0", "43:1:0"]) =
        .ok (counterEdits (declarationEnd (encode counter) 18) [⟨43, 43⟩, ⟨43, 44⟩]) := by
    rw [counterEdits, ← reference_counterScalar.1, ← reference_counterScalar.2]
    rfl
  have htorn : groupingEdits (encode counter) counterSites counterVars
      (counterTree "12:10:0" ["43:1:0"]) =
        .ok (counterEdits (declarationEnd (encode counter) 22) [⟨43, 44⟩]) := by
    rw [counterEdits, ← reference_counterScalar.1, ← reference_counterScalar.2]
    rfl
  rw [declarationEnd_counter.1] at hempty
  rw [declarationEnd_counter.2] at htorn
  refine ⟨⟨collected_counterTree rfl rfl hempty (by decide), ?_⟩,
    collected_counterTree rfl rfl htorn (by decide), ?_⟩
  · have hordered : Edit.ordered (counterEdits 19 [⟨43, 43⟩, ⟨43, 44⟩]) =
        [⟨43, 43, encode counterField⟩, ⟨43, 44, encode counterField⟩, ⟨12, 19, []⟩,
          ⟨12, 12, encode counterBlock⟩] := by
      simp [counterEdits, Edit.ordered, List.mergeSort, List.MergeSort.Internal.splitInTwo]
    refine (groupScalars_of_edits rfl rfl hempty (List.cons_ne_nil _ _) rfl).1 _ ?_
    rw [Edit.cutAll, hordered]
    decide +kernel
  · refine (groupScalars_of_edits rfl rfl htorn (List.cons_ne_nil _ _) rfl).2 fun out hout => ?_
    have hnone : decode? (Edit.cutAll (encode counter) (counterEdits 22 [⟨43, 44⟩])) = none := by
      rw [Edit.cutAll, ordered_counterEdits]
      decide +kernel
    rw [← hout, decode?_encode] at hnone
    cases hnone

end Obscura.Storage
