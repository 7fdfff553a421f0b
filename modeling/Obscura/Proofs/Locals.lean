import Mathlib.Data.List.Perm.Subperm
import Obscura.Proofs.Except
import Obscura.Proofs.Placement
import Obscura.Storage.Promotion

/-
  The locals of a tree that are promoted. Each is declared alone by a statement of the
  tree and is named after its name there (`exists_declaration`). The locals come in
  the order of their statements and no statement gives two of them, so that statements
  that lie apart give locals that lie apart (`pairwise_locals`).
-/

namespace Obscura.Storage

open Text Ast Json List

variable {acc : Assoc Key Promoted} {c : Candidate} {k : Key} {l : Promoted} {ls : List Promoted}
  {ms : Members}

/-! ## What the walk finds -/

abbrev declarationKind : String := "VariableDeclarationStatement"

section Drawn

variable {α β γ : Type} {R : α → β → Prop}

theorem drawn_append {xs xs' : List α} {ys ys' : List β} (h : SublistForall₂ R xs ys)
    (h' : SublistForall₂ R xs' ys') : SublistForall₂ R (xs ++ xs') (ys ++ ys') := by
  induction h with
  | nil =>
    rename_i ys
    induction ys with
    | nil => exact h'
    | cons y ys ih => exact .cons_right ih
  | cons hxy _ ih => exact .cons hxy ih
  | cons_right _ ih => exact .cons_right ih

theorem exists_of_drawn {xs : List α} {ys : List β} (h : SublistForall₂ R xs ys) :
    ∀ x ∈ xs, ∃ y ∈ ys, R x y := by
  induction h with
  | nil => exact fun x hx => nomatch hx
  | cons hxy _ ih =>
    intro x hx
    rcases mem_cons.1 hx with rfl | hx
    · exact ⟨_, mem_cons_self, hxy⟩
    · obtain ⟨y, hy, hr⟩ := ih x hx
      exact ⟨y, .tail _ hy, hr⟩
  | cons_right _ ih =>
    intro x hx
    obtain ⟨y, hy, hr⟩ := ih x hx
    exact ⟨y, .tail _ hy, hr⟩

theorem drawn_trans {S : β → γ → Prop} {T : α → γ → Prop} (hT : ∀ x y z, R x y → S y z → T x z)
    {xs : List α} {ys : List β} {zs : List γ} (h : SublistForall₂ R xs ys)
    (h' : SublistForall₂ S ys zs) : SublistForall₂ T xs zs := by
  induction h' generalizing xs with
  | nil =>
    cases h
    exact .nil
  | cons hyz _ ih =>
    cases h with
    | nil => exact .nil
    | cons hxy h => exact .cons (hT _ _ _ hxy hyz) (ih h)
    | cons_right h => exact .cons_right (ih h)
  | cons_right _ ih => exact .cons_right (ih h)

theorem pairwise_of_drawn {P : α → α → Prop} {Q : β → β → Prop}
    (hQP : ∀ a b x y, R a x → R b y → Q x y → P a b) {xs : List α} {ys : List β}
    (h : SublistForall₂ R xs ys) (hys : ys.Pairwise Q) : xs.Pairwise P := by
  induction h with
  | nil => exact .nil
  | cons hax h ih =>
    obtain ⟨hfirst, hrest⟩ := pairwise_cons.1 hys
    refine .cons (fun b hb => ?_) (ih hrest)
    obtain ⟨y, hy, hby⟩ := exists_of_drawn h b hb
    exact hQP _ b _ y hax hby (hfirst y hy)
  | cons_right _ ih => exact ih (pairwise_cons.1 hys).2

end Drawn

/-- The candidate is declared by the statement, with a name and not as a state variable. -/
def DeclaredBy (s : Bytes) (c : Candidate) (ms : Members) : Prop :=
  ∃ k declarator, onlyDeclarator ms = .ok (some (.obj declarator)) ∧
    candidateOf s k ms declarator = .ok (some c) ∧
    (fieldOf "stateVariable" declarator).isSet = false ∧ (fieldOf "name" declarator).isSet = true

/-- The nodes of a tree, each with those around it, the innermost first. -/
def nestedNodes (above : List Members) (tree : Json) : List (List Members × Members) :=
  nodesIn (fun above ms => ms :: above) above tree

/-- What surrounds a node that stands below the given ones. -/
def surroundingIn (known : Assoc Key Home) : List Members → Except Fault Surrounding
  | [] => .ok .file
  | ms :: above => if isKind "ContractDefinition" ms then surroundingOf known ms else surroundingIn known above

/-- None of the functions among the nodes is read-only. -/
def Writable (above : List Members) : Prop :=
  ∀ ms ∈ above, isKind "FunctionDefinition" ms = true → isReadOnly ms = .ok false

/-- The candidate is declared by a statement that the walk comes to. -/
structure FoundAt (s : Bytes) (known : Assoc Key Home) (c : Candidate) (p : List Members × Members) :
    Prop where
  declared : DeclaredBy s c p.2
  around : surroundingIn known p.1 = .ok (.contract c.contract)
  writable : Writable p.1

/-- Candidates that some of the nodes declare, in their order. -/
abbrev Found (s : Bytes) (known : Assoc Key Home) (cs : List Candidate)
    (ns : List (List Members × Members)) : Prop :=
  List.SublistForall₂ (FoundAt s known) cs (ns.filter fun p => isKind declarationKind p.2)

section Walk

variable {s : Bytes} {known : Assoc Key Home}

theorem Found.append {cs cs' : List Candidate} {ns ns' : List (List Members × Members)}
    (h : Found s known cs ns)
    (h' : Found s known cs' ns') : Found s known (cs ++ cs') (ns ++ ns') := by
  rw [Found, filter_append]
  exact drawn_append h h'

theorem candidateOf_ok {declarator : Members} (h : candidateOf s k ms declarator = .ok (some c)) :
    c.contract = k ∧ ∃ halves, declaredType? declarator = .ok (some (c.type, halves)) := by
  obtain ⟨o, ho, h⟩ := bind_ok.1 h
  split at h
  · cases h
  · split at h
    · cases h
    · obtain ⟨name, -, h⟩ := bind_ok.1 h
      obtain ⟨k', -, h⟩ := bind_ok.1 h
      cases h
      exact ⟨rfl, _, ho⟩

variable {around : Surrounding}

theorem candidateHere_ok {readOnly : Bool}
    (h : candidateHere s around readOnly ms = .ok (some c)) :
    DeclaredBy s c ms ∧ around = .contract c.contract ∧ readOnly = false := by
  unfold candidateHere at h
  split at h
  · cases h
  · split at h
    · cases h
    · rename_i hreadOnly
      obtain ⟨o, ho, h⟩ := bind_ok.1 h
      split at h
      · cases h
      · split at h
        · cases h
        · split at h
          · split at h
            · cases h
            · rename_i hname
              rw [Bool.or_eq_true, not_or, Bool.not_eq_true, Bool.not_eq_true', Bool.not_eq_false] at hname
              split at h
              · cases (candidateOf_ok h).1
                exact ⟨⟨_, _, ho, h, hname⟩, rfl, Bool.eq_false_iff.2 hreadOnly⟩
              · obtain ⟨_, -, h⟩ := bind_ok.1 h
                cases h
          · cases h

variable {above : List Members}

theorem Writable.cons (h : Writable above)
    (hms : isKind "FunctionDefinition" ms → isReadOnly ms = .ok false) : Writable (ms :: above) :=
  forall_mem_cons.2 ⟨hms, h⟩

-- The walk carries what is around a node as a surrounding and a flag; `above` says the same in nodes.
variable {cs : List Candidate}

theorem found_candidatesOfMembers {readOnly : Bool}
    (hms : ∀ m ∈ ms, ∀ cs, candidates s known around readOnly m.2 = .ok cs →
      Found s known cs (nestedNodes above m.2))
    (h : candidatesOfMembers s known around readOnly ms = .ok cs ∨
      candidatesOfContract s known around readOnly ms = .ok cs) :
    Found s known cs (nodesInMembers (fun above ms => ms :: above) above ms) := by
  induction ms generalizing cs with
  | nil =>
    rcases h with h | h <;> cases h <;> exact .nil
  | cons m ms ih =>
    obtain ⟨k, v⟩ := m
    obtain ⟨hm, hms⟩ := forall_mem_cons.1 hms
    rcases h with h | h
    · obtain ⟨here, hhere, h⟩ := bind_ok.1 h
      obtain ⟨rest, hrest, h⟩ := bind_ok.1 h
      cases h
      exact (hm _ hhere).append (ih hms (.inl hrest))
    have hjoin {here : List Candidate} (hhere : Found s known here (nestedNodes above v))
        (h : (do return here ++ (← candidatesOfContract s known around readOnly ms)) = .ok cs) :
        Found s known cs (nodesInMembers (fun above ms => ms :: above) above ((k, v) :: ms)) := by
      obtain ⟨rest, hrest, h⟩ := bind_ok.1 h
      cases h
      exact hhere.append (ih hms (.inr hrest))
    rw [candidatesOfContract.eq_def] at h
    dsimp only at h
    split at h
    · split at h
      · obtain ⟨here, hhere, h⟩ := bind_ok.1 h
        exact hjoin (hm _ hhere) h
      · exact hjoin .nil h
      · exact hjoin .nil h
      · cases h
    · exact hjoin .nil h

theorem found_candidates {readOnly : Bool} {v : Json}
    (ha : surroundingIn known above = .ok around)
    (hw : readOnly = false → Writable above) (h : candidates s known around readOnly v = .ok cs) :
    Found s known cs (nestedNodes above v) := by
  induction v using walkInduction generalizing above around readOnly cs with
  | cons v vs hv hvs =>
    obtain ⟨here, hhere, h⟩ := bind_ok.1 h
    obtain ⟨rest, hrest, h⟩ := bind_ok.1 h
    cases h
    exact (hv ha hw hhere).append (hvs ha hw hrest)
  | obj ms hms _ =>
    rw [candidates] at h
    have hskip {cs} (h : Found s known cs (nodesInMembers (fun above ms => ms :: above) (ms :: above) ms)) :
        Found s known cs (nestedNodes above (.obj ms)) := by
      rw [nestedNodes, nodesIn, Found, filter_cons]
      split
      · exact .cons_right h
      · exact h
    split at h
    · rename_i hkind
      obtain ⟨around', haround, h⟩ := bind_ok.1 h
      refine hskip (found_candidatesOfMembers (fun m hm _ => hms m hm ?_ fun hr => ?_) (.inr h))
      · rwa [surroundingIn, if_pos hkind]
      · exact (hw hr).cons fun hf => absurd hf (by rw [isKind_of_ne hkind (by decide)]; decide)
    rename_i hcontract
    have ha' : surroundingIn known (ms :: above) = .ok around := by rwa [surroundingIn, if_neg hcontract]
    split at h
    · obtain ⟨b, hb, h⟩ := bind_ok.1 h
      refine hskip (found_candidatesOfMembers (fun m hm _ => hms m hm ha' fun hr => ?_) (.inl h))
      obtain ⟨hro, rfl⟩ := Bool.or_eq_false_iff.1 hr
      exact (hw hro).cons fun _ => hb
    rename_i hfunction
    have hbelow {cs} (h : candidatesOfMembers s known around readOnly ms = .ok cs) :
        Found s known cs (nodesInMembers (fun above ms => ms :: above) (ms :: above) ms) :=
      found_candidatesOfMembers
        (fun m hm _ => hms m hm ha' fun hr => (hw hr).cons fun hf => absurd hf hfunction) (.inl h)
    split at h
    · rename_i hkind
      obtain ⟨o, ho, h⟩ := bind_ok.1 h
      split at h
      · cases h
        exact .nil
      · rename_i c
        obtain ⟨hdeclared, rfl, hr⟩ := candidateHere_ok ho
        have hfound : FoundAt s known c (above, ms) := ⟨hdeclared, ha, hw hr⟩
        rw [nestedNodes, nodesIn, Found, filter_cons, if_pos hkind]
        split at h
        · cases h
          exact .cons hfound .nil
        · obtain ⟨rest, hrest, h⟩ := bind_ok.1 h
          cases h
          exact .cons hfound (hbelow hrest)
    · exact hskip (hbelow h)
  | _ =>
    cases h
    exact .nil

end Walk

/-! ## Contracts -/

section Contracts

variable {α : Type} {f : Members → Except Fault (List α)} {x : α}

/-- Something that was said of one of the contracts among the nodes. -/
def SaidOf (f : Members → Except Fault (List α)) (x : α) (ns : List Members) : Prop :=
  ∃ ms ∈ ns, isKind "ContractDefinition" ms = true ∧ ∃ l, f ms = .ok l ∧ x ∈ l

theorem SaidOf.mono {ns ns' : List Members} (h : SaidOf f x ns) (hsub : ns ⊆ ns') : SaidOf f x ns' := by
  obtain ⟨ms, hms, hx⟩ := h
  exact ⟨ms, hsub hms, hx⟩

theorem saidOf_atContractsOfMembers {contract : Bool} {l : List α}
    (hms : ∀ m ∈ ms, ∀ l, atContracts f m.2 = .ok l → x ∈ l → SaidOf f x (nodes m.2))
    (h : atContractsOfMembers f contract ms = .ok l) (hx : x ∈ l) : SaidOf f x (nodesOfMembers ms) := by
  induction ms generalizing l with
  | nil => cases h; cases hx
  | cons m ms ih =>
    obtain ⟨k, v⟩ := m
    obtain ⟨hm, hms⟩ := forall_mem_cons.1 hms
    have hjoin (here : List α) (hhere : x ∈ here → SaidOf f x (nodes v))
        (h : (do return here ++ (← atContractsOfMembers f contract ms)) = .ok l) :
        SaidOf f x (nodesOfMembers ((k, v) :: ms)) := by
      obtain ⟨rest, hrest, h⟩ := bind_ok.1 h
      cases h
      rw [nodesOfMembers]
      rcases mem_append.1 hx with hx | hx
      · exact (hhere hx).mono (subset_append_left _ _)
      · exact (ih hms hrest hx).mono (subset_append_right _ _)
    rw [atContractsOfMembers.eq_def] at h
    dsimp only at h
    split at h
    · split at h
      · split at h
        · obtain ⟨here, hhere, h⟩ := bind_ok.1 h
          exact hjoin here (hm _ hhere) h
        · exact hjoin [] (fun hx => nomatch hx) h
        · exact hjoin [] (fun hx => nomatch hx) h
        · cases h
      · exact hjoin [] (fun hx => nomatch hx) h
    · obtain ⟨here, hhere, h⟩ := bind_ok.1 h
      exact hjoin here (hm _ hhere) h

theorem saidOf_atContracts {v : Json} {l : List α} (h : atContracts f v = .ok l) (hx : x ∈ l) :
    SaidOf f x (nodes v) := by
  induction v using walkInduction generalizing l with
  | cons v vs hv hvs =>
    obtain ⟨here, hhere, h⟩ := bind_ok.1 h
    obtain ⟨rest, hrest, h⟩ := bind_ok.1 h
    cases h
    rcases mem_append.1 hx with hx | hx
    · exact (hv hhere hx).mono (subset_append_left _ _)
    · exact (hvs hrest hx).mono (subset_append_right _ _)
  | obj ms hms _ =>
    rw [atContracts] at h
    have hbelow {b l} (h : atContractsOfMembers f b ms = .ok l) (hx : x ∈ l) : SaidOf f x (nodes (.obj ms)) :=
      (saidOf_atContractsOfMembers (fun m hm _ => hms m hm) h hx).mono (subset_cons_self _ _)
    split at h
    · rename_i hkind
      obtain ⟨here, hhere, h⟩ := bind_ok.1 h
      obtain ⟨rest, hrest, h⟩ := bind_ok.1 h
      cases h
      rcases mem_append.1 hx with hx | hx
      · exact ⟨ms, mem_cons_self, hkind, here, hhere, hx⟩
      · exact hbelow hrest hx
    · exact hbelow h hx
  | _ => cases h; cases hx

end Contracts

/-! ## Homes and locals -/

section Values

variable {κ α : Type} [DecidableEq κ]

theorem values_set_subperm (k : κ) (v : α) (m : Assoc κ α) :
    (Assoc.set k v m).values.Subperm (v :: m.values) := by
  induction m with
  | nil => exact Subperm.refl _
  | cons e m ih =>
    rw [Assoc.set]
    split
    · exact (cons_sublist_cons.2 (sublist_cons_self e.2 (Assoc.values m))).subperm
    · exact ((subperm_cons e.2).2 ih).trans (Perm.swap v e.2 (Assoc.values m)).subperm

theorem mem_values_of_find {k : κ} {v : α} {m : Assoc κ α} (h : m.find k = some v) : v ∈ m.values :=
  mem_map_of_mem (Assoc.mem_of_find h)

end Values

section Entered

variable {s : Bytes}

/-- The variables of a contract are numbered from zero on. -/
structure Counted (x : Home) : Prop where
  counter : x.counter = x.globals.length
  named : ∀ i g, x.globals[i]? = some g → ∃ name, g.2 = globalName name i

theorem home_of_homes {known : Assoc Key Home} (h : homes s tree = .ok known) {x : Home}
    (hx : (k, x) ∈ known) : ∃ ms ∈ nodesOf "ContractDefinition" tree,
      insertionPoint? s ms = some x.position ∧ (fieldOf "id" ms).key = .ok k ∧ Counted x := by
  obtain ⟨found, hfound, h⟩ := bind_ok.1 h
  cases h
  rcases Assoc.mem_foldl_set hx with hx | he
  · cases hx
  · obtain ⟨ms, hms, hkind, l, hl, he⟩ := saidOf_atContracts hfound he
    refine ⟨ms, mem_filter.2 ⟨hms, hkind⟩, ?_⟩
    rw [homeHere.eq_def] at hl
    split at hl
    · cases hl
      cases he
    · rename_i hpoint
      obtain ⟨id, hid, hl⟩ := bind_ok.1 hl
      obtain ⟨k', hk, hl⟩ := bind_ok.1 hl
      cases hl
      cases mem_singleton.1 he
      exact ⟨hpoint, need_ok hid ▸ hk, rfl, nofun⟩

theorem position_of_homes {known : Assoc Key Home} (h : homes s tree = .ok known) {x : Home}
    (hx : x ∈ known.values) :
    ∃ ms ∈ nodesOf "ContractDefinition" tree, insertionPoint? s ms = some x.position := by
  obtain ⟨e, he, rfl⟩ := mem_map.1 hx
  obtain ⟨ms, hms, hpoint, -⟩ := home_of_homes h he
  exact ⟨ms, hms, hpoint⟩

/-- What a contract keeps while locals are entered. -/
structure Grows (x y : Home) : Prop where
  position : x.position = y.position
  globals : x.globals ⊆ y.globals
  counted : Counted x → Counted y

theorem Grows.refl (x : Home) : Grows x x := ⟨rfl, Subset.refl _, id⟩

theorem Grows.trans {x y z : Home} (h : Grows x y) (h' : Grows y z) : Grows x z :=
  ⟨h.position.trans h'.position, Subset.trans h.globals h'.globals, h'.counted ∘ h.counted⟩

/-- A contract with one more variable. -/
def Home.add (x : Home) (c : Candidate) : Home :=
  { x with
    counter := x.counter + 1
    globals := x.globals ++ [(c.type, globalName c.name x.counter)]
    torn := x.torn || c.torn }

theorem grows_add (x : Home) (c : Candidate) : Grows x (x.add c) := by
  refine ⟨rfl, subset_append_left _ _, fun h => ⟨?_, fun i g hg => ?_⟩⟩
  · rw [Home.add, length_append, h.counter]
    rfl
  · rw [Home.add, getElem?_append] at hg
    split at hg
    · exact h.named i g hg
    · have hi : i = x.counter := by
        have := (List.getElem?_eq_some_iff.1 hg).1
        rw [h.counter]
        simp only [length_singleton] at this
        omega
      subst hi
      rw [h.counter, Nat.sub_self] at hg
      cases hg
      exact ⟨c.name, h.counter ▸ rfl⟩

theorem enter_none (h : m.find c.contract = none) : enter m c = (m, none) := by
  rw [enter, h]

theorem enter_some {x : Home} (h : m.find c.contract = some x) :
    enter m c = (m.set c.contract (x.add c), match c.id with
      | .null => none
      | id => some ⟨id, x.id, globalName c.name x.counter, c.type, c.statement, c.initial⟩) := by
  rw [enter, h]
  rfl

section Growth

variable {m : Assoc Key Home} {x : Home}

theorem grown_of_enter (h : x ∈ (enter m c).1.values) : ∃ y ∈ m.values, Grows y x := by
  cases hy : m.find c.contract with
  | none =>
    rw [enter_none hy] at h
    exact ⟨x, h, .refl x⟩
  | some y =>
    rw [enter_some hy] at h
    rcases mem_cons.1 ((values_set_subperm _ _ m).subset h) with rfl | h
    · exact ⟨y, mem_values_of_find hy, grows_add y c⟩
    · exact ⟨x, h, .refl x⟩

theorem grown_of_enterAll (h : x ∈ (enterAll m cs).1.values) :
    ∃ y ∈ m.values, Grows y x := by
  induction cs generalizing m with
  | nil => exact ⟨x, h, .refl x⟩
  | cons c cs ih =>
    obtain ⟨y, hy, hyx⟩ := ih h
    obtain ⟨z, hz, hzy⟩ := grown_of_enter hy
    exact ⟨z, hz, hzy.trans hyx⟩

theorem find_enter (hx : m.find k = some x) (c : Candidate) :
    ∃ y, (enter m c).1.find k = some y ∧ Grows x y := by
  cases hy : m.find c.contract with
  | none => exact ⟨x, by rwa [enter_none hy], .refl x⟩
  | some y =>
    rw [enter_some hy, Assoc.find_set]
    split
    · rename_i hk
      cases (hk ▸ hy).symm.trans hx
      exact ⟨_, rfl, grows_add _ c⟩
    · exact ⟨x, hx, .refl x⟩

theorem find_enterAll (hx : m.find k = some x) (cs : List Candidate) :
    ∃ y, (enterAll m cs).1.find k = some y ∧ Grows x y := by
  induction cs generalizing m x with
  | nil => exact ⟨x, hx, .refl x⟩
  | cons c cs ih =>
    obtain ⟨y, hy, hxy⟩ := find_enter hx c
    obtain ⟨z, hz, hyz⟩ := ih hy
    exact ⟨z, hz, hxy.trans hyz⟩

end Growth

/-- What a local takes over from its candidate. -/
def Promotes (l : Promoted) (c : Candidate) : Prop :=
  l.id = c.id ∧ l.statement = c.statement ∧ l.initial = c.initial ∧ ∃ n, l.globalName = globalName c.name n

/-- The local is that of the candidate, and its contract declares the new variable. -/
structure Entered (m : Assoc Key Home) (l : Promoted) (c : Candidate) : Prop where
  promotes : Promotes l c
  type : l.type = c.type
  home : ∃ x, m.find c.contract = some x ∧ (l.type, l.globalName) ∈ x.globals

theorem entered_of_enter (h : (enter m c).2 = some l) :
    Entered (enter m c).1 l c := by
  cases hx : m.find c.contract with
  | none =>
    rw [enter_none hx] at h
    cases h
  | some x =>
    rw [enter_some hx] at h ⊢
    dsimp only at h
    split at h
    · cases h
    · cases h
      refine ⟨⟨rfl, rfl, rfl, _, rfl⟩, rfl, x.add c, ?_, mem_append_right _ mem_cons_self⟩
      rw [Assoc.find_set, if_pos rfl]

theorem entered_enterAll (m : Assoc Key Home) (cs : List Candidate) :
    SublistForall₂ (Entered (enterAll m cs).1) (enterAll m cs).2 cs := by
  induction cs generalizing m with
  | nil => exact .nil
  | cons c cs ih =>
    rw [enterAll]
    dsimp only
    cases h : (enter m c).2 with
    | none => exact .cons_right (ih _)
    | some l =>
      obtain ⟨hpromotes, htype, x, hx, hmem⟩ := entered_of_enter h
      obtain ⟨y, hy, hgrows⟩ := find_enterAll hx cs
      exact .cons ⟨hpromotes, htype, y, hy, hgrows.globals hmem⟩ (ih _)

/-- Take up locals under their numbers, one after the other. -/
def takeUp (acc : Assoc Key Promoted) (l : Promoted) : Except Fault (Assoc Key Promoted) := do
  return Assoc.set (← l.id.key) l acc

theorem values_takeUp {m : Assoc Key Promoted} (h : ls.foldlM takeUp acc = .ok m) :
    m.values.Subperm (ls ++ acc.values) := by
  induction ls generalizing acc with
  | nil =>
    cases h
    exact Subperm.refl _
  | cons l ls ih =>
    rw [foldlM_cons] at h
    obtain ⟨acc', hacc, h⟩ := bind_ok.1 h
    obtain ⟨k, -, hacc⟩ := bind_ok.1 hacc
    cases hacc
    have hstep : (ls ++ (Assoc.set k l acc).values).Subperm (ls ++ l :: acc.values) :=
      (subperm_append_left ls).2 (values_set_subperm k l acc)
    exact (ih h).trans (hstep.trans perm_middle.subperm)

theorem key_of_takeUp {m : Assoc Key Promoted} (h : ls.foldlM takeUp acc = .ok m)
    (hl : m.find k = some l) : acc.find k = some l ∨ l.id.key = .ok k := by
  induction ls generalizing acc with
  | nil =>
    cases h
    exact .inl hl
  | cons l' ls ih =>
    rw [foldlM_cons] at h
    obtain ⟨acc', hacc, h⟩ := bind_ok.1 h
    obtain ⟨j, hj, hacc⟩ := bind_ok.1 hacc
    cases hacc
    rcases ih h with hfind | hkey
    · rw [Assoc.find_set] at hfind
      split at hfind
      · rename_i heq
        cases hfind
        exact .inr (heq ▸ hj)
      · exact .inl hfind
    · exact .inr hkey

end Entered

/-! ## The promoted locals of a tree -/

/-- The statement declares the local and nothing else, and the local is named after
its name there. -/
def Declares (s : Bytes) (l : Promoted) (ms : Members) : Prop :=
  rangesOf? s ms = some (l.statement, l.initial) ∧
    ∃ d name n, onlyDeclarator ms = .ok (some (.obj d)) ∧ fieldOf "id" d = l.id ∧
      (fieldOf "name" d).characters = .ok name ∧ l.globalName = globalName (plainName name) n

theorem declares_of_promotes {s : Bytes} (h : Promotes l c)
    (hc : DeclaredBy s c ms) : Declares s l ms := by
  obtain ⟨hid, hstatement, hinitial, n, hname⟩ := h
  obtain ⟨k, d, hd, hc, -⟩ := hc
  obtain ⟨o, -, hc⟩ := bind_ok.1 hc
  split at hc
  · cases hc
  · split at hc
    · cases hc
    · rename_i hranges
      obtain ⟨name, hchars, hc⟩ := bind_ok.1 hc
      obtain ⟨k', -, hc⟩ := bind_ok.1 hc
      cases hc
      refine ⟨?_, d, name, n, hd, hid.symm, hchars, hname⟩
      rw [hranges, hstatement, hinitial]

/-- How far the declarations of a tree extend: over the semicolon and a comment
behind it, up to the end of the line. -/
def extents (s : Bytes) (tree : Json) : List Range :=
  (nodesOf declarationKind tree).filterMap fun ms => (rangesOf? s ms).map (·.1)

theorem mem_extents {s : Bytes}
    (hms : ms ∈ nodesOf declarationKind tree) (h : Declares s l ms) : l.statement ∈ extents s tree :=
  mem_filterMap.2 ⟨ms, hms, by rw [h.1]; rfl⟩

section Promotion

variable {s : Bytes} {tree : Json} {p : Promotion} (h : promotionOf s tree = .ok p)

include h

theorem exists_found : ∃ known cs, homes s tree = .ok known ∧ Found s known cs (nestedNodes [] tree) ∧
    (enterAll known cs).1 = p.homes ∧ (enterAll known cs).2.foldlM takeUp [] = .ok p.locals := by
  obtain ⟨known, hknown, h⟩ := bind_ok.1 h
  obtain ⟨cs, hcs, h⟩ := bind_ok.1 h
  obtain ⟨locals, hlocals, h⟩ := bind_ok.1 h
  cases h
  exact ⟨known, cs, hknown, found_candidates rfl (fun _ => forall_mem_nil _) hcs, rfl, hlocals⟩

theorem exists_declared : ∃ ls, SublistForall₂ (Declares s) ls (nodesOf declarationKind tree) ∧
    ls.foldlM takeUp [] = .ok p.locals := by
  obtain ⟨known, cs, -, hfound, -, hlocals⟩ := exists_found h
  refine ⟨_, ?_, hlocals⟩
  rw [nodesOf, ← map_nodesIn (fun above ms => ms :: above) [], filter_map, sublistForall₂_map_right_iff]
  exact drawn_trans (S := FoundAt s known) (fun _ _ _ hl hc => declares_of_promotes hl.promotes hc.declared)
    (entered_enterAll known cs) hfound

theorem exists_declaration (hl : l ∈ p.locals.values) :
    ∃ ms ∈ nodesOf declarationKind tree, Declares s l ms := by
  obtain ⟨ls, hdrawn, hls⟩ := exists_declared h
  have hmem := (values_takeUp hls).subset hl
  exact exists_of_drawn hdrawn l ((append_nil ls) ▸ hmem)

theorem key_of_find (hl : p.locals.find k = some l) : l.id.key = .ok k := by
  obtain ⟨ls, -, hls⟩ := exists_declared h
  rcases key_of_takeUp hls hl with hnil | hkey
  · cases hnil
  · exact hkey

theorem pairwise_locals (happart : (extents s tree).Pairwise Range.Apart) :
    p.locals.values.Pairwise fun l l' => l.statement.Apart l'.statement := by
  obtain ⟨ls, hdrawn, hls⟩ := exists_declared h
  have hpair : ls.Pairwise fun l l' => l.statement.Apart l'.statement := by
    refine pairwise_of_drawn ?_ hdrawn (pairwise_filterMap.1 happart)
    intro l l' ms ms' hl hl' hms
    exact hms _ (by rw [hl.1]; rfl) _ (by rw [hl'.1]; rfl)
  obtain ⟨ls', hperm, hsub⟩ := (append_nil ls) ▸ values_takeUp hls
  exact (hperm.pairwise_iff fun hab => Range.Apart.symm hab).1 (hpair.sublist hsub)

theorem exists_contract {x : Home} (hx : x ∈ p.homes.values) :
    ∃ ms ∈ nodesOf "ContractDefinition" tree, insertionPoint? s ms = some x.position := by
  obtain ⟨known, cs, hknown, -, hhomes, -⟩ := exists_found h
  rw [← hhomes] at hx
  obtain ⟨y, hy, hgrows⟩ := grown_of_enterAll hx
  exact hgrows.position ▸ position_of_homes hknown hy

end Promotion

end Obscura.Storage
