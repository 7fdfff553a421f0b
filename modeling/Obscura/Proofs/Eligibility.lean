import Obscura.Proofs.GlobalNames

/-
  Which locals are promoted. The walk can be told with two stacks, one of the contracts
  around a node and one of the functions; each subtree leaves both as it found them
  (`traverse_eq`). So what is on them belongs to the nodes around a declaration, and a
  local that is promoted stands in a contract with a number under which there is room for
  declarations, and in no function that promises to leave the state alone.
-/

namespace Obscura.Storage

open Text Ast Json List

variable {known : Assoc Key Home} {b ms : Members} {s : Bytes} {tree : Json} {k : Key}

/-! ## Two stacks -/

structure Stacks where
  contracts : List Surrounding
  functions : List Bool

namespace Stacks

def around (σ : Stacks) : Surrounding :=
  σ.contracts.headD .file

def readOnly (σ : Stacks) : Bool :=
  σ.functions.any id

def enterContract (σ : Stacks) (a : Surrounding) : Stacks :=
  { σ with contracts := a :: σ.contracts }

def leaveContract (σ : Stacks) : Stacks :=
  { σ with contracts := σ.contracts.tail }

def enterFunction (σ : Stacks) (b : Bool) : Stacks :=
  { σ with functions := b :: σ.functions }

def leaveFunction (σ : Stacks) : Stacks :=
  { σ with functions := σ.functions.tail }

end Stacks

section Traverse

variable (s : Bytes) (known : Assoc Key Home)

mutual

/-- The walk for candidates as one that hands two stacks on from node to node. -/
def traverse (σ : Stacks) : Json → Except Fault (List Candidate × Stacks)
  | .obj ms => do
    if isKind "ContractDefinition" ms then
      let (found, σ) ← traverseContract (σ.enterContract (← surroundingOf known ms)) ms
      return (found, σ.leaveContract)
    else if isKind "FunctionDefinition" ms then
      let (found, σ) ← traverseMembers (σ.enterFunction (← isReadOnly ms)) ms
      return (found, σ.leaveFunction)
    else if isKind declarationKind ms then
      match ← candidateHere s σ.around σ.readOnly ms with
      | none => return ([], σ)
      | some c =>
        match c.id with
        | .null => return ([c], σ)
        | _ =>
          let (found, σ) ← traverseMembers σ ms
          return (c :: found, σ)
    else traverseMembers σ ms
  | .arr items => traverseItems σ items
  | _ => .ok ([], σ)

def traverseMembers (σ : Stacks) : Members → Except Fault (List Candidate × Stacks)
  | [] => .ok ([], σ)
  | (_, v) :: ms => do
    let (here, σ) ← traverse σ v
    let (rest, σ) ← traverseMembers σ ms
    return (here ++ rest, σ)

def traverseContract (σ : Stacks) : Members → Except Fault (List Candidate × Stacks)
  | [] => .ok ([], σ)
  | (k, v) :: ms => do
    let (here, σ) ←
      if k = "nodes" then
        match v with
        | .arr items => traverseItems σ items
        | .obj _ => .ok ([], σ)
        | .str _ => .ok ([], σ)
        | _ => .error .wrongKind
      else .ok ([], σ)
    let (rest, σ) ← traverseContract σ ms
    return (here ++ rest, σ)

def traverseItems (σ : Stacks) : List Json → Except Fault (List Candidate × Stacks)
  | [] => .ok ([], σ)
  | v :: vs => do
    let (here, σ) ← traverse σ v
    let (rest, σ) ← traverseItems σ vs
    return (here ++ rest, σ)

end

end Traverse

theorem readOnly_enterFunction (σ : Stacks) (b : Bool) :
    (σ.enterFunction b).readOnly = (σ.readOnly || b) := Bool.or_comm ..

/-- A step that leaves the stacks as they were, and one behind it. -/
theorem join_eq {σ : Stacks} (here : Except Fault (List Candidate)) {rest : Except Fault (List Candidate)}
    (f : Stacks → Except Fault (List Candidate × Stacks)) (hf : f σ = rest.map (·, σ)) :
    (do
      let (found, σ) ← here.map (·, σ)
      let (more, σ) ← f σ
      return (found ++ more, σ)) = (do
      let found ← here
      return found ++ (← rest)).map (·, σ) := by
  cases here with
  | error f => rfl
  | ok found =>
    dsimp only [Except.map, bind, Except.bind]
    rw [hf]
    cases rest <;> rfl

mutual

/-- The walk with stacks finds what the walk finds, and leaves the stacks as they were. -/
theorem traverse_eq (σ : Stacks) : ∀ v : Json,
    traverse s known σ v = (candidates s known σ.around σ.readOnly v).map (·, σ)
  | .obj ms => by
    rw [traverse, candidates]
    split
    · cases surroundingOf known ms with
      | error f => rfl
      | ok a =>
        dsimp only [bind, Except.bind]
        rw [traverseContract_eq]
        exact match candidatesOfContract s known a σ.readOnly ms with
          | .error _ => rfl
          | .ok _ => rfl
    split
    · cases isReadOnly ms with
      | error f => rfl
      | ok b =>
        dsimp only [bind, Except.bind]
        rw [traverseMembers_eq, readOnly_enterFunction]
        exact match candidatesOfMembers s known σ.around (σ.readOnly || b) ms with
          | .error _ => rfl
          | .ok _ => rfl
    split
    · cases candidateHere s σ.around σ.readOnly ms with
      | error f => rfl
      | ok o =>
        cases o with
        | none => rfl
        | some c =>
          dsimp only [bind, Except.bind]
          rw [traverseMembers_eq]
          cases c.id <;> cases candidatesOfMembers s known σ.around σ.readOnly ms <;> rfl
    · exact traverseMembers_eq σ ms
  | .arr items => traverseItems_eq σ items
  | .null | .bool _ | .int _ | .float _ | .str _ | .torn _ => rfl

theorem traverseMembers_eq (σ : Stacks) : ∀ ms : Members,
    traverseMembers s known σ ms = (candidatesOfMembers s known σ.around σ.readOnly ms).map (·, σ)
  | [] => rfl
  | (_, v) :: ms => by
    rw [traverseMembers, candidatesOfMembers, traverse_eq]
    exact join_eq _ (traverseMembers s known · ms) (traverseMembers_eq σ ms)

theorem traverseContract_eq (σ : Stacks) : ∀ ms : Members,
    traverseContract s known σ ms = (candidatesOfContract s known σ.around σ.readOnly ms).map (·, σ)
  | [] => rfl
  | (k, v) :: ms => by
    have hjoin (here : Except Fault (List Candidate)) := join_eq here
      (traverseContract s known · ms) (traverseContract_eq σ ms)
    rw [traverseContract.eq_def, candidatesOfContract.eq_def]
    dsimp only
    split
    · cases v with
      | arr items =>
        dsimp only
        rw [traverseItems_eq]
        exact hjoin _
      | obj _ => exact hjoin (.ok [])
      | str _ => exact hjoin (.ok [])
      | _ => rfl
    · exact hjoin (.ok [])

theorem traverseItems_eq (σ : Stacks) : ∀ items : List Json,
    traverseItems s known σ items = (candidatesOfItems s known σ.around σ.readOnly items).map (·, σ)
  | [] => rfl
  | v :: vs => by
    rw [traverseItems, candidatesOfItems, traverse_eq]
    exact join_eq _ (traverseItems s known · vs) (traverseItems_eq σ vs)

end

/-! ## Eligible declarations -/

theorem mem_nodes_of_above {above : List Members} {v : Json} {q : List Members × Members}
    (hq : q ∈ nestedNodes above v) (hb : b ∈ q.1) : b ∈ above ∨ b ∈ nodes v := by
  induction v using walkInduction generalizing above with
  | cons v vs hv hvs =>
    rcases mem_append.1 hq with hq | hq
    · exact (hv hq).imp_right (mem_append_left _)
    · exact (hvs hq).imp_right (mem_append_right _)
  | obj ms _ hms =>
    rw [nestedNodes, nodesIn, nodesInMembers_eq] at hq
    rw [nodes, nodesOfMembers_eq]
    rcases mem_cons.1 hq with rfl | hq
    · exact .inl hb
    · rcases hms hq with hb | hb
      · exact (mem_cons.1 hb).elim (fun h => .inr (h ▸ mem_cons_self)) .inl
      · exact .inr (.tail _ hb)
  | _ => cases hq

/-- The function says that it is pure or a view, in letters of any case. -/
def SaysReadOnly (ms : Members) : Prop :=
  ∃ t, fieldOf "stateMutability" ms = .str t ∧
    (t.toList.map Char.toLower = "pure".toList ∨ t.toList.map Char.toLower = "view".toList)

/-- The declarator has a name and is none of a state variable, and its type is one that
a state variable can have. -/
structure Promotable (d : Members) (type : Chars) : Prop where
  named : (fieldOf "name" d).isSet = true
  isLocal : (fieldOf "stateVariable" d).isSet = false
  typed : ∃ types t, fieldOf "typeDescriptions" d = .obj types ∧
    (fieldOf "typeString" types = .str t ∨ fieldOf "typeString" types = .torn t) ∧
    stateType? t.toList = some type

/-- Contracts of the tree with one number are one node. -/
def ContractsNumbered (tree : Json) : Prop :=
  ∀ a ∈ nodesOf "ContractDefinition" tree, ∀ b ∈ nodesOf "ContractDefinition" tree,
    (fieldOf "id" a).key = (fieldOf "id" b).key → a = b

/-- The contract has the number of one that takes declarations; if contracts are
numbered, it is that one. -/
def HasRoom (s : Bytes) (tree : Json) (contract : Members) : Prop :=
  (∃ c ∈ nodesOf "ContractDefinition" tree, (fieldOf "id" c).key = (fieldOf "id" contract).key ∧
    (insertionPoint? s c).isSome = true) ∧
  (ContractsNumbered tree → (insertionPoint? s contract).isSome = true)

/-- The node declares the local with the number `k` below the nodes `above`, and the
local may be promoted with the type. -/
structure Eligible (s : Bytes) (tree : Json) (k : Key) (type : Chars) (above : List Members) (ms : Members) :
    Prop where
  node : (above, ms) ∈ nestedNodes [] tree
  kind : isKind declarationKind ms = true
  declarator : ∃ d, onlyDeclarator ms = .ok (some (.obj d)) ∧ (fieldOf "id" d).key = .ok k ∧ Promotable d type
  contract : ∃ c ∈ above, isKind "ContractDefinition" c = true ∧ HasRoom s tree c
  writable : ∀ f ∈ above, isKind "FunctionDefinition" f = true → ¬SaysReadOnly f

theorem not_saysReadOnly (h : isReadOnly ms = .ok false) : ¬SaysReadOnly ms := by
  rintro ⟨t, ht, hword⟩
  have hset : (Json.str t).isSet := by
    refine bne_iff_ne.2 fun hnil => ?_
    rw [hnil] at hword
    revert hword
    decide
  rw [isReadOnly, ht, orElse, if_pos hset] at h
  have hfalse := Except.ok.inj h
  rw [Bool.or_eq_false_iff, beq_eq_false_iff_ne, beq_eq_false_iff_ne] at hfalse
  exact hword.elim hfalse.1 hfalse.2

theorem typed_of_declaredType? {d : Members} {type : Chars} {halves : Bool}
    (h : declaredType? d = .ok (some (type, halves))) : ∃ types t, fieldOf "typeDescriptions" d = .obj types ∧
      (fieldOf "typeString" types = .str t ∨ fieldOf "typeString" types = .torn t) ∧
      stateType? t.toList = some type := by
  obtain ⟨v, hv, h⟩ := bind_ok.1 h
  have htype {t : String} {b : Bool} (h : (stateType? t.toList).map (·, b) = some (type, halves)) :
      stateType? t.toList = some type := by
    obtain ⟨u, hu, heq⟩ := Option.map_eq_some_iff.1 h
    rw [hu, (Prod.mk.inj heq).1]
  unfold orElse at hv
  split at hv
  · cases hd : fieldOf "typeDescriptions" d with
    | obj types =>
      rw [hd] at hv
      cases hv
      refine ⟨types, ?_⟩
      split at h
      · rename_i t ht
        exact ⟨t, rfl, .inl ht, htype (Except.ok.inj h)⟩
      · rename_i t ht
        exact ⟨t, rfl, .inr ht, htype (Except.ok.inj h)⟩
      · split at h
        · cases h
        · cases h
    | _ =>
      rw [hd] at hv
      cases hv
  · cases hv
    cases h

theorem hasRoom_of_home (hknown : homes s tree = .ok known) {contract : Members} {x : Home}
    (hnode : contract ∈ nodesOf "ContractDefinition" tree) (hk : (fieldOf "id" contract).key = .ok k)
    (hx : known.find k = some x) : HasRoom s tree contract := by
  obtain ⟨c, hc, hpoint, hck, -⟩ := home_of_homes hknown (Assoc.mem_of_find hx)
  have hsome : (insertionPoint? s c).isSome := by rw [hpoint]; rfl
  refine ⟨⟨c, hc, hck.trans hk.symm, hsome⟩, fun hnumbered => ?_⟩
  rwa [hnumbered contract hnode c hc (hk.trans hck.symm)]

theorem exists_eligible {p : Promotion} (hp : promotionOf s tree = .ok p) {l : Promoted}
    (hl : p.locals.find k = some l) : ∃ above ms, Eligible s tree k l.type above ms := by
  obtain ⟨known, cs, hknown, hfound, -, hlocals⟩ := exists_found hp
  have hmem := append_nil (enterAll known cs).2 ▸ (values_takeUp hlocals).subset (mem_values_of_find hl)
  obtain ⟨c, hc, hentered⟩ := exists_of_drawn (entered_enterAll known cs) l hmem
  obtain ⟨⟨above, ms⟩, hq, hat⟩ := exists_of_drawn hfound c hc
  obtain ⟨hnode, hkind⟩ := mem_filter.1 hq
  obtain ⟨⟨contract, hcontract, hk⟩, x, hx⟩ := contract_of_surroundingIn hat.around
  have habove := mem_of_find?_eq_some hcontract
  have hkindC := find?_some hcontract
  have hin : contract ∈ nodesOf "ContractDefinition" tree := by
    refine mem_filter.2 ⟨?_, hkindC⟩
    exact (mem_nodes_of_above hnode habove).resolve_left not_mem_nil
  obtain ⟨d, halves, hd, htype⟩ := type_of_declaredBy hat.declared
  obtain ⟨-, d', -, -, hd', hid, -⟩ := declares_of_promotes hentered.promotes hat.declared
  obtain ⟨-, d'', hd'', -, hstate, hname⟩ := hat.declared
  cases hd.symm.trans hd'
  cases hd.symm.trans hd''
  refine ⟨above, ms, hnode, hkind, ⟨d, hd, ?_, hname, hstate, ?_⟩, ⟨contract, habove, hkindC, ?_⟩, ?_⟩
  · rw [hid]
    exact key_of_find hp hl
  · rw [hentered.type]
    exact typed_of_declaredType? htype
  · exact hasRoom_of_home hknown hin hk hx
  · exact fun f hf hfunction => not_saysReadOnly (hat.writable f hf hfunction)

/-- **Only eligible locals are promoted.** The number of each promoted local is that of a
declaration that stands in a contract with room and in no function that says it is
read-only; it declares one variable, with a name, a type that a state variable can have,
and not as a state variable. And the walk that finds them can be done with two stacks:
each subtree leaves both as they were. -/
theorem only_eligible_promoted {source : Chars} {tree : Json} {p : Promotion}
    (hp : promotionOf (encode source) tree = .ok p) :
    (∀ k l, p.locals.find k = some l → ∃ above ms, Eligible (encode source) tree k l.type above ms) ∧
    ∀ known σ v, traverse (encode source) known σ v =
      (candidates (encode source) known σ.around σ.readOnly v).map (·, σ) :=
  ⟨fun _ _ hl => exists_eligible hp hl, fun _ σ v => traverse_eq σ v⟩

/-- The first local of the sample is declared by an eligible statement. -/
theorem only_eligible_promoted_two : ∃ l above ms, twoLocalsPromotion.locals.find (.whole 4) = some l ∧
    Eligible (encode twoLocals) twoLocalsTree (.whole 4) l.type above ms := by
  obtain ⟨-, -, hname, -⟩ := twoLocalsPromotion_spec
  obtain ⟨l, hl, -⟩ := Option.map_eq_some_iff.1 hname
  obtain ⟨above, ms, h⟩ := (only_eligible_promoted promotionOf_twoLocals).1 _ l hl
  exact ⟨l, above, ms, hl, h⟩

/-- Two contracts with one number; the one with the local has no text. -/
def sharedNumberTree : Json :=
  .obj [("nodeType", .str "SourceUnit"), ("nodes", .arr [
    .obj [("nodeType", .str "ContractDefinition"), ("id", .int 1), ("name", .str "C"), ("src", .str "0:54:0"),
      ("nodes", .arr [])],
    .obj [("nodeType", .str "ContractDefinition"), ("id", .int 1), ("name", .str "D"), ("src", .str "0:0:0"),
      ("nodes", .arr [.obj (declarationMembers 4 "a" "30:8:0" (.obj oneMembers))])]])]

/-- **A number says too little.** A local is promoted although no declaration stands in a
contract that takes declarations. -/
theorem local_without_room_promoted :
    (∃ p l, promotionOf (encode twoLocals) sharedNumberTree = .ok p ∧ p.locals.find (.whole 4) = some l) ∧
    ∀ q ∈ nestedNodes [] sharedNumberTree, isKind declarationKind q.2 = true →
      ∀ c ∈ q.1, isKind "ContractDefinition" c = true → insertionPoint? (encode twoLocals) c = none := by
  have hsome : ((promotionOf (encode twoLocals) sharedNumberTree).toOption.bind
      (·.locals.find (.whole 4))).isSome = true := by decide +kernel
  obtain ⟨l, hl⟩ := Option.isSome_iff_exists.1 hsome
  obtain ⟨p, hp, hl⟩ := Option.bind_eq_some_iff.1 hl
  refine ⟨⟨p, l, ?_, hl⟩, by decide⟩
  cases h : promotionOf (encode twoLocals) sharedNumberTree with
  | error f =>
    rw [h] at hp
    cases hp
  | ok p' =>
    rw [h] at hp
    rw [Option.some.inj hp]

end Obscura.Storage
