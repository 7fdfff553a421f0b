import Obscura.Ast.Node

/-
  Walks over a syntax tree. A walk goes through arrays and objects in order and
  meets each object before those below it; objects are the nodes of the tree.
  Walks that look at contracts go from a contract on to its `nodes` only.
-/

namespace Obscura.Ast

def isKind (k : String) (ms : Members) : Bool :=
  (Json.fieldOf "nodeType" ms).isText k

def IsNode (k : String) (v : Json) : Prop :=
  ∃ ms, v = .obj ms ∧ isKind k ms = true

theorem isNode_obj {k : String} {ms : Members} : IsNode k (.obj ms) ↔ isKind k ms = true := by
  constructor
  · rintro ⟨_, he, hk⟩
    cases he
    exact hk
  · exact fun hk => ⟨ms, rfl, hk⟩

/-- A node is of one kind only. -/
theorem isKind_of_ne {k k' : String} {ms : Members} (h : isKind k ms) (hne : k ≠ k') :
    isKind k' ms = false := by
  revert h
  unfold isKind Json.isText
  split
  · intro h
    rw [beq_iff_eq] at h
    rw [h, beq_eq_false_iff_ne]
    exact hne
  · exact fun _ => rfl

/-- A walk goes into a list value by value, and into an object as into the list of its
values. -/
theorem walkInduction {P : Json → Prop} (null : P .null) (bool : ∀ b, P (.bool b)) (int : ∀ i, P (.int i))
    (float : ∀ x, P (.float x)) (str : ∀ s, P (.str s)) (torn : ∀ s, P (.torn s)) (nil : P (.arr []))
    (cons : ∀ v vs, P v → P (.arr vs) → P (.arr (v :: vs)))
    (obj : ∀ ms : Members, (∀ m ∈ ms, P m.2) → P (.arr (ms.map Prod.snd)) → P (.obj ms)) : ∀ v, P v :=
  @Json.rec P (fun vs => P (.arr vs)) (fun ms => (∀ m ∈ ms, P m.2) ∧ P (.arr (ms.map Prod.snd)))
    (fun m => P m.2) null bool int float str torn (fun _ h => h) (fun ms h => obj ms h.1 h.2) nil cons
    ⟨nofun, nil⟩ (fun _ _ hm h => ⟨List.forall_mem_cons.2 ⟨hm, h.1⟩, cons _ _ hm h.2⟩) (fun _ _ h => h)

/-! ## All nodes -/

mutual

/-- The nodes of a tree, each before those below it. -/
def nodes : Json → List Members
  | .obj ms => ms :: nodesOfMembers ms
  | .arr items => nodesOfItems items
  | _ => []

def nodesOfMembers : Members → List Members
  | [] => []
  | (_, v) :: ms => nodes v ++ nodesOfMembers ms

def nodesOfItems : List Json → List Members
  | [] => []
  | v :: vs => nodes v ++ nodesOfItems vs

end

theorem nodesOfMembers_eq (ms : Members) : nodesOfMembers ms = nodes (.arr (ms.map Prod.snd)) := by
  induction ms with
  | nil => rfl
  | cons m ms ih => exact congrArg (nodes m.2 ++ ·) ih

def nodesOf (kind : String) (tree : Json) : List Members :=
  (nodes tree).filter (isKind kind)

/-! ## Direct nodes -/

mutual

/-- The nodes of a tree that is a node itself, each before those below it. The
walk goes into objects and into the objects of a list, not into a list in a
list. -/
def directNodes : Json → List Members
  | .obj ms => ms :: directOfMembers ms
  | _ => []

def directOfMembers : Members → List Members
  | [] => []
  | (_, .arr items) :: ms => directOfItems items ++ directOfMembers ms
  | (_, .obj inner) :: ms => (inner :: directOfMembers inner) ++ directOfMembers ms
  | _ :: ms => directOfMembers ms

def directOfItems : List Json → List Members
  | [] => []
  | v :: vs => directNodes v ++ directOfItems vs

end

/-! ## Nodes with what is around them -/

section around

variable {σ : Type} (enter : σ → Members → σ)

mutual

/-- The nodes of a tree, each with what holds at its place: `x` at the top, and below
a node what `enter` makes of that. -/
def nodesIn (x : σ) : Json → List (σ × Members)
  | .obj ms => (x, ms) :: nodesInMembers (enter x ms) ms
  | .arr items => nodesInItems x items
  | _ => []

def nodesInMembers (x : σ) : Members → List (σ × Members)
  | [] => []
  | (_, v) :: ms => nodesIn x v ++ nodesInMembers x ms

def nodesInItems (x : σ) : List Json → List (σ × Members)
  | [] => []
  | v :: vs => nodesIn x v ++ nodesInItems x vs

end

theorem nodesInMembers_eq (x : σ) (ms : Members) :
    nodesInMembers enter x ms = nodesIn enter x (.arr (ms.map Prod.snd)) := by
  induction ms with
  | nil => rfl
  | cons m ms ih => exact congrArg (nodesIn enter x m.2 ++ ·) ih

theorem map_nodesIn (x : σ) (v : Json) : (nodesIn enter x v).map Prod.snd = nodes v := by
  induction v using walkInduction generalizing x with
  | cons v vs hv hvs =>
    rw [nodesIn, nodesInItems, List.map_append, hv]
    exact congrArg (nodes v ++ ·) (hvs x)
  | obj ms _ hms =>
    rw [nodesIn, nodes, nodesInMembers_eq, nodesOfMembers_eq]
    exact congrArg (ms :: ·) (hms _)
  | _ => rfl

end around

/-- The number of the contract that the members of a node stand in, given that
of the node itself. -/
def contractBelow (contract : Json) (ms : Members) : Json :=
  if isKind "ContractDefinition" ms then Json.fieldOf "id" ms else contract

/-- The nodes of a tree, each with the number of the contract around it. -/
def placedNodes (contract tree : Json) : List (Json × Members) :=
  nodesIn contractBelow contract tree

/-! ## Contracts -/

section contracts

variable {α : Type} (f : Members → Except Fault (List α))

mutual

/-- What `f` says of each contract of a tree. -/
def atContracts : Json → Except Fault (List α)
  | .obj ms =>
    if isKind "ContractDefinition" ms then do
      let here ← f ms
      return here ++ (← atContractsOfMembers true ms)
    else atContractsOfMembers false ms
  | .arr items => atContractsOfItems items
  | _ => .ok []

/-- The contracts below the members of a node; below those of a contract only
the list under `nodes` counts. -/
def atContractsOfMembers (contract : Bool) : Members → Except Fault (List α)
  | [] => .ok []
  | (k, v) :: ms => do
    let here ←
      if contract then
        if k = "nodes" then
          match v with
          | .arr items => atContractsOfItems items
          | .obj _ => .ok []
          | .str _ => .ok []
          | _ => .error .wrongKind
        else .ok []
      else atContracts v
    return here ++ (← atContractsOfMembers contract ms)

def atContractsOfItems : List Json → Except Fault (List α)
  | [] => .ok []
  | v :: vs => do
    let here ← atContracts v
    return here ++ (← atContractsOfItems vs)

end

end contracts

end Obscura.Ast
