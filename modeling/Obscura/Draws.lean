/-
  Draws: where arbitrary choices come from. A source of draws is a value, so a
  pass that chooses is a function of its source, and the order of its choices
  is the order in which it takes draws.
-/

namespace Obscura

/-- A source of draws: numbers laid down beforehand and then a linear
congruential sequence, or a plain counter. -/
inductive Draws where
  | stream (given : List Nat) (state : Nat)
  | counter (last : Nat)
deriving Repr, DecidableEq

abbrev Sampled := StateM Draws

namespace Draws

def advance (state : Nat) : Nat :=
  (state * 1103515245 + 12345) % Nat.pow 2 31

def next : Draws → Nat × Draws
  | .stream (v :: vs) state => (v, .stream vs state)
  | .stream [] state => (advance state / 256, .stream [] (advance state))
  | .counter last => (last + 1, .counter (last + 1))

end Draws

namespace Sampled

def draw : Sampled Nat := fun d => d.next

def below (n : Nat) : Sampled Nat := do
  return (← draw) % n

def between (a b : Nat) : Sampled Nat := do
  return a + (← below (b + 1 - a))

def pick {α : Type} (x : α) (xs : List α) : Sampled α := do
  let v ← below (xs.length + 1)
  return (x :: xs).getD v x

def swapItems {α : Type} (xs : List α) (i j : Nat) : List α :=
  (xs.toArray.swapIfInBounds i j).toList

/-- Swap the item at `i` with a drawn one at or before it, for each `i` down to
the second item. -/
def shuffleDown {α : Type} : Nat → List α → Sampled (List α)
  | 0, xs => pure xs
  | i + 1, xs => do
    let j ← below (i + 2)
    shuffleDown i (swapItems xs (i + 1) j)

/-- Reorder a list. A counter turns it by a drawn number of places; another
source swaps its items one by one. -/
def shuffle {α : Type} (xs : List α) : Sampled (List α) := do
  match ← get with
  | .stream .. => shuffleDown (xs.length - 1) xs
  | .counter _ =>
    if 1 < xs.length then
      let k ← below xs.length
      return xs.drop k ++ xs.take k
    else return xs

variable {α : Type} {xs : List α} {i : Nat} {d : Draws}

theorem swapItems_perm (j : Nat) : (swapItems xs i j).Perm xs := by
  unfold swapItems
  rw [Array.swapIfInBounds]
  split
  · split
    · exact (Array.swap_perm _ _).toList
    · exact .refl _
  · exact .refl _

theorem shuffleDown_perm : (shuffleDown i xs d).1.Perm xs := by
  induction i generalizing xs d with
  | zero => exact .refl _
  | succ i ih => exact (ih).trans (swapItems_perm _)

/-- **A shuffle is a permutation.** -/
theorem shuffle_perm (xs : List α) (d : Draws) : (shuffle xs d).1.Perm xs := by
  cases d with
  | stream given state => exact shuffleDown_perm
  | counter last =>
    show ((if 1 < xs.length then _ else _ : Sampled (List α)) _).1.Perm xs
    split
    · exact List.perm_append_comm.trans (.of_eq (List.take_append_drop _ _))
    · exact .refl _

end Sampled

end Obscura
