import Mathlib.Data.List.Nodup
import Mathlib.Logic.Function.Iterate
import Obscura.Flow.Flatten

/-
  The loop of a dispatcher as a machine. The machine holds the variable of the
  loop and the outcomes of the conditions that are still to come; one turn runs
  the arm whose number the variable holds. Where no arm has that number, a turn
  does nothing and the loop goes on for ever.
-/

namespace Obscura.Flow

open List

variable {k n no yes : Nat} {blocks : List Block}

/-! ## Turns of the loop -/

/-- What a turn of the loop does. -/
inductive Event where
  | ran (code : Chars)
  | tested (condition : Chars) (outcome : Bool)
deriving Repr, DecidableEq

/-- A dispatcher at work. -/
structure Machine where
  /-- The number of the block to run, none once the function is left. -/
  state : Option Nat
  /-- The outcomes of the conditions to come. -/
  outcomes : Nat → Bool
  /-- What was done so far. -/
  trace : List Event

variable {m m' : Machine} {arms : List Block}

namespace Machine

/-- The machine in front of its loop. -/
def start (outcomes : Nat → Bool) : Machine :=
  ⟨some 1, outcomes, []⟩

def leaveBy (m : Machine) (b : Block) : Machine :=
  match b.exit with
  | .goto n => ⟨some n, m.outcomes, m.trace ++ [.ran b.content]⟩
  | .branch yes no =>
    ⟨some (if m.outcomes 0 then yes else no), fun i => m.outcomes (i + 1),
      m.trace ++ [.tested b.code (m.outcomes 0)]⟩
  | .leave => ⟨none, m.outcomes, m.trace ++ [.ran b.content]⟩

/-- One turn of the loop with the given arms; at zero the loop is over. -/
def turn (arms : List Block) (m : Machine) : Machine :=
  match m.state with
  | none => m
  | some 0 => m
  | some (n + 1) =>
    match blockAt? (n + 1) arms with
    | none => m
    | some b => m.leaveBy b

def after (arms : List Block) (k : Nat) (m : Machine) : Machine :=
  (turn arms)^[k] m

/-- The loop is over or the function is left. -/
def Finished (m : Machine) : Prop :=
  m.state = none ∨ m.state = some 0

/-- No arm is left to run. -/
def Stopped (arms : List Block) (m : Machine) : Prop :=
  m.Finished ∨ ∃ n, m.state = some n ∧ blockAt? n arms = none

theorem after_add (j : Nat) :
    m.after arms (j + k) = (m.after arms k).after arms j :=
  Function.iterate_add_apply (turn arms) j k m

theorem turn_of_blockAt? (hn : n ≠ 0)
    (hm : m.state = some n) (hb : blockAt? n arms = some b) : turn arms m = m.leaveBy b := by
  cases n with
  | zero => exact absurd rfl hn
  | succ n => simp only [turn, hm, hb]

theorem turn_of_stopped (h : m.Stopped arms) : turn arms m = m := by
  rcases h with (h | h) | ⟨n, h, hn⟩
  · simp only [turn, h]
  · simp only [turn, h]
  · cases n with
    | zero => simp only [turn, h]
    | succ n => simp only [turn, h, hn]

theorem after_of_stopped (h : m.Stopped arms) : m.after arms k = m :=
  Function.iterate_fixed (turn_of_stopped h) k

theorem Finished.stopped (h : m.Finished) : m.Stopped arms := .inl h

/-- Once the machine has stopped, it was and is in this state at every later
turn. -/
theorem after_of_le {j : Nat} (h : m.after arms k = m')
    (hs : m'.Stopped arms) (hj : k ≤ j) : m.after arms j = m' := by
  obtain ⟨i, rfl⟩ := Nat.exists_eq_add_of_le hj
  rw [Nat.add_comm, after_add, h]
  exact after_of_stopped hs

theorem finishes_iff (h : m.after arms k = m')
    (hs : m'.Stopped arms) : (∃ j, (m.after arms j).Finished) ↔ m'.Finished := by
  constructor
  · rintro ⟨j, hj⟩
    rcases Nat.le_total k j with hkj | hjk
    · rwa [after_of_le h hs hkj] at hj
    · -- it finished before, and stayed as it was
      rwa [← after_of_le rfl hj.stopped hjk, h] at hj
  · intro hf
    exact ⟨k, h ▸ hf⟩

/-- The machine comes from one state to another. -/
def Reaches (arms : List Block) (m m' : Machine) : Prop :=
  ∃ k, m.after arms k = m'

theorem Reaches.refl (arms : List Block) (m : Machine) : Reaches arms m m := ⟨0, rfl⟩

theorem Reaches.trans {m₁ m₂ m₃ : Machine} (h₁ : Reaches arms m₁ m₂)
    (h₂ : Reaches arms m₂ m₃) : Reaches arms m₁ m₃ := by
  obtain ⟨k₁, h₁⟩ := h₁
  obtain ⟨k₂, h₂⟩ := h₂
  exact ⟨k₂ + k₁, by rw [after_add, h₁, h₂]⟩

section arm

variable {arms : List Block} {b : Block} (hb : blockAt? b.id arms = some b) (h0 : b.id ≠ 0)
  (o : Nat → Bool) (tr : List Event)

include hb h0

theorem reaches_goto (he : b.exit = .goto n) :
    Reaches arms ⟨some b.id, o, tr⟩ ⟨some n, o, tr ++ [.ran b.code]⟩ := by
  refine ⟨1, (turn_of_blockAt? h0 rfl hb).trans ?_⟩
  simp only [leaveBy, Block.content, he]

theorem reaches_branch (he : b.exit = .branch yes no) : Reaches arms ⟨some b.id, o, tr⟩
      ⟨some (if o 0 then yes else no), fun i => o (i + 1), tr ++ [.tested b.code (o 0)]⟩ := by
  refine ⟨1, (turn_of_blockAt? h0 rfl hb).trans ?_⟩
  simp only [leaveBy, he]

theorem reaches_side (he : b.exit = .branch yes no) {c : Block}
    (hc : blockAt? c.id arms = some c) (hc0 : c.id ≠ 0) (hto : (if o 0 then yes else no) = c.id)
    (hce : c.exit = .goto n) :
    Reaches arms ⟨some b.id, o, tr⟩
      ⟨some n, fun i => o (i + 1), tr ++ [.tested b.code (o 0), .ran c.code]⟩ := by
  have htest := reaches_branch hb h0 o tr he
  have hside := reaches_goto hc hc0 (fun i => o (i + 1)) (tr ++ [.tested b.code (o 0)]) hce
  rw [hto] at htest
  rw [append_assoc] at hside
  exact htest.trans hside

theorem reaches_leave (he : b.exit = .leave) :
    Reaches arms ⟨some b.id, o, tr⟩ ⟨none, o, tr ++ [.ran b.code]⟩ := by
  refine ⟨1, (turn_of_blockAt? h0 rfl hb).trans ?_⟩
  simp only [leaveBy, Block.content, he]

end arm

end Machine

/-! ## Arms -/

/-- With distinct numbers, the block of a number is the one that carries it. -/
theorem blockAt?_eq_some_iff (hd : (blocks.map Block.id).Nodup) {n : Nat} :
    blockAt? n blocks = some b ↔ b ∈ blocks ∧ b.id = n := by
  constructor
  · intro h
    exact ⟨mem_of_find?_eq_some h, by simpa using find?_some h⟩
  · rintro ⟨hb, rfl⟩
    cases h : blockAt? b.id blocks with
    | none =>
      have hne := find?_eq_none.1 h b hb
      simp at hne
    | some c =>
      have hc : c.id = b.id := by simpa using find?_some h
      rw [inj_on_of_nodup_map hd (mem_of_find?_eq_some h) hb hc]

theorem blockAt?_eq_none (h : n ∉ blocks.map Block.id) :
    blockAt? n blocks = none := by
  rw [blockAt?, find?_eq_none]
  intro b hb he
  exact h (mem_map.2 ⟨b, hb, by simpa using he⟩)

/-- **The order of the arms does not matter** if their numbers are distinct. -/
theorem blockAt?_of_perm (hp : arms.Perm blocks)
    (hd : (blocks.map Block.id).Nodup) (n : Nat) : blockAt? n arms = blockAt? n blocks := by
  have hd' : (arms.map Block.id).Nodup := (hp.map _).nodup_iff.2 hd
  apply Option.ext
  intro b
  rw [blockAt?_eq_some_iff hd', blockAt?_eq_some_iff hd, hp.mem_iff]

end Obscura.Flow
