import Obscura.Draws
import Obscura.Json.Basic

/-
  A counter as a source of draws, asked in all the ways that a pass may ask.
-/

namespace Obscura.Workload

inductive Wish where
  | between (low high : Int)
  | below (bound : Nat)
  | pick (items : List Json)
  | reorder (items : List Json)
  | restart (last : Nat)

def Wish.grant : Wish → Sampled Json
  | .between low high => do
    let v ← Sampled.draw
    return .int (low + (v : Int) % (high - low + 1))
  | .below bound => return .int (← Sampled.below bound)
  | .pick items => do
    let v ← Sampled.below items.length
    return items.getD v .null
  | .reorder items => return .arr (← Sampled.shuffle items)
  | .restart last => do
    set (Draws.counter last)
    return .null

/-- Answer wishes one after the other, from a counter that starts at `last`. -/
def grantAll (last : Nat) (wishes : List Wish) : List Json :=
  ((wishes.mapM Wish.grant).run (.counter last)).1

end Obscura.Workload
