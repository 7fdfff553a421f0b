/-
  JSON values. Objects keep their members in the order in which they were first
  written, because a walk over a syntax tree visits them in that order.
-/

namespace Obscura

/-- A JSON value; whole numbers and others are kept apart, and so are texts and
strings that hold halves of surrogate pairs. -/
inductive Json where
  | null
  | bool (b : Bool)
  | int (i : Int)
  | float (x : Float)
  | str (s : String)
  /-- A string that holds halves, each of them as its stand-in. -/
  | torn (s : String)
  | arr (items : List Json)
  | obj (members : List (String × Json))
deriving Inhabited

abbrev Members := List (String × Json)

namespace Json

/-- Give the member `k` the value `v`. A member that exists keeps its place, a
new one goes to the end. -/
def setMember (k : String) (v : Json) : Members → Members
  | [] => [(k, v)]
  | m :: ms => if m.1 = k then (k, v) :: ms else m :: setMember k v ms

/-- The members of an object written as the list `ms`, where the last of
several members of one name counts, in the place of the first. -/
def ofMembers (ms : Members) : Json :=
  .obj (ms.foldl (fun acc m => setMember m.1 m.2 acc) [])

def lookup (k : String) : Members → Option Json
  | [] => none
  | m :: ms => if m.1 = k then some m.2 else lookup k ms

def member? (k : String) : Json → Option Json
  | .obj ms => lookup k ms
  | _ => none

/-- A value that counts as a yes: anything but null, false, zero and what is
empty. -/
def isSet : Json → Bool
  | .null => false
  | .bool b => b
  | .int i => i != 0
  | .float x => x != 0
  | .str s => s != ""
  | .torn s => s != ""
  | .arr items => !items.isEmpty
  | .obj members => !members.isEmpty

end Json

end Obscura
