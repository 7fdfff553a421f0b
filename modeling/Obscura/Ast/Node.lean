import Obscura.Ast.Range

/-
  Nodes of a syntax tree. A tree is a JSON value of any shape, so asking a node
  for something may fail; each question says how.
-/

namespace Obscura.Json

/-- The member `k` of an object, null if it is missing. -/
def fieldOf (k : String) (ms : Members) : Json :=
  (lookup k ms).getD .null

/-- The member `k`, null if it is missing. Only objects have members. -/
def field (v : Json) (k : String) : Except Fault Json :=
  match v with
  | .obj ms => .ok (fieldOf k ms)
  | _ => .error .notObject

def need (v : Json) (k : String) : Except Fault Json :=
  match v with
  | .obj ms =>
    match lookup k ms with
    | some w => .ok w
    | none => .error (.memberMissing k)
  | _ => .error .wrongKind

theorem need_ok {ms : Members} {k : String} {v : Json} (h : (Json.obj ms).need k = .ok v) :
    fieldOf k ms = v := by
  rw [need.eq_def] at h
  dsimp only at h
  split at h
  · rename_i w hw
    cases h
    rw [fieldOf, hw]
    rfl
  · cases h

/-- The first of two values that counts as a yes, else the second. -/
def orElse (a b : Json) : Json :=
  if a.isSet then a else b

def text? : Json → Option Chars
  | .str s => some s.toList
  | _ => none

/-- The characters of a string, with stand-ins for halves. -/
def characters : Json → Except Fault Chars
  | .str s => .ok s.toList
  | .torn s => .ok s.toList
  | _ => .error .wrongKind

def isText (s : String) : Json → Bool
  | .str t => t == s
  | _ => false

/-- What a loop over the value goes through: the items of an array, the names of
the members of an object, the characters of a string. -/
def loopItems : Json → Except Fault (List Json)
  | .arr items => .ok items
  | .obj members => .ok (members.map fun m => .str m.1)
  | .str s => .ok (s.toList.map fun c => .str (String.singleton c))
  | .torn s => .ok (s.toList.map fun c => .torn (String.singleton c))
  | _ => .error .wrongKind

/-! ## Values as keys -/

open Number

inductive Key where
  | null
  | whole (i : Int)
  | real (b : Binary)
  | text (s : String)
  | torn (s : String)
deriving Repr, DecidableEq

/-- The key of a floating-point number; whole numbers are such also here. -/
def Key.ofBinary (b : Binary) : Key :=
  match b with
  | .finite negative m q =>
    let r := Ratio.scaled m q
    if r.num % r.den = 0 then
      let n : Int := (r.num / r.den : Nat)
      .whole (if negative then -n else n)
    else .real b
  | b => .real b

/-- The value of a number as a quotient; an infinite one has the divisor
zero. -/
def Key.quotient? : Key → Option (Int × Nat)
  | .whole i => some (i, 1)
  | .real (.finite negative m q) =>
    let r := Ratio.scaled m q
    some (if negative then -(r.num : Int) else r.num, r.den)
  | .real (.infinite negative) => some (if negative then -1 else 1, 0)
  | _ => none

def key : Json → Except Fault Key
  | .null => .ok .null
  | .bool b => .ok (.whole (if b then 1 else 0))
  | .int i => .ok (.whole i)
  | .float x => .ok (.ofBinary (Binary.ofFloat x))
  | .str s => .ok (.text s)
  | .torn s => .ok (.torn s)
  | .arr _ => .error .wrongKind
  | .obj _ => .error .wrongKind

end Obscura.Json
