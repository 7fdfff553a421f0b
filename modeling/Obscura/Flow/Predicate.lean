import Obscura.Draws
import Obscura.Number.Whole

/-
  Opaque predicates: conditions that always hold and do not look so. A helper
  function hashes a state variable and folds the hash into a narrow range; the
  condition asks for something that is true on all of this range. Helper and
  condition are expressions here, and their text is written from them.
-/

namespace Obscura.Flow

open Number

/-- What the helper promises: a value above ten, a value below minus ten, or an
even value. -/
inductive Variant where
  | positive
  | negative
  | even
deriving Repr, DecidableEq

structure Chaotic where
  stateName : Chars
  helperName : Chars
  initial : Nat
  variant : Variant

def Chaotic.draw : Sampled Chaotic := do
  let s ← Sampled.between 1000 9999
  let h ← Sampled.between 1000 9999
  let initial ← Sampled.between 12345 99999
  let variant ← Sampled.pick Variant.positive [.negative, .even]
  return ⟨"cpm_x_".toList ++ digits s, "calculateCPM_".toList ++ digits h, initial, variant⟩

inductive Term where
  | hash
  | call
  | word (n : Nat)
  | neg (a : Term)
  | mod (a b : Term)
  | add (a b : Term)
  | sub (a b : Term)
  | mul (a b : Term)
  | group (a : Term)
deriving Repr, DecidableEq

inductive Test where
  | above (a b : Term)
  | below (a b : Term)
  | same (a b : Term)
deriving Repr, DecidableEq

def Variant.body : Variant → Term
  | .positive => .add (.mod .hash (.word 100)) (.word 20)
  | .negative => .sub (.group (.mod .hash (.word 100))) (.word 150)
  | .even => .mul (.group (.mod .hash (.word 50))) (.word 2)

def Variant.test : Variant → Test
  | .positive => .above .call (.word 10)
  | .negative => .below .call (.neg (.word 10))
  | .even => .same (.mod .call (.word 2)) (.word 0)

def Variant.title : Variant → Chars
  | .positive => "Positive".toList
  | .negative => "Negative".toList
  | .even => "Even".toList

def Term.text (c : Chaotic) : Term → Chars
  | .hash => "int256(uint256(keccak256(abi.encodePacked(val))))".toList
  | .call => c.helperName ++ '(' :: (c.stateName ++ [')'])
  | .word n => "int256(".toList ++ digits n ++ [')']
  | .neg a => '-' :: a.text c
  | .mod a b => a.text c ++ " % ".toList ++ b.text c
  | .add a b => a.text c ++ " + ".toList ++ b.text c
  | .sub a b => a.text c ++ " - ".toList ++ b.text c
  | .mul a b => a.text c ++ " * ".toList ++ b.text c
  | .group a => '(' :: (a.text c ++ [')'])

def Test.text (c : Chaotic) : Test → Chars
  | .above a b => '(' :: (a.text c ++ " > ".toList ++ b.text c ++ [')'])
  | .below a b => '(' :: (a.text c ++ " < ".toList ++ b.text c ++ [')'])
  | .same a b => '(' :: (a.text c ++ " == ".toList ++ b.text c ++ [')'])

namespace Chaotic

def declaration (c : Chaotic) : Chars :=
  "    int256 private ".toList ++ c.stateName ++ " = int256(".toList ++ digits c.initial ++ ");".toList

def function (c : Chaotic) : Chars :=
  "\n    function ".toList ++ c.helperName
    ++ "(int256 val) internal pure returns (int256) \x7b\n".toList
    ++ "        // BiAn Chaotic Map (CPM) - ".toList ++ c.variant.title ++ " Variant\n".toList
    ++ "        return ".toList ++ c.variant.body.text c ++ ";\n    \x7d".toList

def condition (c : Chaotic) : Chars :=
  c.variant.test.text c

end Chaotic

/-! ## Values -/

def signBit : Nat :=
  Nat.pow 2 255

def fits (i : Int) : Prop :=
  -(signBit : Int) ≤ i ∧ i < signBit

instance (i : Int) : Decidable (fits i) :=
  inferInstanceAs (Decidable (_ ∧ _))

def checked (i : Int) : Option Int :=
  if fits i then some i else none

def signed (h : Nat) : Int :=
  if h < signBit then (h : Int) else (h : Int) - 2 * signBit

/-- The value of an expression, given the hash and the value of the helper.
Remainders go toward zero, and there is none by zero. -/
def Term.eval (h : Nat) (helper : Option Int) : Term → Option Int
  | .hash => some (signed h)
  | .call => helper
  | .word n => checked n
  | .neg a => do checked (-(← a.eval h helper))
  | .mod a b => do
    let x ← a.eval h helper
    let y ← b.eval h helper
    if y = 0 then none else some (x.tmod y)
  | .add a b => do checked ((← a.eval h helper) + (← b.eval h helper))
  | .sub a b => do checked ((← a.eval h helper) - (← b.eval h helper))
  | .mul a b => do checked ((← a.eval h helper) * (← b.eval h helper))
  | .group a => a.eval h helper

def Test.eval (h : Nat) (helper : Option Int) : Test → Option Bool
  | .above a b => do return decide ((← b.eval h helper) < (← a.eval h helper))
  | .below a b => do return decide ((← a.eval h helper) < (← b.eval h helper))
  | .same a b => do return decide ((← a.eval h helper) = (← b.eval h helper))

def Variant.holds (v : Variant) (h : Nat) : Option Bool :=
  v.test.eval h (v.body.eval h none)

end Obscura.Flow
