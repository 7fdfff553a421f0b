import Obscura.Draws
import Obscura.Layout.Comment
import Obscura.Literal.Lexeme
import Obscura.Number.Whole

/-
  Truth values in disguise: twelve families of formulas that hold and twelve that
  do not hold, with drawn numbers in them.
-/

namespace Obscura.Literal

/-! ## Formulas -/

open Number

inductive Operation where
  | add | sub | mul | div | mod | shiftLeft | shiftRight | and | or | xor
deriving Repr, DecidableEq

def Operation.sign : Operation → Chars
  | .add => " + ".toList
  | .sub => " - ".toList
  | .mul => " * ".toList
  | .div => " / ".toList
  | .mod => " % ".toList
  | .shiftLeft => " << ".toList
  | .shiftRight => " >> ".toList
  | .and => " & ".toList
  | .or => " | ".toList
  | .xor => " ^ ".toList

/-- An arithmetic term. `padded` puts a space before a term. -/
inductive Term where
  | num (i : Int)
  | op (o : Operation) (a b : Term)
  | group (a : Term)
  | padded (a : Term)
deriving Repr, DecidableEq

def Term.text : Term → Chars
  | .num i => render i
  | .op o a b => a.text ++ o.sign ++ b.text
  | .group a => '(' :: (a.text ++ [')'])
  | .padded a => ' ' :: a.text

inductive Comparison where
  | eq | ge | lt | gt
deriving Repr, DecidableEq

def Comparison.sign : Comparison → Chars
  | .eq => " == ".toList
  | .ge => " >= ".toList
  | .lt => " < ".toList
  | .gt => " > ".toList

inductive Formula where
  | compare (o : Comparison) (a b : Term)
  | both (a b : Formula)
  | either (a b : Formula)
  | group (a : Formula)
deriving Repr, DecidableEq

def Formula.text : Formula → Chars
  | .compare o a b => a.text ++ o.sign ++ b.text
  | .both a b => a.text ++ " && ".toList ++ b.text
  | .either a b => a.text ++ " || ".toList ++ b.text
  | .group a => '(' :: (a.text ++ [')'])

def grouped (o : Operation) (a b : Term) : Term :=
  .group (.op o a b)

def compared (o : Comparison) (a b : Term) : Formula :=
  .group (.compare o a b)

/-! ## Formulas of a value -/

open Sampled

def upToDraw (n : Nat) : Sampled Int := do
  return ((← below n) + 1 : Nat)

/-- `((a + b) == s)` -/
def sumIs (a b s : Int) : Formula :=
  compared .eq (grouped .add (.num a) (.num b)) (.num s)

/-- `((a * b) >= p)` -/
def productReaches (a b p : Int) : Formula :=
  compared .ge (grouped .mul (.num a) (.num b)) (.num p)

/-- `((a % b) < b)` -/
def remainderBelow (a b : Int) : Formula :=
  compared .lt (grouped .mod (.num a) (.num b)) (.num b)

/-- `((a % b) > b)` -/
def remainderAbove (a b : Int) : Formula :=
  compared .gt (grouped .mod (.num a) (.num b)) (.num b)

/-- `((a o a) == v)` -/
def selfIs (o : Operation) (a v : Int) : Formula :=
  compared .eq (grouped o (.num a) (.num a)) (.num v)

/-- `(((a << 1) >> 1) == v)` -/
def shiftedBackIs (a v : Int) : Formula :=
  compared .eq (grouped .shiftRight (grouped .shiftLeft (.num a) (.num 1)) (.num 1)) (.num v)

/-- `((sum && product) || remainder)`, the formula that most families build on. -/
def triple (s p r : Formula) : Formula :=
  .either (.group (.both s p)) r

/-- Sum, product and remainder of `a` and `b`, all as they are. -/
def evident (a b : Int) : Formula :=
  triple (sumIs a b (a + b)) (productReaches a b (a * b)) (remainderBelow a b)

/-- Sum and product missed by `i` and `j`, and a remainder that is too large. -/
def absurdity (a b i j : Int) : Formula :=
  triple (sumIs a b (a + b + i)) (productReaches a b (a * b + j)) (remainderAbove a b)

def doubled (f : Formula) : Formula :=
  .group (.group f)

/-- `((f) && (g))` -/
def bothGrouped (f g : Formula) : Formula :=
  .group (.both (.group f) (.group g))

/-- `((f) || (g))` -/
def eitherGrouped (f g : Formula) : Formula :=
  .group (.either (.group f) (.group g))

def trueFormula : Sampled Formula := do
  match ← below 12 with
  | 0 =>
    let a ← upToDraw 8
    let b ← upToDraw 12
    return doubled (evident a b)
  | 1 =>
    let a ← upToDraw 12
    let b ← upToDraw 8
    let less := compared .eq (grouped .sub (.num a) (.num b)) (.num (a - b))
    let more := compared .gt (grouped .add (grouped .mod (.num a) (.num b)) (.num b)) (.num (a - b))
    let back := compared .eq (grouped .div (grouped .mul (.num a) (.num b)) (.num b)) (.num a)
    return .group (triple less more back)
  | 2 =>
    let a ← upToDraw 8
    let b := a + 1
    return .group (triple (shiftedBackIs a a) (selfIs .and a a)
      (.group (compared .ge (grouped .or (.num a) (.num b)) (.num b))))
  | 3 =>
    let a ← upToDraw 20
    let b ← upToDraw 12
    let divides := compared .eq (grouped .mod (grouped .mul (.num a) (.num b)) (.num b)) (.num 0)
    return .group (.both divides (.group (.either (sumIs a b (a + b)) (selfIs .xor a 0))))
  | 4 =>
    let a ← upToDraw 8
    let b ← upToDraw 12
    let c ← upToDraw 20
    let sum := compared .eq (grouped .add (.padded (.num a)) (.num b)) (.num (a + b))
    let product := compared .ge (grouped .sub (grouped .mul (.num b) (.num c)) (.num b))
      (grouped .sub (.op .mul (.num b) (.num c)) (.num b))
    return .group (.both (.group (triple sum product (.group (remainderBelow c a))))
      (selfIs .and a a))
  | 5 =>
    let a ← upToDraw 12
    let b ← upToDraw 8
    return eitherGrouped (doubled (evident a b)) (selfIs .and b b)
  | 6 =>
    let a ← upToDraw 12
    let b := (← upToDraw 12) + 1
    return eitherGrouped (doubled (evident a b)) (doubled (evident b a))
  | 7 =>
    let a ← upToDraw 20
    let b ← upToDraw 8
    let back := compared .eq (grouped .sub (.op .add (.num a) (.num b)) (.num b)) (.num a)
    return bothGrouped (doubled (evident a b)) back
  | 8 =>
    let a ← upToDraw 12
    let b ← upToDraw 8
    let divides := compared .eq (grouped .mod (.num a) (.num b)) (.num 0)
    return .group (.both (.group (.either divides (shiftedBackIs a a)))
      (.group (sumIs a b (a + b))))
  | 9 =>
    let a ← upToDraw 8
    let b ← upToDraw 12
    let c := (← upToDraw 8) + 2
    return .group (triple (sumIs a b (a + b)) (productReaches b c (b * c)) (remainderBelow c a))
  | 10 =>
    let a ← upToDraw 20
    let b ← upToDraw 12
    return doubled (.either (selfIs .xor a 0) (.group (sumIs a b (a + b))))
  | _ =>
    let a ← upToDraw 8
    let b ← upToDraw 12
    return .group (evident a b)

def falseFormula : Sampled Formula := do
  match ← below 12 with
  | 0 =>
    let a ← upToDraw 12
    let half := compared .eq (grouped .div (grouped .mul (.num a) (.num 2)) (.num 2)) (.num a)
    return .group (.both (sumIs a 1 a) half)
  | 1 =>
    let a ← upToDraw 8
    let b ← upToDraw 12
    return doubled (absurdity a b 1 1)
  | 2 =>
    let a ← upToDraw 20
    let _ ← upToDraw 12
    return shiftedBackIs a (a + 1)
  | 3 =>
    let a ← upToDraw 12
    let b ← upToDraw 8
    return compared .eq (grouped .mod (grouped .mul (.num a) (.num b)) (.num b)) (.num 1)
  | 4 =>
    let a ← upToDraw 8
    let _ ← upToDraw 12
    return bothGrouped (sumIs a 1 a) (← trueFormula)
  | 5 =>
    let a ← upToDraw 20
    let square := grouped .mul (.num a) (.num a)
    return doubled (.both (compared .eq (grouped .add square (.num 1)) square)
      (.group (selfIs .xor a 1)))
  | 6 =>
    let a ← upToDraw 12
    let b := (← upToDraw 12) + 1
    return bothGrouped (doubled (absurdity a b 2 3)) (doubled (absurdity b a 1 1))
  | 7 =>
    let a ← upToDraw 8
    let b ← upToDraw 12
    let c ← upToDraw 20
    return .group (.either (selfIs .and a (a + 1)) (.group (sumIs b c (b + c + 1))))
  | 8 =>
    let a ← upToDraw 12
    return .group (.both (compared .eq (grouped .mod (.num a) (.num (a + 1))) (.num a))
      (sumIs a 1 a))
  | 9 =>
    let a ← upToDraw 8
    let b := (← upToDraw 8) + 1
    return .group (.both (compared .eq (grouped .mul (.num a) (.num b)) (.num (a * b + 1)))
      (selfIs .and b b))
  | 10 =>
    let a ← upToDraw 12
    let b ← upToDraw 20
    return .group (compared .eq (grouped .sub (.num a) (.num b)) (.num (a - b + 1)))
  | _ =>
    let a ← upToDraw 8
    let b ← upToDraw 12
    let product := grouped .mul (.num a) (.num b)
    return .group (.either (compared .eq (grouped .add product (.num 1)) product)
      (.group (sumIs a b (a + b + 2))))

def truthFormula (value : Bool) : Sampled Formula :=
  if value then trueFormula else falseFormula

/-! ## Truth values in a text -/

open Text Layout

inductive Origin where
  | text
  | tree
deriving Repr, DecidableEq

/-- A literal that was swapped for a formula. Its place counts characters if it
was found in the text, and bytes if it was found in the tree. -/
structure Swap where
  start : Nat
  stop : Nat
  literal : Chars
  replacement : Chars
  origin : Origin
deriving Repr, DecidableEq

def shielded (s : Chars) : List Bool :=
  orMarks (orMarks (marks (fun t => (block? t).map (·.2)) s) (marks (fun t => (line? t).map (·.2)) s))
    (marks afterQuoted? s)

def truthWord? (w : Chars) : Option Bool :=
  if w = "true".toList then some true
  else if w = "false".toList then some false
  else none

/-- The swaps of the truth values from the position `p` on; `shield` marks what is not
to be touched. -/
def drawTruths (p : Nat) (shield : List Bool) : List Chunk → Sampled (List Swap)
  | [] => return []
  | .mark _ :: cs => drawTruths (p + 1) (shield.drop 1) cs
  | .word w :: cs =>
    let rest := drawTruths (p + w.length) (shield.drop w.length) cs
    match truthWord? w with
    | some b =>
      if (shield.take w.length).any id then rest
      else do
        let f := (← truthFormula b).text
        return ⟨p, p + w.length, w, f, .text⟩ :: (← rest)
    | none => rest

def swapTruths (s : Chars) : Sampled (Chars × List Swap) := do
  let ops ← drawTruths 0 (shielded s) (chunks s)
  return (ops.reverse.foldl (fun t o => bracket t o.start o.stop o.replacement) s, ops)

end Obscura.Literal
