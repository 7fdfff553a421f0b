import Obscura.Number.Whole

/-
  Binary floating-point numbers as text. A finite number is `m · 2^q` with whole
  `m` and `q`, so its text is found in exact whole-number arithmetic: either the
  fewest digits that read back to it, or a fixed number of decimal places.
-/

namespace Obscura.Number

inductive Binary where
  | finite (negative : Bool) (m : Nat) (q : Int)
  | infinite (negative : Bool)
  | nan
deriving Repr, DecidableEq

def Binary.ofFloat (x : Float) : Binary :=
  let bits := x.toBits.toNat
  let negative := bits / Nat.pow 2 63 == 1
  let exponent : Nat := bits / Nat.pow 2 52 % 2048
  let fraction : Nat := bits % Nat.pow 2 52
  if exponent = 2047 then
    if fraction = 0 then .infinite negative else .nan
  else if exponent = 0 then .finite negative fraction (-1074)
  else .finite negative (Nat.pow 2 52 + fraction) ((exponent : Int) - 1075)

structure Ratio where
  num : Nat
  den : Nat
deriving Repr, DecidableEq

namespace Ratio

def le (a b : Ratio) : Bool := a.num * b.den ≤ b.num * a.den

def lt (a b : Ratio) : Bool := a.num * b.den < b.num * a.den

def scaled (m : Nat) (q : Int) : Ratio :=
  if 0 ≤ q then ⟨m * Nat.pow 2 q.toNat, 1⟩ else ⟨m, Nat.pow 2 (-q).toNat⟩

def decimal (d : Nat) (e : Int) : Ratio :=
  if 0 ≤ e then ⟨d * Nat.pow 10 e.toNat, 1⟩ else ⟨d, Nat.pow 10 (-e).toNat⟩

def floorAt (r : Ratio) (e : Int) : Nat :=
  if 0 ≤ e then r.num / (r.den * Nat.pow 10 e.toNat) else r.num * Nat.pow 10 (-e).toNat / r.den

def dist (a b : Ratio) : Ratio :=
  ⟨(a.num * b.den - b.num * a.den) + (b.num * a.den - a.num * b.den), a.den * b.den⟩

/-- `r · 10^places` rounded to the nearest whole number, a half to the even
neighbour. -/
def roundAt (r : Ratio) (places : Nat) : Nat :=
  let n := r.num * Nat.pow 10 places
  let d := n / r.den
  let twice := 2 * (n % r.den)
  if twice < r.den then d
  else if r.den < twice then d + 1
  else if d % 2 = 0 then d else d + 1

end Ratio

/-- The reals that round to a number lie between `low` and `high`; the ends
belong to them if `closed`. -/
structure Reach where
  low : Ratio
  high : Ratio
  closed : Bool

def Reach.of (m : Nat) (q : Int) : Reach where
  low := if m = Nat.pow 2 52 ∧ -1074 < q then .scaled (4 * m - 1) (q - 2) else .scaled (2 * m - 1) (q - 1)
  high := .scaled (2 * m + 1) (q - 1)
  closed := m % 2 = 0

def Reach.holds (i : Reach) (r : Ratio) : Bool :=
  if i.closed then i.low.le r && r.le i.high else i.low.lt r && r.lt i.high

/-- The whole numbers beside `v / 10^e` that read back, the nearer one first;
of two as near, the even one. -/
def candidate? (i : Reach) (v : Ratio) (e : Int) : Option Nat :=
  let d := v.floorAt e
  let below := i.holds (.decimal d e) && 0 < d
  let above := i.holds (.decimal (d + 1) e)
  if below && above then
    let x := v.dist (.decimal d e)
    let y := v.dist (.decimal (d + 1) e)
    if x.lt y then some d else if y.lt x then some (d + 1)
    else if d % 2 = 0 then some d else some (d + 1)
  else if below then some d
  else if above then some (d + 1)
  else none

/-- The exponent `e` of the power of ten with `10^(e-1) ≤ v < 10^e`, searched
downwards from `e`. -/
def magnitude (v : Ratio) : Nat → Int → Int
  | 0, e => e
  | fuel + 1, e => if (Ratio.decimal 1 (e - 1)).le v then e else magnitude v fuel (e - 1)

/-- The coarsest decimal grid with a number that reads back, tried from the
digit count `n` on; seventeen digits always read back. -/
def shortestFrom (i : Reach) (v : Ratio) (top : Int) : Nat → Nat → Nat × Int
  | 0, n => (v.floorAt (top - n), top - n)
  | fuel + 1, n =>
    match candidate? i v (top - n) with
    | some d => (d, top - n)
    | none => shortestFrom i v top fuel (n + 1)

/-- Digits `d` and exponent `e` of the shortest `d · 10^e` that reads back to
`m · 2^q`. -/
def shortest (m : Nat) (q : Int) : Nat × Int :=
  let v := Ratio.scaled m q
  shortestFrom (.of m q) v (magnitude v 700 310) 17 1

def dropZeros (ds : Chars) : Chars :=
  (ds.reverse.dropWhile (· == '0')).reverse

def exponentText (e : Int) : Chars :=
  let ds := digits e.natAbs
  (if e < 0 then '-' else '+') :: (if ds.length < 2 then '0' :: ds else ds)

/-- The digits `ds`, with the point `point` places behind their start: written
out while the point stands at most sixteen places behind the first digit and
fewer than four before it, else with an exponent. -/
def layoutDigits (ds : Chars) (point : Int) : Chars :=
  if -4 < point ∧ point ≤ 16 then
    if point ≤ 0 then '0' :: '.' :: (List.replicate (-point).toNat '0' ++ ds)
    else if ds.length ≤ point.toNat then
      ds ++ List.replicate (point.toNat - ds.length) '0' ++ ['.', '0']
    else ds.take point.toNat ++ '.' :: ds.drop point.toNat
  else
    match ds with
    | [] => []
    | d :: r =>
      d :: ((if r.isEmpty then [] else '.' :: r) ++ 'e' :: exponentText (point - 1))

/-- The fewest digits that read back, positional from 10^-4 up to 10^16. -/
def Binary.render : Binary → Chars
  | .nan => "nan".toList
  | .infinite negative => (if negative then "-inf" else "inf").toList
  | .finite negative m q =>
    let body :=
      if m = 0 then "0.0".toList
      else
        let (d, e) := shortest m q
        let ds := digits d
        layoutDigits (dropZeros ds) (ds.length + e)
    if negative then '-' :: body else body

def pointed (n places : Nat) : Chars :=
  if places = 0 then digits n
  else
    let ds := digits n
    let ds := List.replicate (places + 1 - ds.length) '0' ++ ds
    ds.take (ds.length - places) ++ '.' :: ds.drop (ds.length - places)

/-- A fixed number of decimal places, a half rounded to the even neighbour. -/
def Binary.fixed (places : Nat) : Binary → Chars
  | .nan => "nan".toList
  | .infinite negative => (if negative then "-inf" else "inf").toList
  | .finite negative m q =>
    let body := pointed ((Ratio.scaled m q).roundAt places) places
    if negative then '-' :: body else body

def ofDecimal (negative : Bool) (d : Nat) (e : Int) : Float :=
  let x := if e < 0 then Float.ofScientific d true (-e).toNat else Float.ofScientific d false e.toNat
  if negative then -x else x

end Obscura.Number
