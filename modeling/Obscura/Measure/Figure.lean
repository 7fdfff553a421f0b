import Obscura.Fault
import Obscura.Text.Lines

/-
  Figures of a report: numbers from JSON values, the columns they stand in, and
  the middle one of several.
-/

namespace Obscura.Measure

open Number

def number? : Json → Option Float
  | .int i => some (Float.ofInt i)
  | .float x => some x
  | _ => none

def numberOf (k : String) (v : Json) : Float :=
  ((v.member? k).bind number?).getD 0

def fixedText (places : Nat) (x : Float) : String :=
  String.ofList ((Binary.ofFloat x).fixed places)

def atLeft (width : Nat) (s : String) : String :=
  s.pushn ' ' (width - s.length)

def atRight (width : Nat) (s : String) : String :=
  "".pushn ' ' (width - s.length) ++ s

def insertNumber (x : Float) : List Float → List Float
  | [] => [x]
  | y :: ys => if x < y then x :: y :: ys else y :: insertNumber x ys

def median (xs : List Float) : Float :=
  let ys := xs.foldr insertNumber []
  let half := ys.length / 2
  if ys.length % 2 = 1 then ys.getD half 0
  else (ys.getD (half - 1) 0 + ys.getD half 0) / 2

def least : List Float → Float
  | [] => 0
  | x :: xs => xs.foldl (fun a b => if b < a then b else a) x

/-! ## Shares -/

structure Share where
  name : String
  percent : Float
  reported : Json
  elsewhere : List (Float × String)

def shareFloor : Float := 45

def Share.failed (s : Share) : Bool := s.percent < 0

def Share.isLow (s : Share) : Bool := !s.failed && s.percent < shareFloor

def elsewhereOf (v : Json) : List (Float × String) :=
  match v with
  | .arr xs => xs.filterMap fun x => match x with
    | .arr [p, .str m] => (number? p).map fun p => (p, m)
    | _ => none
  | _ => []

def shares? (report : Json) : Option (List Share) :=
  match report.member? "repo_time_pct" with
  | some (.obj ms) => ms.mapM fun m => do
    let p ← number? m.2
    let hot := ((report.member? "hot_ext").bind (Json.member? m.1)).getD .null
    return ⟨m.1, p, m.2, elsewhereOf hot⟩
  | _ => none

def hotRoom : Nat := 3

def Share.line (s : Share) : String :=
  "  " ++ (if s.isLow then "*" else " ") ++ " " ++ atLeft 32 s.name ++ " "
    ++ atRight 5 (fixedText 1 (if s.failed then 0 else s.percent)) ++ "%"
    ++ (if s.failed then "  <error>" else "")
    ++ (if s.isLow && !s.elsewhere.isEmpty then
        " (hot: " ++ " ".intercalate ((s.elsewhere.take hotRoom).map fun e =>
          e.2 ++ " " ++ fixedText 0 e.1 ++ "%") ++ ")"
      else "")

def shareSection (ss : List Share) : List String :=
  "repo_time (target 50%; * = below 45%):"
    :: ((ss.mergeSort fun a b => decide (a.percent ≤ b.percent)).map Share.line)

/-! ## Rounds -/

open Text

def rounds (text : Chars) : Except Fault (List Json) :=
  ((lines text).filter fun l => !l.all isBlank).mapM fun l =>
    (Json.read l).mapError Fault.ofJson

def lowCounts (past : List Json) : List Int :=
  past.filterMap fun r => match r.member? "n_below_repo_time" with
    | some (.int n) => some n
    | _ => none

def leastInt : List Int → Int
  | [] => 0
  | x :: xs => xs.foldl min x

def patience : Nat := 3

/-- The last rounds brought no fewer low shares than the ones before. -/
def stalled (counts : List Int) : Bool :=
  let before := counts.take (counts.length - patience)
  let last := counts.drop (counts.length - patience)
  !before.isEmpty && leastInt before ≤ leastInt last

/-- Why the rounds are over, if they are; `counts` ends with this round. -/
def stopReason? (low : Option Nat) (counts : List Int) : Option String :=
  match low with
  | none => none
  | some 0 => some "0 below"
  | some _ =>
    if stalled counts then
      some ("no improvement in " ++ toString patience ++ " rounds; best "
        ++ toString (leastInt counts) ++ " below")
    else none

end Obscura.Measure
