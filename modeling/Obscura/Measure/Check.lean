import Obscura.Json.Printer
import Obscura.Measure.Figure

/-
  Self-checks: whether the result of a benchmark says that its work was done. A
  result has to exist, to be the same each time, to come from the work rather than
  from the parameters, and to change with them; and the work has to be long enough
  and mostly that of the measured code.
-/

namespace Obscura.Measure

inductive Verdict where
  | ok
  | okUnparam
  | error
  | returnsNone
  | unstable
  | returnsInput
  | lowShare
  | tooFast
  | paramInvariant
  | modified
deriving Repr, DecidableEq

def Verdict.name : Verdict → String
  | .ok => "ok"
  | .okUnparam => "ok-unparam"
  | .error => "error"
  | .returnsNone => "returns-none"
  | .unstable => "unstable"
  | .returnsInput => "returns-input"
  | .lowShare => "low-repo-time"
  | .tooFast => "too-fast"
  | .paramInvariant => "param-invariant"
  | .modified => "repo-modified"

def Verdict.passes : Verdict → Bool
  | .ok | .okUnparam => true
  | _ => false

structure Observation where
  /-- The type of the result, or the error in angle brackets. -/
  type : Option String
  again : List String
  varied : List String
  given : List String
  times : List Float
  shares : List Float

/-- The values of an object under a name; without one there are none. -/
def valuesUnder (k : String) (v : Json) : Option (List Json) :=
  match v.member? k with
  | none => some []
  | some (.obj ms) => some (ms.map (·.2))
  | some _ => none

def itemsUnder (k : String) (v : Json) : Option (List Json) :=
  match v.member? k with
  | none => some []
  | some (.arr xs) => some xs
  | some _ => none

def fingerprint (v : Json) : String :=
  String.ofList (Json.print .line v)

def Observation.of? (v : Json) : Option Observation := do
  let times ← (← valuesUnder "repo_tt_ms" v).mapM number?
  let shares ← (← valuesUnder "repo_frac" v).mapM number?
  return {
    type := match v.member? "ret_type" with
      | some (.str s) => some s
      | _ => none
    again := (← itemsUnder "fp_stable" v).map fingerprint
    varied := (← valuesUnder "fp_by_param" v).map fingerprint
    given := (← itemsUnder "param_fps" v).map fingerprint
    times := times
    shares := shares }

def allSame : List String → Bool
  | [] => true
  | x :: xs => xs.all (· = x)

def shareTarget : Float := 0.5

def timeTarget : Float := 1.0

def Observation.verdict (o : Observation) : Verdict :=
  match o.type with
  | none => .error
  | some t =>
    if t.startsWith "<" then .error
    else if t = "NoneType" then .returnsNone
    else match o.again with
      | [] => .unstable
      | x :: xs =>
        if !xs.all (· = x) then .unstable
        else if o.given.contains x then .returnsInput
        else if !o.shares.isEmpty && least o.shares < shareTarget then .lowShare
        else if !o.times.isEmpty && median o.times < timeTarget then .tooFast
        else if o.varied.length < 2 then .okUnparam
        else if allSame o.varied then .paramInvariant
        else .ok

structure Finding where
  name : String
  seen : Observation
  verdict : Verdict

/-- The findings of a report. A benchmark of which no object is reported is left
out; one that cannot be read spoils the report. -/
def findings? (modified : Bool) : Members → Option (List Finding)
  | [] => some []
  | (name, .obj ms) :: rest => do
    let o ← Observation.of? (.obj ms)
    let fs ← findings? modified rest
    return ⟨name, o, if modified then .modified else o.verdict⟩ :: fs
  | _ :: rest => findings? modified rest

def Finding.line (f : Finding) : String :=
  "  " ++ (if f.verdict.passes then " " else "*") ++ " " ++ atLeft 32 f.name ++ " "
    ++ atLeft 16 f.verdict.name ++ " (" ++ f.seen.type.getD "?" ++ ", repo "
    ++ fixedText 0 (least f.seen.shares * 100) ++ "%) " ++ fixedText 1 (medianTime f) ++ "ms"
where
  medianTime (f : Finding) : Float :=
    if f.seen.times.isEmpty then 0 else median f.seen.times

def checkSection (fs : List Finding) : List String :=
  [ "self-check (* = fix needed):"
  , "  returns-none: run() has no return — collect and return the call results"
  , "  unstable: seed RNG in setup; avoid time/uuid/id in the return"
  , "  returns-input: return repo output, not the parameter value"
  , "  low-repo-time: <50% of run() time is in repo code — move glue to setup"
  , "  param-invariant: return something derived from run()'s work, not setup"
  , "  repo-modified: revert edits to repo files (git checkout -- <path>)" ]
  ++ (fs.filter (!·.verdict.passes)).map Finding.line
  ++ (fs.filter (·.verdict.passes)).map Finding.line

end Obscura.Measure
