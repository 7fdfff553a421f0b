import Obscura.Measure.Check
import Obscura.Session
import Obscura.Text.Word

/-
  The report of one round of measurement: coverage, the errors of benchmarks, the
  shares of the measured code, changes to files that are not to be touched, the
  self-checks, and whether to go on. The round is kept for the next one.

  The figures come from child processes. Of each only its end is known here; the
  first one has to succeed, the others are left out of the report when they do not
  say what they should.
-/

namespace Obscura.Measure

/-! ## Coverage -/

open Text

structure CoverageRow where
  name : String
  statements : Float
  missed : Float
  percent : Float
  lines : List Json

def nameRoom : Nat := 60

def lineRoom : Nat := 12

def innerPath (path : String) : String :=
  match stripFront? "/repo/".toList path.toList with
  | some rest => String.ofList rest
  | none => path

def CoverageRow.of (path : String) (v : Json) : CoverageRow :=
  let summary := (v.member? "summary").getD (.obj [])
  { name := String.ofList ((innerPath path).toList.take nameRoom)
    statements := numberOf "num_statements" summary
    missed := numberOf "missing_lines" summary
    percent := numberOf "percent_covered" summary
    lines := match v.member? "missing_lines" with
      | some (.arr ls) => ls
      | _ => [] }

/-- The row stands before another one: it is covered less, or as much and misses
no fewer statements. -/
def CoverageRow.precedes (a b : CoverageRow) : Bool :=
  a.percent < b.percent || (a.percent == b.percent && b.missed ≤ a.missed)

def coverageRows (report : Json) : List CoverageRow :=
  match report.member? "files" with
  | some (.obj ms) => (ms.map fun m => CoverageRow.of m.1 m.2).mergeSort CoverageRow.precedes
  | _ => []

def linesText (ls : List Json) : String :=
  let texts := (ls.take lineRoom).map fun l => match l with
    | .int i => String.ofList (Number.render i)
    | .str s => s
    | _ => ""
  ",".intercalate texts ++ (if lineRoom < ls.length then "…" else "")

def figures (statements missed percent : Float) : String :=
  "  " ++ atRight 5 (fixedText 0 statements) ++ "  " ++ atRight 4 (fixedText 0 missed)
    ++ "  " ++ atRight 4 (fixedText 0 percent) ++ "%"

structure CoverageTotal where
  statements : Json
  covered : Json
  percent : Json

def CoverageTotal.of (report : Json) : CoverageTotal :=
  let totals := (report.member? "totals").getD (.obj [])
  let field := fun k => (totals.member? k).getD (.int 0)
  ⟨field "num_statements", field "covered_lines", field "percent_covered"⟩

def coverageTable (report : Json) : List String :=
  let rows := coverageRows report
  let width := rows.foldl (fun w r => max w r.name.length) 4
  let line := "".pushn '-' (width + 42)
  let total := CoverageTotal.of report
  let value := fun v => (number? v).getD 0
  [atLeft width "Name" ++ "  Stmts  Miss  Cover  Missing", line]
    ++ rows.map (fun r =>
      atLeft width r.name ++ figures r.statements r.missed r.percent ++ "  " ++ linesText r.lines)
    ++ [line, atLeft width "TOTAL" ++ figures (value total.statements)
      (value total.statements - value total.covered) (value total.percent)]

/-! ## Reports -/

structure Ended where
  code : Int
  output : Chars

/-- The child processes of a round, in the order in which they are started; one
that is missing does not end in time. -/
abbrev Children := List (Option Ended)

def coverageFile : String := "_pti_coverage.json"

def shareScript : String := "_pti_repotime.py"

def checkScript : String := "_pti_semcheck.py"

def benchFile : String := "microbench.py"

def roundFile : String := ".pti_checkpoint.jsonl"

def lastValue? (output : Chars) : Option Json :=
  match ((lines output).filter fun l => !l.all isBlank).getLast? with
  | none => none
  | some l => (Json.read l).toOption

def startsBench (l : Chars) : Bool :=
  match stripFront? "def bench_".toList l with
  | none => false
  | some rest =>
    let after := rest.dropWhile isWord
    (rest.head?.any isWord) && (after.dropWhile isBlank).head? = some '('

def benchCount (text : Chars) : Nat :=
  ((splitAt '\n' text).filter startsBench).length

/-- The paths that a status listing names, after two letters and a blank. -/
def changedPaths (listing : Chars) : List String :=
  ((lines listing).filter fun l => !l.all isBlank).map fun l => String.ofList (l.drop 3)

def benchErrors (report : Json) : Members :=
  match (report.member? "meta").bind (Json.member? "_pti_bench_errors") with
  | some (.obj ms) => ms
  | _ => []

def errorRoom : Nat := 8

def errorSection (es : Members) : List String :=
  (toString es.length ++ " bench error(s):") :: (es.take errorRoom).map fun e =>
    "  " ++ e.1 ++ ": " ++ (match e.2 with
      | .str s => s
      | v => fingerprint v)

def changeSection (paths : List String) : List String :=
  ("** repo modified (" ++ toString paths.length
    ++ " file(s)) — revert these; only microbench.py is yours to edit:")
    :: paths.map ("   " ++ ·)

def tellSection {α : Type} (items : List α) (section? : List α → List String) : Run Unit := do
  unless items.isEmpty do
    for l in section? items do
      Run.say l
    Run.say ""

structure Findings where
  total : CoverageTotal
  benches : Nat
  errors : Nat
  shares : List Share
  checks : List Finding

def Findings.low? (f : Findings) : Option Nat :=
  if f.shares.isEmpty then none else some (f.shares.filter Share.isLow).length

def Findings.toMend (f : Findings) : Nat :=
  (f.checks.filter (!·.verdict.passes)).length

def Findings.summary (f : Findings) (round : Nat) : String :=
  let shares := match f.low? with
    | none => ""
    | some n => ", " ++ toString n ++ "/"
      ++ toString (f.shares.filter (!·.failed)).length ++ " below repo_time 45%"
  let checks :=
    if f.checks.isEmpty then ""
    else ", " ++ toString f.toMend ++ "/" ++ toString f.checks.length ++ " not self-checking"
  "[round " ++ toString round ++ ": " ++ toString f.benches ++ " benches, "
    ++ fixedText 1 ((number? f.total.percent).getD 0) ++ "% covered" ++ shares ++ checks
    ++ ", measured in 0.0s]"

def Findings.record (f : Findings) (round : Nat) (waited : Float) : Json :=
  .obj [ ("ts", .float 0)
       , ("round", .int round)
       , ("coverage_pct", f.total.percent)
       , ("covered_lines", f.total.covered)
       , ("num_statements", f.total.statements)
       , ("n_bench_fns", .int f.benches)
       , ("n_bench_errors", .int f.errors)
       , ("repo_time_pct", .obj (f.shares.map fun s => (s.name, s.reported)))
       , ("n_below_repo_time", match f.low? with
          | none => .null
          | some n => .int n)
       , ("semcheck", .obj (f.checks.map fun c => (c.name, .str c.verdict.name)))
       , ("n_not_self_checking", .int f.toMend)
       , ("cov_measure_s", .float 0)
       , ("wall_since_prev_s", .float waited) ]

/-- The time since the last round; the clock is at zero. -/
def sinceLast (past : List Json) : Float :=
  match past.getLast? with
  | none => 0
  | some r => 0 - numberOf "ts" r

def textOr (path : String) : Run Chars := do
  if (← Run.files).exist path then Run.readText path else return []

def takeShares (children : Children) : Run (List Share × Children) := do
  if (← Run.files).exist shareScript then
    let found := match children.head?.join with
      | some e => ((lastValue? e.output).bind shares?).getD []
      | none => []
    return (found, children.drop 1)
  return ([], children)

/-- The changed paths and the self-checks that the last two children report. -/
def takeChecks (children : Children) : Run (List String × List Finding) := do
  if (← Run.files).exist checkScript then
    let paths := match children.head?.join with
      | some e => changedPaths e.output
      | none => []
    let found := match (children.drop 1).head?.join with
      | some e => match (lastValue? e.output).bind (Json.member? "semcheck") with
        | some (.obj ms) => (findings? (!paths.isEmpty) ms).getD []
        | _ => []
      | none => []
    return (paths, found)
  return ([], [])

def report (children : Children) : Run Unit := do
  let coverage ← Run.ofExcept ((Json.read (← Run.readText coverageFile)).mapError Fault.ofJson)
  let (shares, rest) ← takeShares children
  let (paths, checks) ← takeChecks rest
  let found : Findings :=
    { total := CoverageTotal.of coverage
      benches := benchCount (← textOr benchFile)
      errors := (benchErrors coverage).length
      shares := shares
      checks := checks }
  let kept ← textOr roundFile
  let past ← Run.ofExcept (rounds kept)
  let round := past.length + 1
  for l in coverageTable coverage do
    Run.say l
  Run.say ""
  tellSection (benchErrors coverage) errorSection
  tellSection shares shareSection
  tellSection paths changeSection
  tellSection checks checkSection
  Run.say (found.summary round)
  Run.writeText roundFile
    (kept ++ Json.print .line (found.record round (sinceLast past)) ++ ['\n'])
  let counts := lowCounts past ++ found.low?.toList.map Int.ofNat
  match stopReason? found.low? counts with
  | none => pure ()
  | some why =>
    Run.say ""
    Run.say (">>> STOP: repo_time converged (" ++ why ++ "). Finalize microbench.py now. <<<")

/-- The exit code of a round that failed with a child: that of the child, and one
for a child that itself ended well. -/
def Ended.failure (e : Ended) : Int :=
  if e.code = 0 then 1 else e.code

def Ended.covered (e : Ended) : Run Bool := do
  return e.code = 0 && (← Run.files).exist coverageFile

/-- One round of measurement; answers the exit code. Without coverage there is
nothing to report. -/
def measure (children : Children) : Run Int :=
  match children.head?.join with
  | none => throw .timedOut
  | some first => do
    if ← first.covered then
      report (children.drop 1)
      return 0
    else
      Run.say ("coverage measurement failed (exit " ++ toString first.code ++ ")")
      Run.put first.output
      Run.say ""
      return first.failure

end Obscura.Measure
