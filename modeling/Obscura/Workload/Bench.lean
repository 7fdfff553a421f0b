import Obscura.Literal.BooleanTree
import Obscura.Literal.StaticTree
import Obscura.Pipeline.Stage
import Obscura.Workload.Texts

/-
  Benchmarks: each runs a pass on a text of a given size and gives something that
  depends on the result. They draw from counters, so that a run can be repeated.
-/

namespace Obscura.Workload

open Text Literal Pipeline

inductive Bench where
  | truths
  | comments
  | pipeline
  | flattening
  | layout
  | numbers
  | locals
  | predicates
  | inlining
  | grouping
  | tables
  | names
deriving Repr, DecidableEq

def Bench.all : List Bench :=
  [.truths, .comments, .pipeline, .flattening, .layout, .numbers, .locals, .predicates,
    .inlining, .grouping, .tables, .names]

def Bench.name : Bench → String
  | .truths => "bench_boolean_obfuscator"
  | .comments => "bench_comment_removal"
  | .pipeline => "bench_demo_pipeline"
  | .flattening => "bench_flattening"
  | .layout => "bench_format_scrambler"
  | .numbers => "bench_integer_obfuscator"
  | .locals => "bench_local_state_obfuscator"
  | .predicates => "bench_opaque_predicates"
  | .inlining => "bench_preprocessing"
  | .grouping => "bench_scalar_splitter"
  | .tables => "bench_static_data_obfuscator"
  | .names => "bench_variable_renamer"

def Bench.unit : Bench → String
  | .truths | .numbers => "n_lines"
  | .pipeline => "n_runs"
  | .locals => "n_extra_locals"
  | .grouping => "n_extra_vars"
  | .names => "n_nodes"
  | _ => "n_copies"

def Bench.sizes : Bench → List Nat
  | .truths => [40, 150, 400]
  | .comments => [10, 30, 80]
  | .pipeline => [2, 4, 8]
  | .flattening | .predicates | .inlining => [8, 25, 70]
  | .layout => [10, 40, 120]
  | .numbers => [150, 600, 2000]
  | .locals => [15, 50, 180]
  | .grouping => [15, 60, 200]
  | .tables => [10, 30, 100]
  | .names => [200, 800, 3000]

/-! ## Sessions -/

def sessionWith (tree : Json) (n : Nat) (draws : Draws) : Session where
  draws := draws
  compiler := { answers := List.replicate n (some fun path => [(path, some tree)]) }

def lengthAndCount (r : Chars × Nat) : Json :=
  .arr [.int r.1.length, .int r.2]

def onCopies (n : Nat) (pass : Chars → Run (Chars × Nat)) : Run Json := do
  let results ← (List.replicate n sample).mapM pass
  return .arr (results.map lengthAndCount)

/-! ## Benchmarks of one pass -/

def usualStart : Nat := 99

def benchTruths (n : Nat) : Run Json := do
  let text := truthsText n
  let (out, ops) ← Run.sample (swapTruths text)
  let path := "b.sol"
  Run.writeText path text
  let (out', ops') ← swapTruthsInFile path defaultVersion true
  return .arr [.int out.length, .int ops.length, .int out'.length, .int ops'.length]

def benchComments (n : Nat) : Run Json := do
  return .str (String.ofList (← Layout.uncomment (some (manySamples n)) none))

def benchLayout (n : Nat) : Run Json := do
  let out ← Run.ofExcept ((Layout.scramble {} (manySamples n)).mapError Fault.ofTemplate)
  return .str (String.ofList out)

/-- Draws that take the ways to write a number in turn and fill each with its least
numbers, enough for three numbers. -/
def evenHand : List Nat := [0, 0, 0, 1, 0, 0, 2, 0, 0, 0]

def benchNumbers (n : Nat) : Run Json := do
  return .str (String.ofList (← Run.sample (disguiseIntegers (numbersText n))))

def benchTables (n : Nat) : Run Json := do
  let text := manySamples n ++ "\nbytes h = 0xDEAD;\n".toList
  let out := tabulate (text.flatMap fun c => if c = '\n' then ['\r', '\n'] else [c])
  let literals ← Run.ofExcept (treeLiterals sampleTree)
  return .arr [.int out.length, .str (String.ofList (out.take 200)), .int literals.length]

def benchGrouping (n : Nat) : Run Json := do
  let tree ← Run.ofExcept (stateTree n)
  return lengthAndCount (← Run.ofExcept (Storage.groupScalars (stateText n) tree))

def benchLocals (n : Nat) : Run Json := do
  let tree ← Run.ofExcept (localsTree n)
  return lengthAndCount (← Run.ofExcept (Storage.promoteLocals (localsText n) tree))

def benchPredicates (n : Nat) : Run Json :=
  onCopies n fun source => do
    let c ← Run.sample Flow.Chaotic.draw
    Flow.obscureConditions c defaultVersion source

def benchNames (n : Nat) : Run Json := do
  let path := "names.json"
  Run.writeText path (Json.print .line (namesTree n))
  let (table, text) ← Rename.renameByTree {} [] namesText (some path)
  return .arr [.int (← Run.ofExcept text).length, .int table.length, .int table.length]

/-! ## The benchmark of all passes -/

/-- The counters of the passes that draw, each with a counter of its own. -/
structure Counters where
  predicates : Draws
  flattening : Draws
  truths : Draws
  integers : Draws

/-- Run a stage with a counter of its own; gives the counter behind it. -/
def withDraws (d : Draws) (s : Stage) (p : Progress) : Run (Progress × Draws) := do
  modifyThe Session fun s => { s with draws := d }
  let p ← s.run p
  return (p, (← getThe Session).draws)

def allStages (source : Chars) (c : Counters) : Run (Nat × Counters) := do
  let version ← detectVersion source
  let p : Progress := ⟨source, stepTreePath 0, 0, version⟩
  let _ ← regenerate source (stepPath 0) p.treePath version
  let p ← inlining.run p
  let (p, predicates) ← withDraws c.predicates Pipeline.predicates p
  let (p, flattening) ← withDraws c.flattening Pipeline.flattening p
  let p ← tables.run (← promotion.run p)
  let (p, truths) ← withDraws c.truths Pipeline.truths p
  let (p, integers) ← withDraws c.integers Pipeline.integers p
  let p ← newNames.run (← scrambling.run (← uncommenting.run (← grouping.run p)))
  return (p.source.length, ⟨predicates, flattening, truths, integers⟩)

def longSample : Chars :=
  sample ++ '\n' :: manySamples 5

def pipelineStart : Draws := .counter 21

def pipelineRuns (c : Counters) : Nat → Run (List Json)
  | 0 => return []
  | n + 1 => do
    let (length, c') ← allStages longSample c
    return .int length :: (← pipelineRuns c' n)

def benchPipeline (n : Nat) : Run Json := do
  return .arr (← pipelineRuns ⟨pipelineStart, pipelineStart, pipelineStart, pipelineStart⟩ n)

/-! ## Running -/

def Bench.session (b : Bench) (n : Nat) : Except Fault Session :=
  match b with
  | .truths => do return sessionWith (← truthsTree n) 1 (.counter usualStart)
  | .numbers => .ok { draws := .stream (List.replicate (4 * n) evenHand).flatten 0 }
  | .flattening | .predicates => .ok (sessionWith sampleTree n (.counter usualStart))
  | .inlining => .ok (sessionWith sampleTree (2 * n) (.counter usualStart))
  | .pipeline => .ok (sessionWith sampleTree (16 * n) pipelineStart)
  | _ => .ok {}

def Bench.work (b : Bench) (n : Nat) : Run Json :=
  match b with
  | .truths => benchTruths n
  | .comments => benchComments n
  | .pipeline => benchPipeline n
  | .flattening => onCopies n Flow.flatten
  | .layout => benchLayout n
  | .numbers => benchNumbers n
  | .locals => benchLocals n
  | .predicates => benchPredicates n
  | .inlining => onCopies n Flow.inlineAll
  | .grouping => benchGrouping n
  | .tables => benchTables n
  | .names => benchNames n

def Bench.run (b : Bench) (n : Nat) : Except Fault Json := do
  let s ← b.session n
  (b.work n s).1

/-- The results of a benchmark that is run more than once. Each run starts
afresh, so they are the same. -/
def Bench.runMany (b : Bench) (n times : Nat) : Except Fault (List Json) :=
  (List.replicate times ()).mapM fun _ => b.run n

end Obscura.Workload
