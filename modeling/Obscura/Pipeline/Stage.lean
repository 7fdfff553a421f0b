import Obscura.Flow.Call
import Obscura.Flow.Flatten
import Obscura.Flow.Opaque
import Obscura.Layout.Scramble
import Obscura.Layout.Uncomment
import Obscura.Literal.Integer
import Obscura.Literal.StaticTable
import Obscura.Pipeline.Progress
import Obscura.Rename.Renamer
import Obscura.Storage.Promotion

/-
  Stages of a pipeline. A stage runs one pass on the text so far. If the pass
  fails, or changes nothing, the text stays as it is.
-/

namespace Obscura.Pipeline

open Obscura

structure Stage where
  title : String
  /-- Said before the pass, as part of it. -/
  opening : Option String := none
  pass : Progress → Run (Chars × Nat)
  /-- The new text is taken even if the pass counts no change. -/
  always : Bool := true
  done : Nat → String
  idle : String := ""
  /-- Said after a failure; without it a failure ends the pipeline. -/
  failed : Option String

def Stage.run (s : Stage) (p : Progress) : Run Progress := do
  match s.opening with
  | some line => Run.say line
  | none => pure ()
  match ← Run.attempt (s.pass p) with
  | .ok (text, n) =>
    if s.always || 0 < n then
      let p' ← advance p text s.title
      Run.say (s.done n)
      return p'
    else
      Run.say s.idle
      return p
  | .error f =>
    match s.failed with
    | some line =>
      Run.say line
      return p
    | none => throw f

def orReason (s : Stage) (reason : Option String) (p : Progress) : Run Progress :=
  match reason with
  | some line => do
    Run.say line
    return p
  | none => s.run p

/-! ## The stages -/

def inlining : Stage where
  title := "preprocessing"
  opening := some "[INFO] Running Pre-processing (Inlining)..."
  pass p := do
    Flow.setUp p.version
    Flow.inlineAll p.source
  done _ := "[OK] Pre-processing done."
  failed := some "[WARN] Pre-processing failed: <detail>"

def predicates : Stage where
  title := "opaque predicates"
  pass p := do
    let c ← Run.sample Flow.Chaotic.draw
    Flow.obscureConditions c p.version p.source
  always := false
  done _ := "[OK] Opaque Predicates insertion done."
  idle := "[INFO] Opaque Predicates skipped (no injection points)."
  failed := some "[WARN] Opaque Predicates insertion failed: <detail>"

def flattening : Stage where
  title := "control flow flattening"
  pass p := do
    Flow.setUp p.version
    Flow.flatten p.source
  always := false
  done _ := "[OK] Control Flow Flattening done."
  idle := "[INFO] Control Flow Flattening skipped (no suitable functions)."
  failed := some "[WARN] Control Flow Flattening failed: <detail>"

def promotion : Stage where
  title := "local-to-state promotion"
  pass p := Storage.promoteLocalsOf p.source (some p.treePath)
  always := false
  done n := "[OK] Local-to-state promotion done (" ++ Nat.repr n ++ " variables)."
  idle := "[INFO] Local-to-state promotion skipped (no eligible locals)."
  failed := some "[WARN] Local→state promotion failed: <detail>"

def tables : Stage where
  title := "static data obfuscation"
  pass p := return (Literal.tabulate p.source, 0)
  done _ := "[OK] Static data obfuscation done."
  failed := some "[WARN] Static data obfuscation failed: <detail>"

def truths : Stage where
  title := "boolean obfuscation"
  pass p := do
    let (text, ops) ← Run.sample (Literal.swapTruths p.source)
    return (text, ops.length)
  done _ := "[OK] Boolean obfuscation done."
  failed := some "[WARN] Boolean obfuscation failed: <detail>"

def integers : Stage where
  title := "integer obfuscation"
  pass p := return (← Run.sample (Literal.disguiseIntegers p.source), 0)
  done _ := "[OK] Integer obfuscation done."
  failed := some "[WARN] Integer obfuscation failed: <detail>"

def grouping : Stage where
  title := "scalar splitting"
  pass p := Storage.groupScalarsOf p.source (some p.treePath)
  always := false
  done n := "[OK] Scalar splitting done (" ++ Nat.repr n ++ " variables)."
  idle := "[INFO] Scalar splitting skipped (no eligible variables)."
  failed := some "[WARN] Scalar splitting failed: <detail>"

def uncommenting : Stage where
  title := "comment removal"
  pass p := return (← Layout.uncomment (some p.source) none, 0)
  done _ := "[OK] Comment removal done."
  failed := some "[WARN] Comment removal failed: <detail>"

def scrambling : Stage where
  title := "format scrambling"
  opening := some "[INFO] Scrambling format..."
  pass p := do
    let o : Layout.Options := { version := '^' :: p.version.toList, dropComments := false, oneLine := true }
    let text ← Run.ofExcept ((Layout.scramble o p.source).mapError Fault.ofTemplate)
    return (text, 0)
  done _ := "[OK] Format scrambling done."
  failed := none

def newNames : Stage where
  title := "variable renaming"
  pass p := do
    let cfg : Rename.Settings := { length := some 24 }
    Rename.setUp cfg.version
    let (_, text) ← Rename.renameByTree cfg [] p.source (some p.treePath)
    return (← Run.ofExcept text, 0)
  done _ := "[OK] Variable renaming done."
  failed := some "[WARN] Variable renaming failed: <detail>"

end Obscura.Pipeline
