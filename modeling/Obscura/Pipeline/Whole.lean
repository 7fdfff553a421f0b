import Obscura.Pipeline.Stage

/-
  The whole pipeline: from a file to its obfuscated form, through all passes that
  are switched on.
-/

namespace Obscura.Pipeline

open Text

def isOn (name default : String) : Run Bool := do
  return (← Run.switch name default) == "1"

def unlessStatic (staticOnly : Bool) (skipped : String) : Option String :=
  if staticOnly then some skipped else none

def unlessOff (on : Bool) (disabled : String) : Option String :=
  if on then none else some disabled

def flowStages (staticOnly : Bool) (p : Progress) : Run Progress := do
  let inline ← isOn "ENABLE_PREPROCESSING" "1"
  let p ← orReason inlining
    ((unlessStatic staticOnly "[INFO] Pre-processing skipped (static-only mode).").or
      (unlessOff inline "[INFO] Pre-processing disabled.")) p
  let opaq ← isOn "ENABLE_CPM" "1"
  let p ← orReason predicates
    ((unlessStatic staticOnly "[INFO] Opaque Predicates skipped (static-only mode).").or
      (unlessOff opaq "[INFO] Opaque Predicates disabled (set BIAN_ENABLE_CPM=1 to enable).")) p
  Run.say "[INFO] Running Control Flow Flattening..."
  if staticOnly then return p else flattening.run p

/-- The stages on data but the last. -/
def literalStages (staticOnly : Bool) (p : Progress) : Run Progress := do
  let p ← orReason promotion (unlessOff (← isOn "ENABLE_LOCAL_STATE" "1")
    "[INFO] Local-to-state promotion disabled (set BIAN_ENABLE_LOCAL_STATE=1 to enable).") p
  let p ← orReason tables (unlessOff (← isOn "ENABLE_STATIC" "1")
    "[INFO] Static data obfuscation skipped (set BIAN_ENABLE_STATIC=1 to enable).") p
  let p ← orReason truths
    (unlessStatic staticOnly "[INFO] Boolean obfuscation skipped (static-only mode).") p
  orReason integers
    (unlessStatic staticOnly "[INFO] Integer obfuscation skipped (static-only mode).") p

def dataStages (staticOnly : Bool) (p : Progress) : Run Progress := do
  let p ← literalStages staticOnly p
  let group ← isOn "ENABLE_SCALAR" "1"
  orReason grouping
    ((unlessStatic staticOnly "[INFO] Scalar splitting skipped (static-only mode).").or
      (unlessOff group
        "[INFO] Scalar splitting disabled (set BIAN_ENABLE_SCALAR=1 to enable).")) p

def layoutStages (staticOnly : Bool) (p : Progress) : Run Progress := do
  if staticOnly then
    Run.say "[INFO] Static-only mode: skipped comment removal, formatting, renaming."
    return p
  let p ← uncommenting.run p
  let p ← orReason scrambling (unlessOff (← isOn "ENABLE_FORMATTING" "1")
    "[INFO] Format scrambling disabled (set BIAN_ENABLE_FORMATTING=1 to enable).") p
  newNames.run p

def writeResult (p : Progress) (output : String) : Run Unit := do
  match ← Run.attempt (Run.writeText output p.source) with
  | .ok _ => Run.say ("[OK] Wrote obfuscated output to: " ++ output)
  | .error _ => Run.say "[ERROR] Failed to write output file: <detail>"

def copyTree (p : Progress) : Run Unit := do
  match ← Run.attempt (Run.copy p.treePath "test/test_ast.json") with
  | .ok _ => Run.say "[AST] Final AST copied to: test/test_ast.json"
  | .error _ => Run.say "[WARN] Could not copy final AST: <detail>"

def isTemporary (path : String) : Bool :=
  match stripFront? "test/temp_step".toList path.toList with
  | some r => endsWith ".sol".toList r
  | none => false

def cleanUp : Run Unit := do
  let found := ((← Run.files).children "test").filter isTemporary
  match ← Run.attempt (found.forM Run.remove) with
  | .ok _ => Run.say ("[OK] Cleaned up " ++ Nat.repr found.length ++ " temporary files")
  | .error _ => Run.say "[WARN] Cleanup failed: <detail>"

/-- What comes before the stages: the first text is written down and compiled. -/
def prepare (input : String) (source : Chars) (version : String) : Run Unit := do
  Run.say ("[INFO] Using Solidity Version: " ++ version)
  Run.say ("[INFO] Generating initial AST for " ++ input ++ "...")
  unless ← regenerate source (stepPath 0) (stepTreePath 0) version do
    Run.say "[WARN] Could not regenerate initial AST; proceeding with previous version if available."

/-- The stages, as the static mode leaves them. -/
def allStages (p : Progress) : Run Progress := do
  let staticOnly ← isOn "STATIC_ONLY" "0"
  let p ← flowStages staticOnly p
  let p ← dataStages staticOnly p
  layoutStages staticOnly p

/-- What comes behind the stages. -/
def conclude (output : String) (p : Progress) : Run Unit := do
  writeResult p output
  copyTree p
  if ← isOn "CLEANUP_TEMPS" "1" then cleanUp
  Run.say ""
  Run.say ("[OK] BiAn-style obfuscation completed! Final AST: " ++ p.treePath ++ " -> test_ast.json")

def runStages (input output : String) (source : Chars) (version : String) : Run Unit := do
  prepare input source version
  let p ← allStages (.initial source version)
  conclude output p

def obfuscate (input output : String) : Run Unit := do
  if !(← Run.files).exist input then
    Run.say ("[ERROR] Input file not found: " ++ input)
    return
  let source ← Run.readText input
  Run.say "[INFO] Starting BiAn-style progressive obfuscation pipeline..."
  let version ← detectVersion source
  match ← Run.attempt Run.install with
  | .ok _ => runStages input output source version
  | .error _ =>
    Run.say ("[ERROR] Failed to install/set solc version " ++ version ++ ": install failed")

end Obscura.Pipeline
