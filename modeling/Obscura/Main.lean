import Obscura.Command.Booleans
import Obscura.Command.Integers
import Obscura.Command.Pipeline
import Obscura.Command.Scramble
import Obscura.Workload.Bench

/-
  The command line: `[--tree FILE] COMMAND ARGUMENT...`. This layer reads the files
  that a command may want, runs the command on them as on a value, and writes back
  what is new. The syntax tree, where a pass wants one, comes from the file named
  first; without it the passes do as they do when the compiler fails.
-/

namespace Obscura.Tool

def commands : List (String × (List String → Run Nat)) :=
  [ ("booleans", Command.booleanCommand "test/test.sol" "test/output_boolean.sol")
  , ("integers", Command.integerCommand)
  , ("scramble", Command.scrambleCommand)
  , ("rename", Command.renameAlone)
  , ("pipeline", fun _ => Command.pipelineCommand)
  , ("bench", fun args => do
      let b := Workload.Bench.all.find? fun b => some b.name = args.head?
      let n := (args.getD 1 "").toNat?
      match b, n with
      | some b, some n =>
        let v ← Run.ofExcept (b.run n)
        Run.put (Json.print .line v ++ ['\n'])
        return 0
      | _, _ =>
        for b in Workload.Bench.all do
          Run.say (b.name ++ " " ++ b.unit)
        return 2) ]

def usage : String :=
  "usage: [--tree FILE] COMMAND ARGUMENT...\ncommands: "
    ++ ", ".intercalate (commands.map (·.1))

def usualFiles : List String := ["test/test.sol"]

def switchNames : List String :=
  ["STATIC_ONLY", "ENABLE_PREPROCESSING", "ENABLE_CPM", "ENABLE_LOCAL_STATE", "ENABLE_STATIC",
    "ENABLE_SCALAR", "ENABLE_FORMATTING", "CLEANUP_TEMPS"]

def treeCount : Nat := 64

def readFile? (path : String) : IO (Option ByteArray) := do
  try
    return some (← IO.FS.readBinFile path)
  catch _ => return none

def loadFiles (paths : List String) : IO Files := do
  let mut found : Files := { home := (← IO.currentDir).toString }
  for path in paths do
    match ← readFile? path with
    | some b => found := found.put path b.toList
    | none => pure ()
  return found

def loadTree (path : Option String) : IO (List (Option (String → Units))) := do
  match path with
  | none => return []
  | some p =>
    match ← readFile? p with
    | none => return []
    | some b =>
      match Json.read (Text.decodeLossy b.toList) with
      | .ok tree => return List.replicate treeCount (some fun q => [(q, some tree)])
      | .error _ => return []

def loadSwitches : IO (List (String × String)) := do
  let mut found := []
  for name in switchNames do
    match ← IO.getEnv ("BIAN_" ++ name) with
    | some v => found := found ++ [(name, v)]
    | none => pure ()
  return found

def storeFiles (before after : Files) : IO Unit := do
  for (path, bytes) in after.entries do
    unless before.entries.contains (path, bytes) do
      let directory := Text.directoryOf path.toList
      unless directory.isEmpty do IO.FS.createDirAll (String.ofList directory)
      IO.FS.writeBinFile path ⟨bytes.toArray⟩

def execute (tree : Option String) (command : List String → Run Nat) (args : List String) :
    IO UInt32 := do
  let files ← loadFiles (usualFiles ++ args)
  let session : Session :=
    { draws := .stream [] (← IO.rand 0 (Nat.pow 2 31 - 1))
      compiler := { answers := ← loadTree tree }
      files := files
      switches := ← loadSwitches }
  let (outcome, session') := command args session
  IO.print (String.ofList session'.report)
  storeFiles files session'.files
  match outcome with
  | .ok code => return code.toUInt32
  | .error f =>
    IO.eprintln (f.message?.getD (reprStr f))
    return 1

def start (args : List String) : IO UInt32 := do
  let (tree, rest) := match args with
    | "--tree" :: path :: rest => (some path, rest)
    | _ => (none, args)
  let chosen := rest.head?.bind fun name => commands.find? (·.1 = name)
  match chosen with
  | some (_, command) => execute tree command rest.tail
  | none =>
    IO.eprintln usage
    return 2

end Obscura.Tool

def main (args : List String) : IO UInt32 :=
  Obscura.Tool.start args
