import Obscura.Assoc
import Obscura.Digest
import Obscura.Json.Printer
import Obscura.Rename.Names
import Obscura.Session
import Obscura.Text.Edit

/-
  Renaming. Every name becomes a digest of itself behind a fixed lead. A renamer
  keeps a table of the names it has met; a name always gets the same new one, so
  the table only grows.
-/

namespace Obscura.Rename

open Text Json

/-! ## New names -/

structure Settings where
  algorithm : String := "sha1"
  lead : Chars := ['O', 'X']
  /-- How much of the digest is taken, all of it if there is no number; a negative
  number leaves off so many. -/
  length : Option Int := some 38
  /-- What was given as the length can be one. -/
  isLength : Bool := true
  version : String := defaultVersion

def digestOf (algorithm : String) : Except Fault (Bytes → Bytes) :=
  if algorithm = "sha1" then .ok Digest.Sha1.digest
  else if algorithm = "sha256" then .ok Digest.Sha256.digest
  else if algorithm = "md5" then .ok Digest.Md5.digest
  else .error (.unknownDigest algorithm)

def nameBytes : Json → Except Fault Bytes
  | .str s => .ok (encode s.toList)
  | .torn _ => .error .tornText
  | _ => .error .notObject

def newName (cfg : Settings) (name : Json) : Except Fault Chars := do
  let digest ← digestOf cfg.algorithm
  let hex := Digest.hexText (digest (← nameBytes name))
  unless cfg.isLength do throw .wrongKind
  return cfg.lead ++ (cfg.length.map (upTo hex)).getD hex

/-! ## The table -/

abbrev Table := Assoc String Chars

/-- Add the names that are not in the table yet, in order, up to the first one
that cannot be added. Only texts can. -/
def learn (cfg : Settings) : Table → Names → Table × Option Fault
  | t, [] => (t, none)
  | t, n :: ns =>
    match n.2 with
    | .str s =>
      if Assoc.has s t then learn cfg t ns
      else match newName cfg (.str s) with
        | .ok x => learn cfg (t ++ [(s, x)]) ns
        | .error f => (t, some f)
    | v =>
      match newName cfg v with
      | .ok _ => learn cfg t ns
      | .error f => (t, some f)

def longestFirst (names : Names) : List String :=
  let texts := names.filterMap fun n => match n.2 with
    | .str s => some s
    | _ => none
  texts.mergeSort fun a b => decide (b.length ≤ a.length)

def replaceName (t : Table) (source : Chars) (name : String) : Except Fault Chars := do
  let x := (Assoc.find name t).getD []
  match Template.parse x with
  | .ok parts => return replaceWord name.toList (parts.expand name.toList) none source
  | .error e => throw (.ofTemplate e)

def renameNames (cfg : Settings) (t : Table) (names : Names) (source : Chars) :
    Table × Except Fault Chars :=
  match learn cfg t names with
  | (t', some f) => (t', .error f)
  | (t', none) => (t', (longestFirst names).foldlM (replaceName t') source)

/-! ## Trees -/

/-- Make sure of the compiler that a renamer uses; a failure is only reported. -/
def setUp (version : String) : Run Unit := do
  unless (← getThe Session).compiler.installed.contains version do
    Run.say ("Installing Solidity compiler " ++ version ++ "...")
    match ← Run.attempt Run.install with
    | .ok _ => Run.say "  ✓ Installed"
    | .error _ =>
      Run.say "Warning: Could not setup Solidity compiler: install failed"
      Run.say "Will attempt to use default compiler"

def treePath (path : Option String) : String :=
  match path with
  | some p => if p.isEmpty then "output_ast.json"
    else String.ofList (withoutExtension p.toList ++ "_ast.json".toList)
  | none => "output_ast.json"

/-- Compile a text, or the file at the path if the text is blank, and keep the
tree in a file. -/
def compileTree (source : Option Chars) (path : Option String) : Run Json := do
  let text := source.getD []
  let units ←
    if !(trim text).isEmpty then Run.compile "<stdin>"
    else match path with
      | some p =>
        if (← Run.files).exist p then Run.compile p else throw .nothingToRead
      | none => throw .nothingToRead
  let tree ← Run.ofExcept (Units.firstTree units)
  Run.writeText (treePath path) (Json.print .tree tree)
  return tree

def treeOf (source : Option Chars) (path : Option String) : Run Json := do
  match ← Run.attempt (compileTree source path) with
  | .ok tree => return tree
  | .error _ =>
    Run.say "Error compiling source code: <detail>"
    return .null

def namesOf (source : Chars) (path : Option String) : Run Names := do
  let tree ← treeOf (some source) path
  if tree.isSet then return renameable (← Run.ofExcept (treeNames tree))
  else
    Run.say "Warning: Failed to parse AST, falling back to regex"
    return wordNames source

/-! ## Renaming -/

abbrev Outcome := Table × Except Fault Chars

def rename (cfg : Settings) (t : Table) (source : Chars) (path : Option String) :
    Run Outcome := do
  match ← Run.attempt (namesOf source path) with
  | .error f => return (t, .error f)
  | .ok [] =>
    Run.say "Warning: No identifiers found!"
    return (t, .ok source)
  | .ok names => return renameNames cfg t names source

def namesInFile (path : String) : Run Names := do
  let tree ← Run.ofExcept ((Json.read (← Run.readText path)).mapError Fault.ofJson)
  return renameable (← Run.ofExcept (treeNames tree))

def renameByTree (cfg : Settings) (t : Table) (source : Chars) (path : Option String) :
    Run Outcome := do
  match path with
  | none => rename cfg t source none
  | some p =>
    if !(← Run.files).exist p then rename cfg t source none
    else match ← Run.attempt (namesInFile p) with
      | .error _ =>
        Run.say ("[WARN] Could not load pre-generated AST " ++ p ++ ": <detail>")
        rename cfg t source none
      | .ok [] =>
        Run.say "Warning: No identifiers found in AST!"
        return (t, .ok source)
      | .ok names => return renameNames cfg t names source

def tableJson (t : Table) : Json :=
  .obj (t.map fun e => (e.1, .str (String.ofList e.2)))

def saveTable (t : Table) (path : String) : Run Unit := do
  Run.writeText path (Json.print .sortedTree (tableJson t))
  Run.say ("Mapping saved to: " ++ path)

end Obscura.Rename
