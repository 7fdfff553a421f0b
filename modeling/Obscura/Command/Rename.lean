import Obscura.Command.Arguments
import Obscura.Rename.Renamer

/-
  The command that renames the names of a source file.
-/

namespace Obscura.Command

/-! ## Summaries -/

open Text Number Run

/-! ## Numbers -/

def groupDigits (ds : Chars) : Chars :=
  match ds with
  | [] => []
  | d :: rest =>
    if rest.length % 3 = 0 && !rest.isEmpty then d :: ',' :: groupDigits rest
    else d :: groupDigits rest

def amountText (n : Nat) : String :=
  String.ofList (groupDigits (digits n))

def sizeText (i : Int) : String :=
  (if i < 0 then "-" else "") ++ amountText i.natAbs

def changeText (i : Int) : String :=
  (if i < 0 then "-" else "+") ++ amountText i.natAbs

def secondsText (millis : Nat) : String :=
  let rest := toString (millis % 1000)
  toString (millis / 1000) ++ "." ++ "".pushn '0' (3 - rest.length) ++ rest

def padded (width : Nat) (s : String) : String :=
  s.pushn ' ' (width - s.length)

/-! ## Reports -/

def rule (c : Char) : String := "".pushn c 70

def heading (title : String) : Run Unit := do
  say ""
  say (rule '=')
  say title
  say (rule '=')

structure Summary where
  before : Int
  after : Int
  renamed : Int
  millis : Nat := 0

def Summary.tell (s : Summary) : Run Unit := do
  heading "OBFUSCATION SUMMARY"
  say ("Original size:        " ++ sizeText s.before ++ " characters")
  say ("Obfuscated size:      " ++ sizeText s.after ++ " characters")
  say ("Size change:          " ++ changeText (s.after - s.before) ++ " characters")
  say ("Identifiers renamed:  " ++ toString s.renamed)
  say ("Processing time:      " ++ secondsText s.millis ++ " seconds")
  say (rule '=')

def previewRows (size : Nat) (room : Int) : Nat → List (String × String) → List String
  | _, [] => []
  | i, (old, new) :: rest =>
    if room ≤ i then ["... and " ++ toString ((size : Int) - room) ++ " more"]
    else (padded 25 old ++ " → " ++ new) :: previewRows size room (i + 1) rest

def tellPreview (names : List (String × String)) (room : Int) : Run Unit := do
  heading "MAPPING TABLE (Preview)"
  say (padded 25 "Original" ++ " → Obfuscated")
  say (rule '-')
  let sorted := names.mergeSort fun a b => decide (a.1 ≤ b.1)
  (previewRows names.length room 0 sorted).forM say
  say (rule '=')

/-! ## Requests -/

open Rename

/-! ## The command line -/

def isDigestName (s : Chars) : Bool :=
  ["sha1", "sha256", "md5"].any fun n => n.toList = s

def renameGrammar : Grammar where
  options :=
    [ helpOption
    , valued ["--mapping", "-m"] fun _ => true
    , valued ["--algorithm", "-a"] isDigestName
    , valued ["--prefix", "-p"] fun _ => true
    , valued ["--length", "-l"] fun s => (Number.readInt? s).isSome
    , valued ["--solc-version", "-s"] fun _ => true
    , setting ["--quiet", "-q"] ]
  places := [⟨"input".toList, true⟩, ⟨"output".toList, true⟩]

def renameHelp : List String :=
  [ "usage: variable_renamer.py [-h] [--mapping MAPPING]"
  , "                           [--algorithm \x7bsha1,sha256,md5\x7d] [--prefix PREFIX]"
  , "                           [--length LENGTH] [--solc-version SOLC_VERSION]"
  , "                           [--quiet]"
  , "                           input output"
  , ""
  , "Obfuscate Solidity smart contract variable names using AST"
  , ""
  , "positional arguments:"
  , "  input                 Input Solidity file (.sol)"
  , "  output                Output file path for obfuscated code"
  , ""
  , "options:"
  , "  -h, --help            show this help message and exit"
  , "  --mapping MAPPING, -m MAPPING"
  , "                        Output path for mapping JSON file (optional)"
  , "  --algorithm \x7bsha1,sha256,md5\x7d, -a \x7bsha1,sha256,md5\x7d"
  , "                        Hash algorithm to use (default: sha1)"
  , "  --prefix PREFIX, -p PREFIX"
  , "                        Prefix for obfuscated names (default: OX)"
  , "  --length LENGTH, -l LENGTH"
  , "                        Length of hash suffix (default: 38)"
  , "  --solc-version SOLC_VERSION, -s SOLC_VERSION"
  , "                        Solidity compiler version (default: 0.8.30)"
  , "  --quiet, -q           Suppress verbose output"
  , ""
  , "Examples:"
  , "  python variable_renamer.py input.sol output.sol"
  , "  python variable_renamer.py input.sol output.sol --mapping mapping.json"
  , "  python variable_renamer.py input.sol output.sol --algorithm sha256"
  , "  python variable_renamer.py input.sol output.sol --prefix VAR --length 32"
  , "  python variable_renamer.py input.sol output.sol --solc-version 0.8.20"
  , ""
  , "Note: This version uses AST (Abstract Syntax Tree) parsing for more accurate"
  , "      identifier extraction compared to regex-based approaches."
  , "        " ]

def renameBanner : List String :=
  [ ""
  , "╔".pushn '═' 67 ++ "╗"
  , "║".pushn ' ' 67 ++ "║"
  , "║      SOLIDITY VARIABLE RENAMER / OBFUSCATOR (AST-based)           ║"
  , "║".pushn ' ' 67 ++ "║"
  , "║  Obfuscate variable names using Abstract Syntax Tree parsing      ║"
  , "║  More accurate than regex-based approach                          ║"
  , "║".pushn ' ' 67 ++ "║"
  , "╚".pushn '═' 67 ++ "╝"
  , "" ]

def compilerMissing : List String :=
  [ ""
  , rule '='
  , "ERROR: Missing Required Dependency"
  , rule '='
  , ""
  , "This script requires 'py-solc-x' to be installed."
  , ""
  , "Please install it using:"
  , "  pip install py-solc-x"
  , ""
  , "Or install all requirements:"
  , "  pip install py-solc-x"
  , ""
  , rule '=' ]

/-! ## Files -/

/-- Read the file that is named on a command line; if that fails, say so. -/
def readInput (path : String) : Run (Option Chars) := do
  match ← attempt (readText path) with
  | .ok text => return some text
  | .error .fileMissing =>
    say ("Error: File not found: " ++ path)
    return none
  | .error _ =>
    say "Error reading file: <detail>"
    return none

/-- Write the file that is named on a command line, and make the directories
above it; if that fails, or no file is named, say so. -/
def writeOutput (path : Option String) (text : Chars) : Run Bool := do
  let step : Run Unit := match path with
    | some p => do
      makeParents p
      writeText p text
    | none => throw .wrongKind
  match ← attempt step with
  | .ok _ => return true
  | .error _ =>
    say "Error writing file: <detail>"
    return false

/-! ## The command -/

structure RenameRequest where
  input : String
  output : Option String
  table : Option String
  settings : Settings
  quiet : Bool

def RenameRequest.of (v : Given) : RenameRequest where
  input := (v.text? "input").getD ""
  output := v.text? "output"
  table := (v.text? "--mapping").filter (!·.isEmpty)
  settings :=
    { algorithm := v.shown "--algorithm" "sha1"
      lead := (v.shown "--prefix" "OX").toList
      length := match v.value? "--length" with
        | some (.text s) => Number.readInt? s
        | some .nothing => none
        | none => some 38
      isLength := !(v.value? "--length" matches some .nothing)
      version := v.shown "--solc-version" defaultVersion }
  quiet := v.isSet "--quiet"

def RenameRequest.note (q : RenameRequest) (line : String) : Run Unit :=
  if q.quiet then pure () else say line

def RenameRequest.outputShown (q : RenameRequest) : String :=
  q.output.getD Value.nothing.shown

def RenameRequest.tell (q : RenameRequest) : Run Unit := do
  let c := q.settings
  [ "CONFIGURATION:"
  , "  Input file:      " ++ q.input
  , "  Output file:     " ++ q.outputShown
  , "  Mapping file:    " ++ q.table.getD "Not specified"
  , "  Hash algorithm:  " ++ c.algorithm
  , "  Prefix:          " ++ String.ofList c.lead
  , "  Hash length:     " ++ (c.length.map toString).getD Value.nothing.shown
  , "  Solc version:    " ++ c.version
  , "  Method:          AST parsing"
  , "" ].forM q.note

def RenameRequest.run (q : RenameRequest) : Run Nat := do
  renameBanner.forM q.note
  unless (← files).exist q.input do
    say ("Error: Input file not found: " ++ q.input)
    return 1
  unless endsWith ".sol".toList q.input.toList do
    say "Warning: Input file doesn't have .sol extension"
  q.tell
  q.note ("Reading input file: " ++ q.input)
  let some source ← readInput q.input | return 1
  q.note ("  ✓ Read " ++ sizeText source.length ++ " characters")
  q.note ""
  q.note "Initializing obfuscator (AST-based)..."
  setUp q.settings.version
  q.note ("  ✓ Protected " ++ toString reserved.length ++ " Solidity keywords")
  q.note ""
  q.note "Obfuscating code using AST..."
  q.note ""
  let (table, outcome) ← rename q.settings [] source (some q.input)
  match outcome with
  | .error _ =>
    say "Error during obfuscation: <detail>"
    return 1
  | .ok text =>
    q.note ""
    q.note ("  ✓ Generated " ++ sizeText text.length ++ " characters")
    q.note ""
    q.note ("Writing output file: " ++ q.outputShown)
    unless ← writeOutput q.output text do return 1
    q.note "  ✓ Obfuscated code saved"
    q.note ""
    match q.table with
    | none => pure ()
    | some path =>
      q.note ("Saving mapping file: " ++ path)
      saveTable table path
      q.note "  ✓ Mapping saved"
      q.note ""
    unless q.quiet do
      Summary.tell { before := source.length, after := text.length, renamed := table.length }
      tellPreview (table.map fun e => (e.1, String.ofList e.2)) 15
      say ""
      say "✓ OBFUSCATION COMPLETED SUCCESSFULLY!"
      say ""
    return 0

def renameCommand (args : List String) : Run Nat := do
  unless (← getThe Session).compiler.reachable do
    compilerMissing.forM say
    return 1
  match renameGrammar.read args with
  | .ok v => (RenameRequest.of v).run
  | .error .help =>
    renameHelp.forM say
    return 0
  | .error .refused => return 2

def giveUp : Run Nat := do
  say "Error: py-solc-x not installed"
  say "Please install: pip install py-solc-x"
  return 1

/-- The command on its own: it needs a compiler, and a failure is reported. -/
def renameAlone (args : List String) : Run Nat := do
  unless (← getThe Session).compiler.reachable do return (← giveUp)
  match ← attempt (renameCommand args) with
  | .ok code => return code
  | .error _ =>
    say ""
    say "✗ Error: <detail>"
    return 1

end Obscura.Command
