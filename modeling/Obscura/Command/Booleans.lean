import Obscura.Command.Arguments
import Obscura.Literal.BooleanTree

/-
  The command that swaps the truth values of a source file for expressions.
-/

namespace Obscura.Command

open Text Literal

def booleanGrammar : Grammar where
  options :=
    [ helpOption
    , valued ["--output", "-o"] fun _ => true
    , setting ["--no-write"]
    , valued ["--solc"] fun _ => true ]
  places := [⟨"input".toList, false⟩]

def booleanHelp : List String :=
  [ "usage: boolean_obfuscator.py [-h] [--output OUTPUT] [--no-write] [--solc SOLC]"
  , "                             [input]"
  , ""
  , "Boolean obfuscator (AST-based with py-solc-x fallback). Default: test/test.sol"
  , "-> test/output_boolean.sol"
  , ""
  , "positional arguments:"
  , "  input                 input solidity file (optional). If omitted defaults to"
  , "                        PROJECT_ROOT/test/test.sol"
  , ""
  , "options:"
  , "  -h, --help            show this help message and exit"
  , "  --output OUTPUT, -o OUTPUT"
  , "                        output file path (default:"
  , "                        PROJECT_ROOT/test/output_boolean.sol)"
  , "  --no-write            do not write output file (only print stats)"
  , "  --solc SOLC           solc version to install/use via py-solc-x" ]

def Given.filled (v : Given) (name default : String) : String :=
  ((v.text? name).filter (!·.isEmpty)).getD default

/-- The command, given the files it works on if the command line names none; the
result is the exit code. The tree is kept beside the output. -/
def booleanCommand (defaultInput defaultOutput : String) (args : List String) : Run Nat := do
  match booleanGrammar.read args with
  | .error .help =>
    booleanHelp.forM Run.say
    return 0
  | .error .refused => return 2
  | .ok v =>
    let input := v.filled "input" defaultInput
    let output := v.filled "--output" defaultOutput
    let version := v.shown "--solc" defaultVersion
    let announce := !v.isSet "--no-write"
    Run.say ("[INFO] Input file: " ++ input)
    Run.say ("[INFO] Output file: " ++ output ++ " (write_out=" ++
      (if announce then "True" else "False") ++ ")")
    let (_, swaps) ← swapTruthsInFile input version announce
    let treeFile := inDirectory (directoryOf output.toList) "ast_boolean.json".toList
    let _ ← dumpTrees input (some (String.ofList treeFile)) version
    Run.say ("[INFO] Replacements applied: " ++ toString swaps.length)
    return 0

end Obscura.Command
