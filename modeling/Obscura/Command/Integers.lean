import Obscura.Literal.Integer
import Obscura.Session

/-
  The command that disguises the integers of a source file.
-/

namespace Obscura.Command

open Text Literal

/-- Where the result goes if the command line does not say it. -/
def besideInput (input : String) : String :=
  String.ofList (withoutExtension input.toList ++ "_obf.sol".toList)

def disguiseFile (input output : String) : Run Unit := do
  let text ← Run.sample (disguiseIntegers (← Run.readText input))
  Run.writeText output text
  Run.say ("Obfuscated (Floating-point safe): " ++ output)

def integerCommand (args : List String) : Run Nat := do
  match args with
  | [] => Run.say "Usage: python bian_obfuscator.py input.sol [output.sol]"
  | input :: rest =>
    match ← Run.attempt (disguiseFile input (rest.headD (besideInput input))) with
    | .ok _ => pure ()
    | .error .fileMissing => Run.say ("Error: " ++ input ++ " not found.")
    | .error f => throw f
  return 0

end Obscura.Command
