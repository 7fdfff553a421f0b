import Obscura.Layout.Scramble
import Obscura.Session

/-
  The command that scrambles the layout of a source file.
-/

namespace Obscura.Command

open Layout

def scrambleCommand (args : List String) : Run Nat := do
  match args with
  | input :: output :: _ =>
    let source ← Run.readText input
    let options : Options := { oneLine := !args.contains "--multi-line" }
    let text ← Run.ofExcept ((scramble options source).mapError Fault.ofTemplate)
    Run.writeText output text
    Run.say ("[OK] Scrambled layout written to " ++ output)
  | _ =>
    Run.say ("Usage: python format_scrambler.py input.sol output.sol " ++
      "[--keep-comments] [--multi-line]")
  return 0

end Obscura.Command
