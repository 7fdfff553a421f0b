import Obscura.Command.Rename
import Obscura.Pipeline.Whole

/-
  The command that runs the whole pipeline on the sample source.
-/

namespace Obscura.Command

def pipelineInput : String := "test/test.sol"

def pipelineOutput : String := "test/test_output.sol"

def pipelineCommand : Run Nat := do
  unless (← getThe Session).compiler.reachable do return (← giveUp)
  let _ ← Pipeline.obfuscate pipelineInput pipelineOutput
  return 0

end Obscura.Command
