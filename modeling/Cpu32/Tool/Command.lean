import Cpu32.Tool.Benchmark
import Cpu32.Tool.Compiler
import Cpu32.Tool.Emulator

/-!
# The tools

Each tool takes its arguments and ends with an exit code.
-/

namespace Cpu32.Tool

inductive Command
  | emulator
  | compiler
  | benchmark
deriving DecidableEq, Repr

variable {m : Type → Type} [Monad m] [Host m]

/-- Runs a tool under the name `program`; its result is the exit code. -/
def Command.run (command : Command) (program : String) (arguments : List String) : m UInt32 := do
  let ended ← match command with
    | .emulator => (Emulator.command program arguments).run
    | .compiler => (Compiler.command program arguments).run
    | .benchmark => (Benchmark.command arguments).run
  match ended with
  | .ok _ => return 0
  | .error code => return code

end Cpu32.Tool
