/-!
# Configuration of a machine

The addresses that a run begins with, and the two values of the program counter that are not
addresses of instructions.
-/

namespace Cpu32

/-- The address that images are placed at unless another is asked for. -/
def defaultEntry : UInt32 := 0x14830000

structure Config where
  /-- The first instruction. -/
  entry : UInt32 := defaultEntry
  /-- The first value of the frame register. -/
  frame : UInt32 := 0x6D7AA0F8
  /-- Reaching this address ends a run. -/
  returnAddress : UInt32 := 0xBDA574B8
  /-- Reaching this address emits a value. -/
  debugTrap : UInt32 := 0xBA5FB6B0
  /-- The number of instructions that may be executed. -/
  maxSteps : Option UInt64 := none
deriving DecidableEq, Repr

end Cpu32
