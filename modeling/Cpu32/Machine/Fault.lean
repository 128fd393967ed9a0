import Cpu32.Instruction
import Cpu32.Text.Hex

/-!
# Faults

Why a step of the machine fails.  Each fault names the address of the instruction's first byte.
-/

namespace Cpu32

inductive Fault
  | invalidInstruction (opcode : UInt8) (pc : UInt32)
  | unsupportedAddressing (reg mode : UInt8) (pc : UInt32)
  | invalidDestination (instruction : Instruction) (mode : UInt8) (pc : UInt32)
  | stepLimitExceeded (limit : UInt64) (pc : UInt32)
deriving DecidableEq, Repr

namespace Fault

open Text (hex)

def message : Fault → String
  | .invalidInstruction opcode pc =>
      s!"invalid instruction 0x{hex 2 opcode.toNat} at 0x{hex 8 pc.toNat}"
  | .unsupportedAddressing reg mode pc =>
      s!"unsupported addressing mode 0x{hex 2 mode.toNat} (reg {reg.toNat}) at 0x{hex 8 pc.toNat}"
  | .invalidDestination instruction mode pc =>
      s!"{instruction.mnemonic} cannot write to immediate operand " ++
        s!"(mode 0x{hex 2 mode.toNat}) at 0x{hex 8 pc.toNat}"
  | .stepLimitExceeded limit pc =>
      s!"step limit of {limit.toNat} instructions exceeded at 0x{hex 8 pc.toNat}"

end Fault

end Cpu32
