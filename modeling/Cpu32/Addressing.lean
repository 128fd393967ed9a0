import Cpu32.Register.Bank
import Cpu32.Width

/-!
# Operand forms

What a decoded operand denotes: a register, a value of its own, or a place in memory.  The address
of a place is computed from registers and wraps at the top of the address space.
-/

namespace Cpu32

/-- How an operand names the first byte of a memory access. -/
inductive Location
  | indirect (base : Register)
  | displaced (base : Register) (displacement : UInt32)
  | indexed (base index : Register)
deriving DecidableEq, Repr

namespace Location

def address (bank : Registers) : Location → UInt32
  | .indirect base => bank.get base
  | .displaced base displacement => bank.get base + displacement
  | .indexed base index => bank.get base + bank.get index

def text : Location → String
  | .indirect base => s!"{base.name}@"
  | .displaced base displacement => s!"{base.name}+{displacement.toNat}@"
  | .indexed base index => s!"{base.name}+{index.name}@"

end Location

inductive Addressing
  | register (r : Register)
  | immediate (value : UInt32) (width : Width)
  | memory (location : Location)
deriving DecidableEq, Repr

namespace Addressing

def isMemory : Addressing → Bool
  | .memory _ => true
  | _ => false

/-- The operand can be written to. -/
def isWritable : Addressing → Bool
  | .immediate .. => false
  | _ => true

/-- The operand as it is written in source text. -/
def text : Addressing → String
  | .register r => r.name
  | .immediate value _ => toString value.toNat
  | .memory location => location.text

end Addressing

end Cpu32
