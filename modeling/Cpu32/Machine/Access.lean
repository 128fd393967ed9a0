import Cpu32.ByteSource
import Cpu32.Machine.Basic

/-!
# Operand access

Reading bytes at the program counter, and reading and writing through a decoded operand.  What a
failing computation has done before it failed stays done.
-/

namespace Cpu32

/-- A computation on the machine that may fail, and keeps its effects when it does. -/
abbrev Exec := EStateM Fault Machine

/-- The instruction under execution and the address of its first byte. -/
structure Site where
  instruction : Instruction
  pc : UInt32
deriving DecidableEq, Repr

namespace Exec

/-- Takes the byte at the program counter and moves past it. -/
def next : Exec UInt8 := fun m =>
  let pc := m.pc
  let (b, memory) := m.memory.readCell pc
  .ok b ({ m with memory }.setRegister .xx (pc + 1))

instance : ByteSource Exec where
  next := next
  trailing w := gather next w.size 0

def readMemory (w : Width) (location : Location) : Exec UInt32 := fun m =>
  let (value, m) := m.readMemory w (location.address m.registers)
  .ok value m

/-- The top bytes of the operand: of a register or an immediate its high end, of a place in memory
the bytes at its address.  At full width this is the operand's value.  An immediate is as wide as
it is encoded, and a narrower one counts as its low bytes. -/
def load (w : Width) : Addressing → Exec UInt32
  | .register r => return w.top ((← get).registers.get r)
  | .immediate value width =>
      return w.narrow (value >>> (8 * UInt32.ofNat (width.size - w.size)))
  | .memory location => readMemory w location

/-- Puts the low bytes of a value where `load` takes them from, and clears the flag.  An immediate
is no destination. -/
def store (site : Site) (w : Width) (operand : Addressing) (value : UInt32) : Exec Unit :=
  match operand with
  | .register r =>
      modify fun m => (m.setRegister r (w.replaceTop (m.registers.get r) value)).setFlag false
  | .immediate _ width =>
      throw (.invalidDestination site.instruction (0x04 ||| width.modeBits) site.pc)
  | .memory location =>
      modify fun m => (m.writeMemory w (location.address m.registers) value).setFlag false

/-- Decodes the operand at the program counter, which has to have a meaning. -/
def fetchOperand (site : Site) : Exec Addressing := do
  let modrm ← ModRM.decode
  match modrm.addressing with
  | some operand => return operand
  | none => throw (.unsupportedAddressing modrm.reg modrm.mode site.pc)

end Exec

end Cpu32
