import Cpu32.Machine.Config
import Cpu32.Machine.Fault
import Cpu32.Machine.Profile
import Cpu32.Memory
import Cpu32.Register.Bank

/-!
# The machine

Registers, memory, and what a run leaves behind: the values it emitted and its execution counts.
-/

namespace Cpu32

structure Machine where
  config : Config
  registers : Registers
  memory : Memory
  /-- The values emitted by debug traps, oldest first. -/
  emitted : Array UInt32
  profile : Profile

namespace Machine

/-- A machine that has executed nothing.  The return address stands at the frame, so that a program
ends by jumping to the address stored there. -/
def boot (config : Config) (memory : Memory) : Machine where
  config
  registers := ({} : Registers).set .xx config.entry |>.set .f5 config.frame
  memory := memory.write .word config.frame config.returnAddress
  emitted := #[]
  profile := {}

variable (m : Machine)

def pc : UInt32 := m.registers.get .xx

def setRegister (r : Register) (value : UInt32) : Machine :=
  { m with registers := m.registers.set r value }

def setFlag (flag : Bool) : Machine :=
  { m with registers := m.registers.setFlag flag }

/-- The value in memory at an address. -/
def readMemory (w : Width) (address : UInt32) : UInt32 × Machine :=
  let (value, memory) := m.memory.read w address
  (value, { m with memory })

def writeMemory (w : Width) (address value : UInt32) : Machine :=
  { m with memory := m.memory.write w address value }

/-- What debug traps have printed: each value in decimal, oldest first. -/
def output : List String :=
  m.emitted.toList.map fun value => toString value.toNat

/-- Copies an image into memory. -/
def load (base : UInt32) (image : List UInt8) : Except Memory.Overflow Machine :=
  (m.memory.load base image).map fun memory => { m with memory }

end Machine

end Cpu32
