import Cpu32.Machine.Step

/-!
# Runs

A run goes on until the program counter reaches the return address or a step fails.  A program
counter at the debug trap emits a value in place of an instruction.
-/

namespace Cpu32

/-- How far a run has come. -/
inductive Status
  | running
  | returned
  | failed (fault : Fault)
deriving DecidableEq, Repr

namespace Machine

/-- Emits the word above the frame and resumes at the address that the frame holds. -/
def trap (m : Machine) : Machine :=
  let frame := m.registers.get .f5
  let (resume, m) := m.readMemory .word frame
  let (value, m) := m.readMemory .word (frame + 4)
  let m := m.setRegister .xx resume
  { m with emitted := m.emitted.push value, profile := m.profile.recordTrap }

/-- One round of a run: an instruction, a debug trap, or the end. -/
def tick (m : Machine) : Status × Machine :=
  if m.pc = m.config.returnAddress then (.returned, m)
  else if m.pc = m.config.debugTrap then (.running, m.trap)
  else
    match Exec.step m with
    | .ok _ m => (.running, m)
    | .error fault m => (.failed fault, m)

/-- At most `rounds` rounds of a run. -/
def runFor : Nat → Machine → Status × Machine
  | 0, m => (.running, m)
  | rounds + 1, m =>
      match m.tick with
      | (.running, m) => runFor rounds m
      | ended => ended

/-- What the next round of a run is about to do. -/
inductive Event
  | instruction (pc : UInt32) (instruction : Instruction)
  | trap (value resume : UInt32)
deriving DecidableEq, Repr

/-- The next round of a run, unless it ends or fails before an instruction is known. -/
def event? (m : Machine) : Option Event :=
  if m.pc = m.config.returnAddress then none
  else if m.pc = m.config.debugTrap then
    let (resume, m') := m.readMemory .word (m.registers.get .f5)
    let (value, _) := m'.readMemory .word (m.registers.get .f5 + 4)
    some (.trap value resume)
  else
    match Exec.checkBudget m with
    | .error _ _ => none
    | .ok _ _ =>
      (Instruction.ofOpcode? (m.memory.readCell m.pc).1).map (.instruction m.pc)

def Event.text : Event → String
  | .instruction pc i => s!"{Text.hex 8 pc.toNat}: {Text.hex 2 i.opcode.toNat} {i.mnemonic}"
  | .trap value resume => s!"debug trap: {value.toNat}, resuming at {Text.hex 8 resume.toNat}"

end Machine

end Cpu32
