import Cpu32.Machine.Operation

/-!
# One instruction

A step fetches the opcode at the program counter, counts the instruction, fetches its operands from
left to right, and carries it out with the program counter already at the next instruction.
-/

namespace Cpu32

namespace Exec

/-- Fails if the budget of instructions is used up. -/
def checkBudget : Exec Unit := do
  let m ← get
  match m.config.maxSteps with
  | some limit =>
      if limit.toNat ≤ m.profile.instructions then throw (.stepLimitExceeded limit m.pc)
  | none => pure ()

/-- Fetches an opcode and counts its instruction. -/
def fetchInstruction : Exec Site := do
  let pc := (← get).pc
  let opcode ← next
  match Instruction.ofOpcode? opcode with
  | none => throw (.invalidInstruction opcode pc)
  | some instruction =>
      modify fun m => { m with profile := m.profile.record instruction.category }
      return ⟨instruction, pc⟩

/-- Fetches the operands of an instruction. -/
def fetchAction (site : Site) : Exec Action := do
  match site.instruction.operation with
  | .binary operation =>
      let a ← fetchOperand site
      let b ← fetchOperand site
      return .binary operation a b
  | .ternary operation =>
      let a ← fetchOperand site
      let b ← fetchOperand site
      let c ← fetchOperand site
      return .ternary operation a b c

/-- Executes the instruction at the program counter, whatever its address. -/
def step : Exec Unit := do
  checkBudget
  let site ← fetchInstruction
  let action ← fetchAction site
  action.perform site

end Exec

end Cpu32
