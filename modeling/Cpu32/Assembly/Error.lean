import Cpu32.Assembly.Labels
import Cpu32.Instruction
import Cpu32.Operand

/-!
# Assembly errors

Why a statement is refused.
-/

namespace Cpu32

/-- Why an instruction does not take an operand. -/
inductive OperandFault
  | wrongCount
  | notWritable
  | misfit (cause : Operand.Misfit)
deriving DecidableEq, Repr

def OperandFault.message : OperandFault → String
  | .wrongCount => "wrong number of operands"
  | .notWritable => "destination must be a register or memory reference"
  | .misfit cause => cause.message

inductive AssemblyError
  | unknownInstruction (name : String)
  | invalidOperand (instruction : Instruction) (position : Nat) (operand : String)
      (fault : OperandFault)
  | malformedOperand (operand : String)
  | unsupportedWord (word : String)
  | unexpectedEnd (word : String) (expected : Nat)
  | duplicateLabel (label : String)
  /-- A label for the previous instruction where there is none. -/
  | danglingLabel (label : String)
deriving DecidableEq, Repr

def AssemblyError.message : AssemblyError → String
  | .unknownInstruction name => s!"invalid instruction name: {name}"
  | .invalidOperand instruction position operand fault =>
      s!"{instruction.mnemonic} operand {position}: {fault.message} ({operand})"
  | .malformedOperand operand => s!"malformed operand: {operand}"
  | .unsupportedWord word => s!"{word} is not supported"
  | .unexpectedEnd word expected => s!"{word} expects {expected} more word(s)"
  | .duplicateLabel label => DuplicateLabel.message ⟨label⟩
  | .danglingLabel label => s!"label {label} has no preceding instruction to follow"

end Cpu32
