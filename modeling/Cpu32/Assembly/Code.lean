import Cpu32.Assembly.Labels
import Cpu32.Instruction
import Cpu32.Operand

/-!
# Encoded instructions

An instruction with its encoded operands has its length before labels have addresses, and its bytes
once they have.
-/

namespace Cpu32

structure Code where
  instruction : Instruction
  operands : List Placed
deriving DecidableEq, Repr

/-- The descriptor with its value filled in, if it names a label. -/
def Placed.resolve (labels : Labels) (base : UInt32) (p : Placed) :
    Except UndefinedLabel ModRM :=
  match p.label with
  | none => .ok p.modrm
  | some name => (labels.resolve name).map fun offset => { p.modrm with value := base + offset }

namespace Code

variable (labels : Labels) (base : UInt32)

/-- The number of bytes. -/
def size (code : Code) : Nat :=
  1 + code.operands.foldr (fun p n => p.modrm.size + n) 0

/-- The bytes of one instruction, with labels replaced by their addresses. -/
def encode (code : Code) : Except UndefinedLabel (List UInt8) := do
  let operands ← code.operands.mapM (Placed.resolve labels base)
  return code.instruction.opcode :: operands.flatMap ModRM.encode

/-- The bytes of a list of instructions.  No bytes are returned if a label is unbound. -/
def emit : List Code → Except UndefinedLabel (List UInt8)
  | [] => .ok []
  | code :: rest => do
      let bytes ← code.encode labels base
      return bytes ++ (← emit rest)

end Code

end Cpu32
