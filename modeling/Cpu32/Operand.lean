import Cpu32.ModRM

/-!
# Symbolic operands

Operands as source text names them, before labels have addresses, and their encoding.
-/

namespace Cpu32

/-- An operand apart from whether it stands for the word at its address. -/
inductive Operand.Shape
  | immediate (value : UInt32)
  | register (r : Register)
  | displaced (base : Register) (displacement : UInt32)
  | indexed (base index : Register)
  | label (name : String)
deriving DecidableEq, Repr

/-- The text of a shape, without the sign for a memory reference. -/
def Operand.Shape.text : Operand.Shape → String
  | .immediate value => toString value.toNat
  | .register r => r.name
  | .displaced base displacement => s!"{base.name}+{displacement.toNat}"
  | .indexed base index => s!"{base.name}+{index.name}"
  | .label name => name

structure Operand where
  shape : Operand.Shape
  /-- The operand stands for the word in memory at its address. -/
  address : Bool := false
deriving DecidableEq, Repr

/-- An encoded operand, whose value is still open if it names a label. -/
structure Placed where
  modrm : ModRM
  label : Option String := none
deriving DecidableEq, Repr

namespace Operand

def text (o : Operand) : String :=
  if o.address then o.shape.text ++ "@" else o.shape.text

/-- Immediates and labels are values and never destinations. -/
def isValueOnly (o : Operand) : Bool :=
  match o.shape with
  | .immediate _ | .label _ => true
  | _ => false

/-- Why a shape cannot be encoded. -/
inductive Misfit
  | immediateAddress
  | labelAddress
  | bareOffset
deriving DecidableEq, Repr

def Misfit.message : Misfit → String
  | .immediateAddress => "an immediate cannot be an address"
  | .labelAddress => "a label cannot be an address"
  | .bareOffset => "an offset register is only valid as an address"

/-- The descriptor of an operand.  A label takes a full word, whatever its address will be. -/
def encode (o : Operand) : Except Misfit Placed :=
  match o.shape, o.address with
  | .immediate value, false => .ok { modrm := .immediate value }
  | .register r, false => .ok { modrm := .register r }
  | .register r, true => .ok { modrm := .indirect r }
  | .displaced base displacement, true => .ok { modrm := .displaced base displacement }
  | .indexed base index, true => .ok { modrm := .indexed base index }
  | .label name, false => .ok { modrm := .wideImmediate 0, label := some name }
  | .immediate _, true => .error .immediateAddress
  | .label _, true => .error .labelAddress
  | .displaced .., false | .indexed .., false => .error .bareOffset

end Operand

namespace Placed

/-- The operand in source form; a label stands for its own name. -/
def text (p : Placed) : String :=
  match p.label with
  | some name => name
  | none => p.modrm.text

end Placed

end Cpu32
