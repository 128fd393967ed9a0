import Cpu32.Text.Letters

/-!
# Instructions

The instruction set: for each instruction its opcode byte, its mnemonic, the number of its operands
and the category it is counted in.  Opcodes are part of the format of images.
-/

namespace Cpu32

/-- The operands are called `a`, `b` and `c`, from left to right. -/
inductive Instruction
  /-- `b` becomes `b + a`. -/
  | ata
  /-- `b` becomes `b - a`. -/
  | nta
  /-- `b` becomes the bitwise and of `b` and `a`. -/
  | ada
  /-- `b` becomes the bitwise or of `b` and `a`. -/
  | ekc
  /-- `b` is shifted right by `a`, filling with zeros. -/
  | dto
  /-- `b` is shifted left by `a`. -/
  | dro
  /-- `b` is shifted right by `a`, filling with its sign. -/
  | dtosna
  /-- `b` becomes the complement of the exclusive or of `b` and `a`. -/
  | dal
  /-- `b` becomes `a`. -/
  | krz
  /-- `b` becomes `a` if the flag is set. -/
  | malkrz
  /-- `b` becomes the top byte of `a`, sign-extended. -/
  | krz8i
  /-- `b` becomes the top half of `a`, sign-extended. -/
  | krz16i
  /-- The top byte of `b` becomes the low byte of `a`. -/
  | krz8c
  /-- The top half of `b` becomes the low half of `a`. -/
  | krz16c
  /-- The flag becomes `a > b`, unsigned. -/
  | llonys
  /-- The flag becomes `a ≤ b`, unsigned. -/
  | xtlonys
  /-- The flag becomes `a ≥ b`, unsigned. -/
  | xolonys
  /-- The flag becomes `a < b`, unsigned. -/
  | xylonys
  /-- The flag becomes `a = b`. -/
  | clo
  /-- The flag becomes `a ≠ b`. -/
  | niv
  /-- The flag becomes `a > b`, signed. -/
  | llo
  /-- The flag becomes `a ≤ b`, signed. -/
  | xtlo
  /-- The flag becomes `a ≥ b`, signed. -/
  | xolo
  /-- The flag becomes `a < b`, signed. -/
  | xylo
  /-- `c` becomes `b`, and `b` becomes `a`. -/
  | inj
  /-- `c` and `b` become the high and the low word of the unsigned product of `b` and `a`. -/
  | lat
  /-- `c` and `b` become the high and the low word of the signed product of `b` and `a`. -/
  | latsna
deriving DecidableEq, Repr

/-- The groups that executed instructions are counted in. -/
inductive Category
  | arithmetic
  | logic
  | shift
  | transfer
  | compare
  | exchange
  | multiply
deriving DecidableEq, Repr

namespace Category

def all : List Category := [arithmetic, logic, shift, transfer, compare, exchange, multiply]

/-- The place of the category in a tally. -/
def index : Category → Fin 7
  | .arithmetic => 0
  | .logic => 1
  | .shift => 2
  | .transfer => 3
  | .compare => 4
  | .exchange => 5
  | .multiply => 6

def name : Category → String
  | .arithmetic => "Arithmetic"
  | .logic => "Logic"
  | .shift => "Shift"
  | .transfer => "Transfer"
  | .compare => "Compare"
  | .exchange => "Exchange"
  | .multiply => "Multiply"

end Category

namespace Instruction

/-- Every instruction, in the order of the opcodes. -/
def all : List Instruction :=
  [ata, nta, ada, ekc, dto, dro, dtosna, dal,
    krz, malkrz, krz8i, krz16i, krz8c, krz16c,
    llonys, xtlonys, xolonys, xylonys, clo, niv, llo, xtlo, xolo, xylo,
    inj, lat, latsna]

/-- The first byte of the encoded instruction. -/
def opcode : Instruction → UInt8
  | .ata => 0x00
  | .nta => 0x01
  | .ada => 0x02
  | .ekc => 0x03
  | .dto => 0x04
  | .dro => 0x05
  | .dtosna => 0x06
  | .dal => 0x07
  | .krz => 0x08
  | .malkrz => 0x09
  | .krz8i => 0x0A
  | .krz16i => 0x0B
  | .krz8c => 0x0C
  | .krz16c => 0x0D
  | .llonys => 0x10
  | .xtlonys => 0x11
  | .xolonys => 0x12
  | .xylonys => 0x13
  | .clo => 0x16
  | .niv => 0x17
  | .llo => 0x18
  | .xtlo => 0x19
  | .xolo => 0x1A
  | .xylo => 0x1B
  | .inj => 0x20
  | .lat => 0x28
  | .latsna => 0x29

/-- The instruction of an opcode byte; not every byte is an opcode. -/
def ofOpcode? (byte : UInt8) : Option Instruction :=
  all.find? fun i => i.opcode = byte

@[simp] theorem ofOpcode?_opcode (i : Instruction) : ofOpcode? i.opcode = some i := by
  cases i <;> rfl

theorem opcode_of_ofOpcode? {byte : UInt8} {i : Instruction} (h : ofOpcode? byte = some i) :
    i.opcode = byte := by
  simpa using List.find?_some h

def mnemonic : Instruction → String
  | .ata => "ATA"
  | .nta => "NTA"
  | .ada => "ADA"
  | .ekc => "EKC"
  | .dto => "DTO"
  | .dro => "DRO"
  | .dtosna => "DTOSNA"
  | .dal => "DAL"
  | .krz => "KRZ"
  | .malkrz => "MALKRZ"
  | .krz8i => "KRZ8I"
  | .krz16i => "KRZ16I"
  | .krz8c => "KRZ8C"
  | .krz16c => "KRZ16C"
  | .llonys => "LLONYS"
  | .xtlonys => "XTLONYS"
  | .xolonys => "XOLONYS"
  | .xylonys => "XYLONYS"
  | .clo => "CLO"
  | .niv => "NIV"
  | .llo => "LLO"
  | .xtlo => "XTLO"
  | .xolo => "XOLO"
  | .xylo => "XYLO"
  | .inj => "INJ"
  | .lat => "LAT"
  | .latsna => "LATSNA"

/-- The instruction of a mnemonic in either case. -/
def ofMnemonic? (text : String) : Option Instruction :=
  all.find? fun i => Text.sameLetters text i.mnemonic

def category : Instruction → Category
  | .ata | .nta => .arithmetic
  | .ada | .ekc | .dal => .logic
  | .dto | .dro | .dtosna => .shift
  | .krz | .malkrz | .krz8i | .krz16i | .krz8c | .krz16c => .transfer
  | .llonys | .xtlonys | .xolonys | .xylonys
  | .clo | .niv | .llo | .xtlo | .xolo | .xylo => .compare
  | .inj => .exchange
  | .lat | .latsna => .multiply

/-- The number of operands after the opcode. -/
def arity (i : Instruction) : Nat :=
  match i.category with
  | .exchange | .multiply => 3
  | _ => 2

/-- The instruction sets the flag and writes no destination. -/
def isComparison (i : Instruction) : Bool := i.category = .compare

end Instruction

end Cpu32
