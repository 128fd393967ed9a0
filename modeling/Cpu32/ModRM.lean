import Cpu32.Addressing
import Cpu32.Text.Hex

/-!
# Operand descriptors

Each operand of an encoded instruction is one byte, three bits of register selector above five bits
of mode, followed by the trailing value that the mode asks for:

| mode | form | trailing bytes |
| --- | --- | --- |
| `00` | register | 0 |
| `04` to `06` | immediate | 1, 2, 4 |
| `10` | memory at register | 0 |
| `14` to `16` | memory at register and displacement | 1, 2, 4 |
| `18` to `1F` | memory at two registers | 0 |

Any other mode has a length but no meaning.
-/

namespace Cpu32

/-- A descriptor with its trailing value.  The two bytes may exceed the bits that are encoded. -/
structure ModRM where
  reg : UInt8
  mode : UInt8
  value : UInt32
deriving DecidableEq, Repr

namespace ModRM

/-- The descriptor with its selector and mode cut to the bits that are encoded. -/
def masked (reg mode : UInt8) (value : UInt32) : ModRM :=
  ⟨reg &&& 0x07, mode &&& 0x1F, value⟩

def register (r : Register) : ModRM := masked r.code 0x00 0

/-- An immediate in the narrowest width that holds it. -/
def immediate (value : UInt32) : ModRM :=
  masked 0 (0x04 ||| (Width.ofValue value).modeBits) value

/-- An immediate of full width, whatever its value. -/
def wideImmediate (value : UInt32) : ModRM :=
  masked 0 (0x04 ||| Width.word.modeBits) value

def indirect (base : Register) : ModRM := masked base.code 0x10 0

def displaced (base : Register) (displacement : UInt32) : ModRM :=
  masked base.code (0x14 ||| (Width.ofValue displacement).modeBits) displacement

def indexed (base index : Register) : ModRM := masked base.code (0x18 ||| index.code) 0

variable (m : ModRM)

/-- The first byte of the encoded operand. -/
def code : UInt8 := (m.reg <<< 5) ||| (m.mode &&& 0x1F)

/-- The width of the trailing value, if the mode carries one. -/
def width : Option Width := Width.ofMode? m.mode

/-- The number of bytes of the encoded operand. -/
def size : Nat :=
  1 + match m.width with
    | some w => w.size
    | none => 0

/-- The descriptor cut to what its encoding keeps. -/
def narrowed : ModRM :=
  masked m.reg m.mode <|
    match m.width with
    | some w => w.narrow m.value
    | none => 0

def encode : List UInt8 :=
  m.code ::
    match m.width with
    | some w => w.bytes m.value
    | none => []

@[simp] theorem length_encode : m.encode.length = m.size := by
  simp only [encode, size, List.length_cons]
  cases m.width <;> simp [Width.bytes, Nat.add_comm]

/-- What the descriptor denotes; `none` for a mode without meaning. -/
def addressing : Option Addressing :=
  let base := Register.select m.reg
  if m.mode = 0x00 then some (.register base)
  else if 0x04 ≤ m.mode ∧ m.mode ≤ 0x06 then m.width.map (.immediate m.value)
  else if m.mode = 0x10 then some (.memory (.indirect base))
  else if 0x14 ≤ m.mode ∧ m.mode ≤ 0x16 then some (.memory (.displaced base m.value))
  else if 0x18 ≤ m.mode ∧ m.mode ≤ 0x1F then
    some (.memory (.indexed base (Register.select m.mode)))
  else none

/-- The operand as it is written in source text, or its first byte when it has no meaning. -/
def text : String :=
  match m.addressing with
  | some form => form.text
  | none => "?" ++ Text.hex 2 m.code.toNat

end ModRM

end Cpu32
