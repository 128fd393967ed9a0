import Cpu32.BigEndian

/-!
# Widths of trailing values and of memory accesses

An immediate or a displacement takes one, two or four bytes, and so does an access to memory.  The
low four bits of an operand's mode select the width of its trailing value.
-/

namespace Cpu32

inductive Width
  | byte
  | half
  | word
deriving DecidableEq, Repr

namespace Width

/-- The number of bytes. -/
def size : Width → Nat
  | .byte => 1
  | .half => 2
  | .word => 4

/-- The least width that holds the value without loss. -/
def ofValue (value : UInt32) : Width :=
  if value ≤ 0xFF then .byte
  else if value ≤ 0xFFFF then .half
  else .word

/-- The width that the low four bits of a mode select, if they select one. -/
def ofMode? (mode : UInt8) : Option Width :=
  match mode &&& 0x0F with
  | 4 => some .byte
  | 5 => some .half
  | 6 => some .word
  | _ => none

/-- The low bits of the modes that carry a value of this width. -/
def modeBits : Width → UInt8
  | .byte => 4
  | .half => 5
  | .word => 6

/-- The value cut to its low bytes. -/
def narrow : Width → UInt32 → UInt32
  | .byte, value => value &&& 0xFF
  | .half, value => value &&& 0xFFFF
  | .word, value => value

/-- The low bytes of the value, most significant first. -/
def bytes (w : Width) (value : UInt32) : List UInt8 :=
  bigEndian w.size value

/-- The top bytes of a word, as a number. -/
def top : Width → UInt32 → UInt32
  | .byte, value => value >>> 24
  | .half, value => value >>> 16
  | .word, value => value

/-- The word `old` with its top bytes replaced by the low bytes of `value`. -/
def replaceTop : Width → UInt32 → UInt32 → UInt32
  | .byte, old, value => (old &&& (0x00FFFFFF : UInt32)) ||| (value <<< 24)
  | .half, old, value => (old &&& (0x0000FFFF : UInt32)) ||| (value <<< 16)
  | .word, _, value => value

/-- The low bytes of the value, read as a two's-complement number and widened to a word. -/
def signExtend : Width → UInt32 → UInt32
  | .byte, value => value.toUInt8.toInt8.toInt32.toUInt32
  | .half, value => value.toUInt16.toInt16.toInt32.toUInt32
  | .word, value => value

end Width

end Cpu32
