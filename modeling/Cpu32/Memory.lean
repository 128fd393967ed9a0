import Std.Data.ExtTreeMap
import Cpu32.Text.Hex
import Cpu32.Width

/-!
# Memory

Sparse byte-addressed memory of 2^32 cells.  A cell that was never written takes the next byte of
the noise when it is first read, and keeps it.  Wider accesses are big-endian and go cell by cell,
lowest offset first; addresses wrap.
-/

namespace Cpu32

/-- The cells touched so far, the noise, and how many bytes of it were drawn. -/
structure Memory where
  cells : Std.ExtTreeMap UInt32 UInt8
  noise : Nat → UInt8
  drawn : Nat

namespace Memory

/-- No cell touched. -/
def fresh (noise : Nat → UInt8) : Memory := ⟨∅, noise, 0⟩

/-- The number of cells touched. -/
def size (m : Memory) : Nat := m.cells.size

/-- Every touched cell in address order. -/
def toList (m : Memory) : List (UInt32 × UInt8) := m.cells.toList

/-- The byte at an address, and the memory that holds it from now on. -/
def readCell (m : Memory) (address : UInt32) : UInt8 × Memory :=
  match m.cells[address]? with
  | some b => (b, m)
  | none =>
      let b := m.noise m.drawn
      (b, { m with cells := m.cells.insert address b, drawn := m.drawn + 1 })

def writeCell (m : Memory) (address : UInt32) (b : UInt8) : Memory :=
  { m with cells := m.cells.insert address b }

/-- The bytes of `n` cells from an address on. -/
def readBytes (m : Memory) (address : UInt32) : Nat → List UInt8 × Memory
  | 0 => ([], m)
  | n + 1 =>
      let (b, m) := m.readCell address
      let (rest, m) := m.readBytes (address + 1) n
      (b :: rest, m)

def writeBytes (m : Memory) (address : UInt32) : List UInt8 → Memory
  | [] => m
  | b :: rest => (m.writeCell address b).writeBytes (address + 1) rest

/-- The big-endian value of the given width at an address. -/
def read (m : Memory) (w : Width) (address : UInt32) : UInt32 × Memory :=
  let (bytes, m) := m.readBytes address w.size
  (ofBigEndian bytes, m)

/-- Writes the low bytes of a value. -/
def write (m : Memory) (w : Width) (address value : UInt32) : Memory :=
  m.writeBytes address (w.bytes value)

/-- An image reaches past the top of the address space. -/
structure Overflow where
  base : UInt32
  length : Nat
deriving DecidableEq, Repr

def Overflow.message (e : Overflow) : String :=
  s!"program of {e.length} bytes does not fit at base 0x{Text.hex 8 e.base.toNat}"

/-- Copies an image to consecutive cells, all of them or none. -/
def load (m : Memory) (base : UInt32) (image : List UInt8) : Except Overflow Memory :=
  if base.toNat + image.length ≤ UInt32.size then .ok (m.writeBytes base image)
  else .error ⟨base, image.length⟩

end Memory

end Cpu32
