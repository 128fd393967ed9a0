import Cpu32.ModRM

/-!
# Reading operands

Operands are decoded from anything that yields bytes one after another: a list of bytes, which may
run short, or the memory of a running machine, which never does.
-/

namespace Cpu32

/-- Bytes in sequence.  A source may fetch a whole trailing value at once; otherwise it is gathered
byte by byte. -/
class ByteSource (m : Type → Type) [Monad m] where
  next : m UInt8
  trailing : Width → m UInt32

variable {m : Type → Type} [Monad m]

/-- Reads `n` more bytes into the low end of a word. -/
def gather (next : m UInt8) : Nat → UInt32 → m UInt32
  | 0, word => pure word
  | n + 1, word => do
      let b ← next
      gather next n ((word <<< 8) ||| b.toUInt32)

/-- Reads one descriptor byte and the trailing value that its mode asks for. -/
def ModRM.decode [ByteSource m] : m ModRM := do
  let code ← ByteSource.next
  let head := masked (code >>> 5) code 0
  match head.width with
  | some w => do
      let value ← ByteSource.trailing w
      return { head with value }
  | none => return head

/-- A list of bytes ended before the value that was asked for. -/
structure Shortage where
  requested : Nat
  available : Nat
deriving DecidableEq, Repr

def Shortage.message (e : Shortage) : String :=
  s!"unexpected end of bytecode: requested {e.requested} bytes, {e.available} available"

/-- Reading from a list, whose rest is the state.  A read that falls short consumes nothing. -/
abbrev SliceM := EStateM Shortage (List UInt8)

namespace SliceM

def next : SliceM UInt8
  | b :: rest => .ok b rest
  | [] => .error ⟨1, 0⟩ []

/-- Takes all bytes of the value, or none of them. -/
def trailing (w : Width) : SliceM UInt32 := fun bytes =>
  if bytes.length < w.size then .error ⟨w.size, bytes.length⟩ bytes
  else .ok (ofBigEndian (bytes.take w.size)) (bytes.drop w.size)

instance : ByteSource SliceM where
  next := next
  trailing := trailing

end SliceM

end Cpu32
