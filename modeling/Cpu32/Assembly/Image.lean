import Std.Data.ExtTreeMap

/-!
# Images

An assembled program: its bytes, the address they are meant for, and the addresses of the labels
that it exports.  Only the bytes are kept in a file.
-/

namespace Cpu32

structure Image where
  base : UInt32
  bytes : List UInt8
  symbols : Std.ExtTreeMap String UInt32 := ∅

namespace Image

def size (image : Image) : Nat := image.bytes.length

end Image

end Cpu32
