/-!
# Big-endian words

A word lies in memory and in images with its most significant byte first.
-/

namespace Cpu32

/-- The low `n` bytes of a word, most significant first. -/
def bigEndian : Nat → UInt32 → List UInt8
  | 0, _ => []
  | n + 1, word => (word >>> (8 * UInt32.ofNat n)).toUInt8 :: bigEndian n word

/-- The word whose bytes, most significant first, end in the given ones. -/
def ofBigEndian (bytes : List UInt8) : UInt32 :=
  bytes.foldl (fun word b => (word <<< 8) ||| b.toUInt32) 0

@[simp] theorem length_bigEndian (n : Nat) (word : UInt32) : (bigEndian n word).length = n := by
  induction n with
  | zero => rfl
  | succ n ih => simp [bigEndian, ih]

end Cpu32
