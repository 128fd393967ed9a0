import Cpu32.Memory.ChaCha

/-!
# Noise

The bytes that cells hold before anything is written to them: an endless stream that a seed fixes.
A permuted congruential generator stretches the seed to a key, and the stream is the low byte of
each keystream word of ChaCha with twelve rounds.
-/

namespace Cpu32.Noise

/-- The generator's step from one state to the next. -/
def advance (state : UInt64) : UInt64 :=
  state * 6364136223846793005 + 11634580027462260723

/-- The generator's output: a xorshift of the high bits, rotated right by the top five. -/
def output (state : UInt64) : UInt32 :=
  let shifted := (((state >>> 18) ^^^ state) >>> 27).toUInt32
  let turn := (state >>> 59).toUInt32
  (shifted >>> turn) ||| (shifted <<< (32 - turn))

def key (seed : UInt64) : ChaCha.Key :=
  Vector.ofFn fun i => output (Nat.repeat advance (i.val + 1) seed)

/-- Byte `k` of the noise. -/
def byte (seed : UInt64) (k : Nat) : UInt8 :=
  (ChaCha.word 6 (key seed) k).toUInt8

end Cpu32.Noise
