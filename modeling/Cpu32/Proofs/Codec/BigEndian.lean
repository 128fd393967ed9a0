import Cpu32.Width

/-!
# Reading words back

The bytes of a value and the value of some bytes determine each other at every width, up to the
bits that the width leaves out.
-/

namespace Cpu32

/-- Putting a byte at the low end of a word shifts the word by one digit to the base 256. -/
theorem toNat_shiftByte (word : UInt32) (b : UInt8) :
    ((word <<< 8) ||| b.toUInt32).toNat = (word.toNat * 256 + b.toNat) % 4294967296 := by
  have hb : b.toNat < 2 ^ 8 := b.toNat_lt
  have hshift : (word <<< 8).toNat = (word.toNat % 2 ^ 24) <<< 8 := by
    simp only [UInt32.toNat_shiftLeft, Nat.shiftLeft_eq]
    change word.toNat * 256 % 4294967296 = word.toNat % 16777216 * 256
    omega
  rw [UInt32.toNat_or, hshift, UInt8.toNat_toUInt32, ← Nat.shiftLeft_add_eq_or_of_lt hb,
    Nat.shiftLeft_eq]
  change word.toNat % 16777216 * 256 + b.toNat = _
  change b.toNat < 256 at hb
  omega

/-- The byte of a word that stands above `n` others. -/
theorem toNat_byteAbove (word : UInt32) {n : Nat} (hn : n < 4) :
    (word >>> (8 * UInt32.ofNat n)).toUInt8.toNat = word.toNat / Nat.pow 256 n % 256 := by
  have hshift : (8 * UInt32.ofNat n).toNat % 32 = 8 * n := by
    simp only [UInt32.toNat_mul, UInt32.toNat_ofNat', UInt32.reduceToNat]
    omega
  rw [UInt32.toNat_toUInt8, UInt32.toNat_shiftRight, hshift, Nat.shiftRight_eq_div_pow, Nat.pow_mul]
  rfl

theorem foldl_shiftByte (bytes : List UInt8) (n : Nat) :
    bytes.foldl (fun (word : UInt32) b => (word <<< 8) ||| b.toUInt32) (UInt32.ofNat n) =
      UInt32.ofNat (bytes.foldl (fun n b => n * 256 + b.toNat) n) := by
  induction bytes generalizing n with
  | nil => rfl
  | cons b rest ih =>
      have hpush : (UInt32.ofNat n <<< 8) ||| b.toUInt32 = UInt32.ofNat (n * 256 + b.toNat) := by
        apply UInt32.toNat_inj.mp
        rw [toNat_shiftByte, UInt32.toNat_ofNat', UInt32.toNat_ofNat']
        omega
      rw [List.foldl_cons, List.foldl_cons, hpush, ih]

/-- A word is the number that its bytes spell to the base 256, cut to 32 bits. -/
theorem ofBigEndian_eq_ofNat (bytes : List UInt8) :
    ofBigEndian bytes = UInt32.ofNat (bytes.foldl (fun n b => n * 256 + b.toNat) 0) :=
  foldl_shiftByte bytes 0

theorem getElem?_bigEndian (word : UInt32) {n k : Nat} (hk : k < n) :
    (bigEndian n word)[k]? = some (word >>> (8 * UInt32.ofNat (n - 1 - k))).toUInt8 := by
  induction n generalizing k with
  | zero => cases hk
  | succ n ih =>
      cases k with
      | zero => rfl
      | succ k =>
          rw [bigEndian, List.getElem?_cons_succ, ih (Nat.lt_of_succ_lt_succ hk)]
          congr 5
          omega

namespace Width

theorem size_le (w : Width) : w.size ≤ 4 := by
  cases w <;> decide

/-- The byte of a value at a place, the most significant one at the first. -/
theorem getElem?_bytes (w : Width) (value : UInt32) {k : Nat} (hk : k < w.size) :
    (w.bytes value)[k]? = some (UInt8.ofNat (value.toNat / Nat.pow 256 (w.size - 1 - k))) := by
  have hsize := w.size_le
  rw [bytes, getElem?_bigEndian value hk]
  congr 1
  apply UInt8.toNat_inj.mp
  rw [toNat_byteAbove value (by omega), UInt8.toNat_ofNat']

theorem toNat_narrow (w : Width) (value : UInt32) :
    (w.narrow value).toNat = match w with
      | .byte => value.toNat % 256
      | .half => value.toNat % 65536
      | .word => value.toNat := by
  cases w with
  | byte => exact Nat.and_two_pow_sub_one_eq_mod value.toNat 8
  | half => exact Nat.and_two_pow_sub_one_eq_mod value.toNat 16
  | word => rfl

/-- The bytes of a value read back as the value cut to its width. -/
@[simp] theorem ofBigEndian_bytes (w : Width) (value : UInt32) :
    ofBigEndian (w.bytes value) = w.narrow value := by
  apply UInt32.toNat_inj.mp
  have hvalue : value.toNat < 4294967296 := value.toNat_lt
  rw [toNat_narrow]
  cases w <;>
    simp (disch := decide) only [ofBigEndian, bytes, bigEndian, size, List.foldl, toNat_shiftByte,
      toNat_byteAbove, UInt32.toNat_zero, Nat.pow_eq, Nat.reducePow] <;>
    omega

@[simp] theorem length_bytes (w : Width) (value : UInt32) : (w.bytes value).length = w.size := by
  simp [bytes]

/-- The bytes of a value do not reach around the address space. -/
theorem length_bytes_le (w : Width) (value : UInt32) : (w.bytes value).length ≤ UInt32.size := by
  rw [length_bytes]
  exact Nat.le_trans w.size_le (by decide)

/-- A value is read from exactly the bytes that it has. -/
theorem bytes_ofBigEndian (w : Width) {bytes : List UInt8} (h : bytes.length = w.size) :
    w.bytes (ofBigEndian bytes) = bytes := by
  have hlt (b : UInt8) : b.toNat < 256 := b.toNat_lt
  cases w with
  | byte =>
      obtain _ | ⟨b₀, _ | ⟨_, _⟩⟩ := bytes <;> simp [size] at h
      have h₀ := hlt b₀
      simp only [Width.bytes, bigEndian, size, List.cons.injEq, and_true]
      apply UInt8.toNat_inj.mp
      simp (disch := decide) only [ofBigEndian, List.foldl, toNat_shiftByte,
        toNat_byteAbove, UInt32.toNat_zero, Nat.pow_eq, Nat.reducePow]
      omega
  | half =>
      obtain _ | ⟨b₁, _ | ⟨b₀, _ | ⟨_, _⟩⟩⟩ := bytes <;> simp [size] at h
      have h₀ := hlt b₀
      have h₁ := hlt b₁
      simp only [Width.bytes, bigEndian, size, List.cons.injEq, and_true]
      refine ⟨UInt8.toNat_inj.mp ?_, UInt8.toNat_inj.mp ?_⟩ <;>
        simp (disch := decide) only [ofBigEndian, List.foldl, toNat_shiftByte,
          toNat_byteAbove, UInt32.toNat_zero, Nat.pow_eq, Nat.reducePow] <;>
        omega
  | word =>
      obtain _ | ⟨b₃, _ | ⟨b₂, _ | ⟨b₁, _ | ⟨b₀, _ | ⟨_, _⟩⟩⟩⟩⟩ := bytes <;> simp [size] at h
      have h₀ := hlt b₀
      have h₁ := hlt b₁
      have h₂ := hlt b₂
      have h₃ := hlt b₃
      simp only [Width.bytes, bigEndian, size, List.cons.injEq, and_true]
      refine ⟨UInt8.toNat_inj.mp ?_, UInt8.toNat_inj.mp ?_, UInt8.toNat_inj.mp ?_,
        UInt8.toNat_inj.mp ?_⟩ <;>
        simp (disch := decide) only [ofBigEndian, List.foldl, toNat_shiftByte,
          toNat_byteAbove, UInt32.toNat_zero, Nat.pow_eq, Nat.reducePow] <;>
        omega

end Width

end Cpu32
