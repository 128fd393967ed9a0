import Cpu32.Proofs.Machine.Flag

/-!
# Products of words

The product of two words fits two words, unsigned as well as signed, so that its high and its low
word spell it without loss.
-/

namespace Cpu32

/-- The number that two words spell when the highest bit of the first counts negatively. -/
def twosComplementPair (high low : UInt32) : Int :=
  let n := high.toNat * UInt32.size + low.toNat
  if n < UInt64.size / 2 then n else n - UInt64.size

/-- The high and the low word of a product spell it. -/
theorem toNat_split (product : UInt64) :
    (product >>> 32).toUInt32.toNat * UInt32.size + product.toUInt32.toNat = product.toNat := by
  have hproduct : product.toNat < 18446744073709551616 := product.toNat_lt
  have hshift : (product >>> 32).toNat = product.toNat / 4294967296 := by
    rw [UInt64.toNat_shiftRight, Nat.shiftRight_eq_div_pow]
    rfl
  rw [UInt64.toNat_toUInt32, UInt64.toNat_toUInt32, hshift]
  simp only [UInt32.size]
  omega

theorem twosComplementPair_split (product : UInt64) :
    twosComplementPair (product >>> 32).toUInt32 product.toUInt32 = product.toInt64.toInt := by
  have hint : product.toInt64.toInt = product.toBitVec.toInt := rfl
  rw [hint, BitVec.toInt_eq_toNat_cond, twosComplementPair, toNat_split, UInt64.toNat_toBitVec]
  simp only [UInt64.size]
  split <;> split <;> omega

theorem toNat_productUnsigned (b a : UInt32) :
    (productUnsigned b a).toNat = b.toNat * a.toNat := by
  have hfits : b.toNat * a.toNat < 2 ^ 32 * 2 ^ 32 :=
    Nat.mul_lt_mul'' b.toNat_lt a.toNat_lt
  rw [productUnsigned, UInt64.toNat_mul, UInt32.toNat_toUInt64, UInt32.toNat_toUInt64]
  exact Nat.mod_eq_of_lt hfits

/-- No product of two signed words leaves the range of the wider one. -/
theorem toInt_productSigned (b a : UInt32) :
    (productSigned b a).toInt64.toInt = twosComplement b * twosComplement a := by
  have hb := twosComplement_bounds b
  have ha := twosComplement_bounds a
  have hmagnitude : (twosComplement b * twosComplement a).natAbs ≤ 2147483648 * 2147483648 := by
    rw [Int.natAbs_mul]
    exact Nat.mul_le_mul (by omega) (by omega)
  rw [productSigned, Int64.toInt64_toUInt64, Int64.toInt_mul, Int32.toInt_toInt64,
    Int32.toInt_toInt64, toInt_toInt32, toInt_toInt32]
  exact Int.bmod_eq_of_le_mul_two (by omega) (by omega)

namespace Instruction

/-- What `b` and `c` become by an instruction on three operands. -/
def Assigns (a b toB toC : UInt32) : Instruction → Prop
  | .inj => toB = a ∧ toC = b
  | .lat => toC.toNat * UInt32.size + toB.toNat = b.toNat * a.toNat
  | .latsna => twosComplementPair toC toB = twosComplement b * twosComplement a
  | _ => False

end Instruction

namespace Ternary

/-- The words that `b` and `c` become. -/
def words (a b : UInt32) : Ternary → UInt32 × UInt32
  | .exchange => (a, b)
  | .multiply product => ((product b a).toUInt32, (product b a >>> 32).toUInt32)

theorem assigns_words {i : Instruction} {operation : Ternary}
    (h : i.operation = .ternary operation) (a b : UInt32) :
    i.Assigns a b (operation.words a b).1 (operation.words a b).2 := by
  cases i <;> cases h
  case inj => exact ⟨rfl, rfl⟩
  case lat => exact (toNat_split _).trans (toNat_productUnsigned b a)
  case latsna => exact (twosComplementPair_split _).trans (toInt_productSigned b a)

end Ternary

end Cpu32
