import Cpu32.Proofs.Machine.Flag

/-!
# The arithmetic of two-operand instructions

What an instruction stores is a number computed from those that its operands stand for, cut to 32
bits.
-/

namespace Cpu32

/-- A word is a number cut to 32 bits if it has the same remainder. -/
theorem ofInt_eq_of_emod {n : Int} {word : UInt32} (h : n % UInt32.size = word.toNat) :
    UInt32.ofInt n = word := by
  apply UInt32.toNat_inj.mp
  have hcut : n % 2 ^ 32 = word.toNat := h
  rw [UInt32.ofInt, hcut, Int.toNat_natCast, UInt32.ofNat_toNat]

theorem ofInt_toNat (word : UInt32) : UInt32.ofInt word.toNat = word := by
  apply ofInt_eq_of_emod
  have hword : word.toNat < 4294967296 := word.toNat_lt
  simp only [UInt32.size]
  omega

/-- A word is shorter than any power of two from its width on. -/
theorem toNat_lt_pow (word : UInt32) {n : Nat} (hn : 32 ≤ n) : word.toNat < Nat.pow 2 n :=
  Nat.lt_of_lt_of_le word.toNat_lt (Nat.pow_le_pow_right Nat.two_pos hn)

theorem ofInt_shiftRight (word n : UInt32) :
    UInt32.ofInt (word.toNat / Nat.pow 2 n.toNat) = shiftRight word n := by
  have hlaw : (shiftRight word n).toNat = word.toNat / Nat.pow 2 n.toNat := by
    rw [shiftRight]
    by_cases hn : n < 32
    · have hsmall : n.toNat < 32 := hn
      rw [if_pos hn, UInt32.toNat_shiftRight, Nat.mod_eq_of_lt hsmall, Nat.shiftRight_eq_div_pow]
      rfl
    · have hlarge : 32 ≤ n.toNat := Nat.le_of_not_lt hn
      rw [if_neg hn, Nat.div_eq_of_lt (toNat_lt_pow word hlarge)]
      rfl
  rw [← ofInt_toNat (shiftRight word n), hlaw, Int.natCast_ediv]

theorem ofInt_shiftLeft (word n : UInt32) :
    UInt32.ofInt (word.toNat * Nat.pow 2 n.toNat) = shiftLeft word n := by
  apply ofInt_eq_of_emod
  rw [← Int.natCast_mul, ← Int.natCast_emod, shiftLeft]
  by_cases hn : n < 32
  · have hsmall : n.toNat < 32 := hn
    rw [if_pos hn, UInt32.toNat_shiftLeft, Nat.mod_eq_of_lt hsmall, Nat.shiftLeft_eq]
    rfl
  · have hlarge : 32 ≤ n.toNat := Nat.le_of_not_lt hn
    have hpower : UInt32.size ∣ Nat.pow 2 n.toNat := Nat.pow_dvd_pow 2 hlarge
    rw [if_neg hn, Nat.mod_eq_zero_of_dvd (Nat.dvd_mul_left_of_dvd hpower _)]
    rfl

theorem ofInt_toInt (x : Int32) : UInt32.ofInt x.toInt = x.toUInt32 := by
  have hsigned : x.toInt = x.toBitVec.toInt := rfl
  have hunsigned : x.toUInt32.toNat = x.toBitVec.toNat := rfl
  have hlt : x.toBitVec.toNat < 4294967296 := x.toBitVec.isLt
  apply ofInt_eq_of_emod
  rw [hsigned, hunsigned, BitVec.toInt_eq_toNat_cond]
  simp only [UInt32.size]
  split <;> omega

theorem toInt_shiftRight (word : UInt32) {k : Nat} (hk : k < 32) :
    (word.toInt32 >>> (UInt32.ofNat k).toInt32).toInt = twosComplement word / Nat.pow 2 k := by
  have hcount : ∀ k < 32, ((BitVec.ofNat 32 k).smod 32).toNat = k := by decide
  have hshift : (word.toInt32 >>> (UInt32.ofNat k).toInt32).toInt =
      (word.toBitVec.sshiftRight ((BitVec.ofNat 32 k).smod 32).toNat).toInt :=
    congrArg BitVec.toInt (Int32.toBitVec_shiftRight ..)
  rw [hshift, hcount k hk, BitVec.toInt_sshiftRight, Int.shiftRight_eq_div_pow, ← toInt_toInt32]
  rfl

/-- All bits but the sign are gone after a shift by one less than the width. -/
theorem twosComplement_ediv (word : UInt32) {k : Nat} (hk : 31 ≤ k) :
    twosComplement word / Nat.pow 2 k = if twosComplement word < 0 then -1 else 0 := by
  have hpower : 2147483648 ≤ Nat.pow 2 k := Nat.pow_le_pow_right Nat.two_pos hk
  have hrange := twosComplement_bounds word
  split
  · rename_i hneg
    exact Int.ediv_eq_neg_one_of_neg_of_le hneg (by omega)
  · rename_i hpos
    exact Int.ediv_eq_zero_of_lt (by omega) (by omega)

theorem ofInt_shiftRightSigned (word n : UInt32) :
    UInt32.ofInt (twosComplement word / Nat.pow 2 n.toNat) = shiftRightSigned word n := by
  rw [shiftRightSigned]
  by_cases hn : n < 32
  · have hsmall : n.toNat < 32 := hn
    have hshift := toInt_shiftRight word hsmall
    rw [UInt32.ofNat_toNat] at hshift
    rw [if_pos hn, ← ofInt_toInt, hshift]
  · have hlarge : 31 ≤ n.toNat := Nat.le_of_succ_le (Nat.le_of_not_lt hn)
    rw [if_neg hn, ← ofInt_toInt, twosComplement_ediv word hlarge]
    have hshift := toInt_shiftRight word (k := 31) (by decide)
    rw [twosComplement_ediv word (Nat.le_refl 31)] at hshift
    rw [← hshift]
    rfl

namespace Instruction

/-- The number that the destination of an instruction becomes, before it is cut to 32 bits. -/
def law (b a : UInt32) : Instruction → Option Int
  | .ata => some (b.toNat + a.toNat)
  | .nta => some (b.toNat - a.toNat)
  | .ada => some (Nat.land b.toNat a.toNat)
  | .ekc => some (Nat.lor b.toNat a.toNat)
  | .dto => some (b.toNat / Nat.pow 2 a.toNat)
  | .dro => some (b.toNat * Nat.pow 2 a.toNat)
  | .dtosna => some (twosComplement b / Nat.pow 2 a.toNat)
  | .dal => some (UInt32.size - 1 - Nat.xor b.toNat a.toNat)
  | .krz | .malkrz => some a.toNat
  | _ => none

/-- An instruction that combines its operands stores what its law says. -/
theorem law_of_combine {i : Instruction} {f : UInt32 → UInt32 → UInt32}
    (h : i.operation = .binary (.combine f)) (b a : UInt32) :
    ∃ n, i.law b a = some n ∧ UInt32.ofInt n = f b a := by
  have hb : b.toNat < 4294967296 := b.toNat_lt
  have ha : a.toNat < 4294967296 := a.toNat_lt
  cases i <;> cases h
  case ata =>
    refine ⟨_, rfl, ofInt_eq_of_emod ?_⟩
    simp only [UInt32.size, UInt32.toNat_add]
    omega
  case nta =>
    refine ⟨_, rfl, ofInt_eq_of_emod ?_⟩
    simp only [UInt32.size, UInt32.toNat_sub]
    omega
  case ada => exact ⟨_, rfl, ofInt_toNat (b &&& a)⟩
  case ekc => exact ⟨_, rfl, ofInt_toNat (b ||| a)⟩
  case dto => exact ⟨_, rfl, ofInt_shiftRight b a⟩
  case dro => exact ⟨_, rfl, ofInt_shiftLeft b a⟩
  case dtosna => exact ⟨_, rfl, ofInt_shiftRightSigned b a⟩
  case dal =>
    have hxor : Nat.xor b.toNat a.toNat = (b ^^^ a).toNat := rfl
    have hlt : (b ^^^ a).toNat < 4294967296 := (b ^^^ a).toNat_lt
    refine ⟨_, rfl, ofInt_eq_of_emod ?_⟩
    rw [hxor, UInt32.toNat_not]
    simp only [UInt32.size]
    omega

end Instruction

end Cpu32
