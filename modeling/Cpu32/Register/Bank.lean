import Cpu32.Register

/-!
# The register bank

Eight words and the comparison flag.  Whether a word is signed is decided by the instruction that
reads it.
-/

namespace Cpu32

structure Registers where
  words : Vector UInt32 8 := Vector.replicate 8 0
  flag : Bool := false
deriving DecidableEq, Repr

namespace Registers

variable (bank : Registers) (r s : Register) (value : UInt32)

def get : UInt32 := bank.words[r.index]

def set : Registers :=
  { bank with words := bank.words.set r.index value }

def setFlag (flag : Bool) : Registers := { bank with flag }

/-- Every register with its word, in the order of the selectors. -/
def toList : List (Register × UInt32) :=
  Register.all.map fun r => (r, bank.get r)

@[simp] theorem get_set_self : (bank.set r value).get r = value := by
  simp [get, set]

theorem get_set_of_ne (h : r ≠ s) : (bank.set r value).get s = bank.get s := by
  simp [get, set, Register.index_ne h]

@[simp] theorem flag_set : (bank.set r value).flag = bank.flag := rfl

@[simp] theorem flag_setFlag (flag : Bool) : (bank.setFlag flag).flag = flag := rfl

end Registers

end Cpu32
