import Cpu32.Text.Letters

/-!
# Registers

Seven general registers and the program counter, numbered by the three selector bits of an operand.
-/

namespace Cpu32

inductive Register
  | f0
  | f1
  | f2
  | f3
  | f4
  | f5
  | f6
  | xx
deriving DecidableEq, Repr

namespace Register

/-- All registers in the order of their selectors. -/
def all : List Register := [f0, f1, f2, f3, f4, f5, f6, xx]

/-- The selector of a register. -/
def index : Register → Fin 8
  | .f0 => 0
  | .f1 => 1
  | .f2 => 2
  | .f3 => 3
  | .f4 => 4
  | .f5 => 5
  | .f6 => 6
  | .xx => 7

def ofFin : Fin 8 → Register
  | 0 => .f0
  | 1 => .f1
  | 2 => .f2
  | 3 => .f3
  | 4 => .f4
  | 5 => .f5
  | 6 => .f6
  | 7 => .xx

@[simp] theorem ofFin_index (r : Register) : ofFin r.index = r := by cases r <;> rfl

theorem index_ne {r s : Register} (h : r ≠ s) : r.index.val ≠ s.index.val := fun hv =>
  h (by rw [← ofFin_index r, Fin.ext hv, ofFin_index])

/-- The selector as a byte of an image. -/
def code (r : Register) : UInt8 := UInt8.ofNat r.index.val

/-- The register that the low three bits select. -/
def select (bits : UInt8) : Register :=
  ofFin ⟨bits.toNat % 8, Nat.mod_lt _ (by decide)⟩

def name : Register → String
  | .f0 => "F0"
  | .f1 => "F1"
  | .f2 => "F2"
  | .f3 => "F3"
  | .f4 => "F4"
  | .f5 => "F5"
  | .f6 => "F6"
  | .xx => "XX"

/-- A text or a number that denotes no register. -/
structure Unknown where
  text : String
deriving DecidableEq, Repr

def Unknown.message (e : Unknown) : String := s!"invalid register {e.text}"

/-- The register of a selector, which has to be less than eight. -/
def ofIndex (i : UInt8) : Except Unknown Register :=
  if i < 8 then .ok (select i) else .error ⟨toString i.toNat⟩

/-- The register of a name in either case. -/
def ofName? (text : String) : Option Register :=
  all.find? fun r => Text.sameLetters r.name text

def ofName (text : String) : Except Unknown Register :=
  match ofName? text with
  | some r => .ok r
  | none => .error ⟨text⟩

end Register

end Cpu32
