import Cpu32.Instruction

/-!
# Execution counts

Instructions by category, and debug traps.  Every count stays at the largest 64-bit number once it
has reached it, and so does the total.
-/

namespace Cpu32

structure Profile where
  counts : Vector Nat 7 := Vector.replicate 7 0
  traps : Nat := 0
deriving DecidableEq, Repr

namespace Profile

/-- The largest count. -/
def cap : Nat := UInt64.size - 1

variable (p : Profile)

def count (c : Category) : Nat := p.counts[c.index]

/-- Counts one more instruction of a category. -/
def record (c : Category) : Profile :=
  { p with counts := p.counts.set c.index (min cap (p.count c + 1)) }

def recordTrap : Profile := { p with traps := min cap (p.traps + 1) }

/-- All instructions together; traps are not among them. -/
def instructions : Nat :=
  min cap (Category.all.foldr (fun c n => p.count c + n) 0)

/-- Every category with its count. -/
def toList : List (Category × Nat) :=
  Category.all.map fun c => (c, p.count c)

end Profile

end Cpu32
