/-!
# Positions in source text

Lines and columns count from one; lines end at a line feed.
-/

namespace Cpu32.Source

structure Position where
  line : Nat
  column : Nat
deriving DecidableEq, Repr

/-- The position before the first character. -/
def Position.start : Position := ⟨1, 0⟩

/-- The position of the character `c` that follows a position.  A line feed stands in front of the
line that it begins. -/
def Position.advance (p : Position) (c : Char) : Position :=
  if c = '\n' then ⟨p.line + 1, 0⟩ else ⟨p.line, p.column + 1⟩

end Cpu32.Source
