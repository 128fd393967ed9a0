import Cpu32.Instruction

/-!
# Keywords

The words that begin a statement, and how many words each of them takes.
-/

namespace Cpu32.Source

/-- The order in which a statement names its operands. -/
inductive Order
  | sourceFirst
  | destinationFirst
deriving DecidableEq, Repr

inductive Keyword
  /-- An instruction with two operands that is no comparison. -/
  | binary (instruction : Instruction)
  /-- An exchange, whose operands are reversed as a whole. -/
  | exchange
  /-- A multiplication, whose two destinations stay in place. -/
  | multiply (instruction : Instruction)
  /-- A comparison, which is named after its operands. -/
  | comparison
  /-- The complement of an operand. -/
  | complement
  /-- A label for the next instruction. -/
  | bindNext
  /-- A label for the previous instruction. -/
  | bindPrevious
  | exporting
  | importing
  | order (order : Order)
  /-- A word without meaning so far. -/
  | reserved
deriving DecidableEq, Repr

namespace Keyword

/-- Every keyword in every spelling.  Some instructions have a second spelling. -/
def table : List (String × Keyword) :=
  [("krz", .binary .krz), ("kRz", .binary .krz),
    ("malkrz", .binary .malkrz), ("malkRz", .binary .malkrz),
    ("ata", .binary .ata), ("nta", .binary .nta), ("ada", .binary .ada), ("ekc", .binary .ekc),
    ("dal", .binary .dal), ("dto", .binary .dto),
    ("dro", .binary .dro), ("dRo", .binary .dro), ("dtosna", .binary .dtosna),
    ("krz8i", .binary .krz8i), ("krz16i", .binary .krz16i),
    ("krz8c", .binary .krz8c), ("krz16c", .binary .krz16c),
    ("inj", .exchange), ("lat", .multiply .lat), ("latsna", .multiply .latsna),
    ("fi", .comparison), ("nac", .complement),
    ("nll", .bindNext), ("l'", .bindPrevious),
    ("kue", .exporting), ("xok", .importing),
    ("'c'i", .order .destinationFirst), ("'i'c", .order .sourceFirst),
    ("kak", .reserved)]

/-- The keyword of a word, whose case matters. -/
def ofText? (word : String) : Option Keyword := table.lookup word

/-- The number of words that follow a keyword. -/
def words : Keyword → Nat
  | .binary _ => 2
  | .exchange | .multiply _ | .comparison => 3
  | .complement | .bindNext | .bindPrevious | .exporting | .importing => 1
  | .order _ | .reserved => 0

end Keyword

end Cpu32.Source
