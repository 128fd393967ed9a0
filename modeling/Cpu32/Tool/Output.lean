import Cpu32.Log.Level
import Cpu32.Text.Align
import Cpu32.Text.Fixed

/-!
# Output of the tools

What a tool writes, piece by piece.  Measured times are kept apart from their text, because they
differ from one run to the next.
-/

namespace Cpu32.Tool

open Cpu32.Log (Level)

/-- Times are counted in nanoseconds. -/
abbrev Duration := Nat

/-- The result of one benchmark. -/
structure Measurement where
  name : String
  iterations : Nat
  total : Duration
  fastest : Duration
  slowest : Duration
  /-- The instructions of one run. -/
  instructions : Nat
deriving DecidableEq, Repr

namespace Measurement

def average (m : Measurement) : Duration := Text.roundDiv m.total (max 1 m.iterations)

/-- Microseconds with three places. -/
def micros (d : Duration) : String := Text.fixed 3 d 1000

/-- The columns of the table of results. -/
def columns (cells : List String) : String :=
  let widths := [(Text.Alignment.left, 22), (.right, 7), (.right, 11), (.right, 11), (.right, 11),
    (.right, 10), (.right, 8), (.right, 9)]
  "  " ++ " ".intercalate (List.zipWith (fun (a, w) cell => Text.align a w cell) widths cells)

def header : String :=
  columns ["benchmark", "iters", "avg us", "min us", "max us", "instrs", "ns/instr", "Minstr/s"]

def line (m : Measurement) : String :=
  let average := m.average
  let perInstruction := if m.instructions = 0 then Text.fixed 2 0 1
    else Text.fixed 2 average m.instructions
  let perMicrosecond := if average = 0 then Text.fixed 1 0 1
    else Text.fixed 1 (1000 * m.instructions) average
  columns [m.name, toString m.iterations, micros average, micros m.fastest, micros m.slowest,
    toString m.instructions, perInstruction, perMicrosecond]

end Measurement

inductive Output
  /-- A line of results. -/
  | line (text : String)
  | measurement (m : Measurement)
  /-- A message of the log. -/
  | log (level : Level) (message : String)
  /-- The message of the log on the time that a run took. -/
  | elapsed (d : Duration)
  /-- Lines of a report on an error, with an empty line after them. -/
  | diagnostic (lines : List String)
deriving DecidableEq, Repr

/-- The message on the time that a run took. -/
def elapsedMessage (milliseconds : String) : String := s!"Finished in {milliseconds} ms"

/-- Milliseconds with three places. -/
def millis (d : Duration) : String := Text.fixed 3 d 1000000

end Cpu32.Tool
