import Cpu32.Source.File
import Cpu32.Text.Align
import Cpu32.Text.Lines

/-!
# Diagnostics

An error in a source file is shown with the line it stands in and a mark under its column.
-/

namespace Cpu32.Source

/-- The lines that point to a position of a source text.  A position past the last line has none. -/
def excerpt (source : String) (position : Position) : List String :=
  match (Text.lines source)[position.line - 1]? with
  | none => []
  | some line =>
      let number := Text.align .right 4 (toString position.line)
      ["  |", s!"{number} | {Text.dropCarriageReturns line}",
        "  | " ++ "".pushn ' ' (position.column - 1) ++ "^"]

/-- The lines of the report on an error. -/
def diagnostic (file source : String) (e : Error) : List String :=
  [s!"error: {e.reason}", s!" --> {file}:{e.position.line}:{e.position.column}"] ++
    excerpt source e.position

end Cpu32.Source
