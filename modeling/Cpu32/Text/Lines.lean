/-!
# Lines of a text

Lines end at a line feed.  The last line need not end, and a text that ends in a line feed has no
empty line after it.
-/

namespace Cpu32.Text

/-- The lines of a list of characters, without their line feeds. -/
def splitLines : List Char → List (List Char)
  | [] => []
  | c :: rest =>
      if c = '\n' then [] :: splitLines rest
      else match splitLines rest with
        | [] => [[c]]
        | line :: lines => (c :: line) :: lines

/-- The lines of a text, without their line feeds. -/
def lines (text : String) : List String :=
  (splitLines text.toList).map String.ofList

/-- The text without the carriage returns at its end. -/
def dropCarriageReturns (text : String) : String :=
  String.ofList (text.toList.reverse.dropWhile (· = '\r')).reverse

end Cpu32.Text
