/-!
# Columns of text

Padding of a text to a number of characters.  A text that is already as wide as the column is never
cut by padding, and padding never changes a text that fits exactly.
-/

namespace Cpu32.Text

/-- Where a text stands in a column that is wider than it. -/
inductive Alignment
  | left
  | right
deriving DecidableEq, Repr

/-- The text with blanks beside it up to `width` characters. -/
def align (alignment : Alignment) (width : Nat) (text : String) : String :=
  let blanks := "".pushn ' ' (width - text.length)
  match alignment with
  | .left => text ++ blanks
  | .right => blanks ++ text

/-- The least column that holds every one of the texts. -/
def columnWidth (texts : List String) : Nat :=
  texts.foldl (fun width text => max width text.length) 0

end Cpu32.Text
