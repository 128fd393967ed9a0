/-!
# Comparison of names

Names of registers and instructions are ASCII and are recognised in either case.
-/

namespace Cpu32.Text

/-- Two texts are the same but for the case of their ASCII letters. -/
def sameLetters (a b : String) : Bool :=
  a.toList.map Char.toLower == b.toList.map Char.toLower

end Cpu32.Text
