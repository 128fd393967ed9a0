/-!
# Hexadecimal text

Numbers are written in capitals at a fixed least width.
-/

namespace Cpu32.Text

/-- The number in hexadecimal capitals, with zeros in front up to `width` digits. -/
def hex (width n : Nat) : String :=
  String.ofList (((Nat.toDigits 16 n).map Char.toUpper).leftpad width '0')

end Cpu32.Text
