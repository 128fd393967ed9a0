/-!
# Decimal numbers

Unsigned decimal numbers in ASCII digits: reading with a bound, and writing with thousands apart.
-/

namespace Cpu32.Text

/-- The value of a non-empty run of decimal digits; leading zeros do not matter. -/
def number? (digits : List Char) : Option Nat :=
  if digits ≠ [] ∧ digits.all Char.isDigit then some (Nat.ofDigitChars 10 digits 0) else none

/-- The value of a run of decimal digits that a 32-bit word holds. -/
def word? (digits : List Char) : Option UInt32 :=
  match number? digits with
  | some n => if n < UInt32.size then some (UInt32.ofNat n) else none
  | none => none

/-- A count that 64 bits hold: decimal digits, after at most one `+`. -/
def count? (text : String) : Option UInt64 :=
  let digits := match text.toList with
    | '+' :: rest => rest
    | all => all
  match number? digits with
  | some n => if n < UInt64.size then some (UInt64.ofNat n) else none
  | none => none

/-- The number in decimal, with zeros in front up to `width` digits. -/
def padded (width n : Nat) : String :=
  String.ofList ((Nat.toDigits 10 n).leftpad width '0')

/-- A comma before every third character from the end, but not in front. -/
def groupThrees : List Char → List Char
  | [] => []
  | c :: rest =>
      if rest ≠ [] ∧ rest.length % 3 = 0 then c :: ',' :: groupThrees rest
      else c :: groupThrees rest

/-- The number in decimal with its thousands apart, as in `12,345`. -/
def grouped (n : Nat) : String :=
  String.ofList (groupThrees (Nat.toDigits 10 n))

end Cpu32.Text
