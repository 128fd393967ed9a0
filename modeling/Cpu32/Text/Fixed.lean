/-!
# Decimals with a fixed number of places

A non-negative quotient rounded to the nearest decimal with so many places; a tie goes to the even
neighbour.  A binary floating-point number is rounded from its exact value.
-/

namespace Cpu32.Text

/-- The quotient rounded to the nearest number; a tie goes to the even one. -/
def roundDiv (numerator denominator : Nat) : Nat :=
  let quotient := numerator / denominator
  let twice := 2 * (numerator % denominator)
  if twice < denominator then quotient
  else if denominator < twice then quotient + 1
  else quotient + quotient % 2

/-- The quotient with so many decimal places. -/
def fixed (places numerator denominator : Nat) : String :=
  let unit := Nat.pow 10 places
  let scaled := roundDiv (numerator * unit) denominator
  let whole := toString (scaled / unit)
  if places = 0 then whole
  else
    let fraction := (Nat.toDigits 10 (scaled % unit)).leftpad places '0'
    whole ++ "." ++ String.ofList fraction

/-- The exact value of a finite number that is not negative, as a numerator and a denominator. -/
def ratio (x : Float) : Nat × Nat :=
  let bits := x.toBits.toNat
  let exponent := (bits >>> 52) % 2048
  let fraction := bits % (1 <<< 52)
  let significand := if exponent = 0 then fraction else fraction + (1 <<< 52)
  let scale := if exponent = 0 then 1 else exponent
  if 1075 ≤ scale then (significand <<< (scale - 1075), 1)
  else (significand, 1 <<< (1075 - scale))

/-- A finite number that is not negative, with so many decimal places. -/
def fixedFloat (places : Nat) (x : Float) : String :=
  let (numerator, denominator) := ratio x
  fixed places numerator denominator

end Cpu32.Text
