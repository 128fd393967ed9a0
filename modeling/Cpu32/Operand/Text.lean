import Cpu32.Operand
import Cpu32.Text.Number

/-!
# Operand words

One word of source text denotes one operand.  A number is an immediate and a register name a
register; a register and a number, or two registers, may be joined by `+`; an `@` at the end makes
a memory reference.  Any other word is a label, unless it begins with a digit.
-/

namespace Cpu32.Operand

/-- A word that is no operand. -/
structure Malformed where
  text : String
deriving DecidableEq, Repr

/-- The word without an `@` at its end, and whether it had one. -/
def stripAt (word : List Char) : List Char × Bool :=
  match word.reverse with
  | '@' :: body => (body.reverse, true)
  | _ => (word, false)

/-- The parts before and after the first `+`, if there is one. -/
def splitPlus (word : List Char) : Option (List Char × List Char) :=
  match word.dropWhile (· ≠ '+') with
  | [] => none
  | _ :: right => some (word.takeWhile (· ≠ '+'), right)

def register? (word : List Char) : Option Register :=
  Register.ofName? (String.ofList word)

namespace Shape

/-- The shape of two words joined by `+`. -/
def ofSum? (left right : List Char) : Option Shape :=
  match register? left, register? right with
  | some base, some index => some (.indexed base index)
  | some base, none => (Text.word? right).map (.displaced base)
  | none, some base => (Text.word? left).map (.displaced base)
  | none, none => none

/-- The shape of a word without `+`. -/
def ofSingle? (word : List Char) : Option Shape :=
  match Text.word? word with
  | some value => some (.immediate value)
  | none =>
      match register? word with
      | some r => some (.register r)
      | none =>
          if (word.head?.map Char.isDigit).getD true then none
          else some (.label (String.ofList word))

end Shape

/-- The operand that a word denotes. -/
def ofText (word : String) : Except Malformed Operand :=
  let (body, address) := stripAt word.toList
  let shape? := match splitPlus body with
    | some (left, right) => Shape.ofSum? left right
    | none => Shape.ofSingle? body
  match shape? with
  | some shape => .ok { shape, address }
  | none => .error ⟨word⟩

end Cpu32.Operand
