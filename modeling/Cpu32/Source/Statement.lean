import Cpu32.Assembly.Session
import Cpu32.Operand.Text
import Cpu32.Source.Keyword
import Cpu32.Source.Token

/-!
# Statements

A statement is a keyword and the words that it takes.  It is read without regard to what was built
before it, and then applied to the session.
-/

namespace Cpu32.Source

inductive Statement
  | instruction (instruction : Instruction) (operands : List Operand)
  | bindNext (label : String)
  | bindPrevious (label : String)
  | exporting (label : String)
  | importing (label : String)
  | order (order : Order)
deriving DecidableEq, Repr

namespace Statement

def operand (word : Token) : Except AssemblyError Operand :=
  match Operand.ofText word.text with
  | .ok operand => .ok operand
  | .error e => .error (.malformedOperand e.text)

/-- An instruction whose operands are the given words, read from left to right. -/
def ofWords (i : Instruction) (words : List Token) : Except AssemblyError Statement :=
  (words.mapM operand).map (.instruction i)

def comparison? (word : Token) : Option Instruction :=
  (Instruction.ofMnemonic? word.text).filter Instruction.isComparison

/-- The statement of a keyword and the words after it.  A label for the next instruction must not be
followed by a label for the previous one. -/
def read (order : Order) (head : Token) (keyword : Keyword) (rest : List Token) :
    Except AssemblyError Statement :=
  match keyword, rest with
  | .order order, _ => .ok (.order order)
  | .reserved, _ => .error (.unsupportedWord head.text)
  | .binary i, first :: second :: _ =>
      match order with
      | .sourceFirst => ofWords i [first, second]
      | .destinationFirst => ofWords i [second, first]
  | .exchange, first :: second :: third :: _ =>
      match order with
      | .sourceFirst => ofWords .inj [first, second, third]
      | .destinationFirst => ofWords .inj [third, second, first]
  | .multiply i, first :: second :: third :: _ =>
      match order with
      | .sourceFirst => ofWords i [first, second, third]
      | .destinationFirst => ofWords i [third, first, second]
  | .comparison, first :: second :: relation :: _ =>
      match comparison? relation with
      | some i => ofWords i [first, second]
      | none => .error (.unknownInstruction relation.text)
  | .complement, word :: _ => do
      return .instruction .dal [{ shape := .immediate 0 }, ← operand word]
  | .bindNext, name :: next =>
      if (next.head?.map Token.text) = some "l'" then .error (.danglingLabel name.text)
      else .ok (.bindNext name.text)
  | .bindPrevious, name :: _ => .ok (.bindPrevious name.text)
  | .exporting, name :: _ => .ok (.exporting name.text)
  | .importing, name :: _ => .ok (.importing name.text)
  | _, _ => .error (.unexpectedEnd head.text (keyword.words - rest.length))

/-- The order in force after a statement. -/
def orderAfter (order : Order) : Statement → Order
  | .order order => order
  | _ => order

end Statement

end Cpu32.Source

namespace Cpu32.Session

open Source

/-- Carries out a statement. -/
def apply : Statement → SessionM Unit
  | .instruction instruction operands => append instruction operands
  | .bindNext label => bindNext label
  | .bindPrevious label => bindPrevious label
  | .exporting label => modify fun s => s.addExport label
  | .importing label => modify fun s => s.addImport label
  | .order _ => return ()

end Cpu32.Session
