import Std.Data.ExtTreeSet
import Cpu32.Assembly.Code
import Cpu32.Assembly.Error
import Cpu32.Assembly.Image
import Cpu32.Machine.Config

/-!
# Build sessions

A session collects instructions and labels, possibly of several files, and is linked into an image
at its end.
-/

namespace Cpu32

structure Session where
  base : UInt32 := defaultEntry
  code : Array Code := #[]
  labels : Labels := {}
  /-- The number of bytes of the code so far, which wraps. -/
  offset : UInt32 := 0
  /-- The number of instructions before the current file. -/
  fileStart : Nat := 0
  exports : Std.ExtTreeSet String := ∅
  imports : Std.ExtTreeSet String := ∅

/-- A call on a session.  Nothing takes back what it has done when it fails. -/
abbrev SessionM := EStateM AssemblyError Session

namespace Session

variable (s : Session)

/-- Checks one operand, counted from one, and encodes it.  An operand after the first is written
to, unless the instruction is a comparison. -/
def place (instruction : Instruction) (position : Nat) (operand : Operand) :
    Except AssemblyError Placed :=
  let refuse (fault : OperandFault) : Except AssemblyError Placed :=
    .error (.invalidOperand instruction position operand.text fault)
  if 1 < position ∧ ¬ instruction.isComparison ∧ operand.isValueOnly then refuse .notWritable
  else
    match operand.encode with
    | .ok placed => .ok placed
    | .error misfit => refuse (.misfit misfit)

/-- Checks and encodes the operands from a position on, from left to right. -/
def placeFrom (instruction : Instruction) (position : Nat) :
    List Operand → Except AssemblyError (List Placed)
  | [] => .ok []
  | operand :: rest => do
      let placed ← place instruction position operand
      return placed :: (← placeFrom instruction (position + 1) rest)

/-- The instruction with these operands, if it takes them. -/
def assemble (instruction : Instruction) (operands : List Operand) : Except AssemblyError Code :=
  if operands.length ≠ instruction.arity then
    .error (.invalidOperand instruction operands.length
      (", ".intercalate (operands.map Operand.text)) .wrongCount)
  else
    (placeFrom instruction 1 operands).map fun placed => ⟨instruction, placed⟩

def push (code : Code) : Session :=
  { s with code := s.code.push code, offset := s.offset + UInt32.ofNat code.size }

/-- Appends an instruction. -/
def append (instruction : Instruction) (operands : List Operand) : SessionM Unit := do
  let code ← ofExcept (assemble instruction operands)
  modify fun s => s.push code

/-- Appends a comparison. -/
def appendComparison (a b : Operand) (instruction : Instruction) : SessionM Unit :=
  if instruction.isComparison then append instruction [a, b]
  else throw (.unknownInstruction instruction.mnemonic)

/-- Appends the bitwise complement of an operand in place. -/
def appendComplement (operand : Operand) : SessionM Unit :=
  append .dal [{ shape := .immediate 0 }, operand]

/-- Runs a computation on the labels of the session. -/
def onLabels (x : EStateM DuplicateLabel Labels Unit) : SessionM Unit := fun s =>
  match x s.labels with
  | .ok _ labels => .ok () { s with labels }
  | .error e labels => .error (.duplicateLabel e.label) { s with labels }

/-- Binds a name to the instruction that follows. -/
def bindNext (name : String) : SessionM Unit := do
  onLabels (Labels.define name (← get).offset)

/-- The last instruction of the current file. -/
def previous? : Option Code :=
  if s.fileStart < s.code.size then s.code.back? else none

/-- Binds a name to the last instruction of the current file. -/
def bindPrevious (name : String) : SessionM Unit := do
  let s ← get
  match s.previous? with
  | some code => onLabels (Labels.define name (s.offset - UInt32.ofNat code.size))
  | none => throw (.danglingLabel name)

/-- Begins a new file. -/
def beginFile : Session := { s with fileStart := s.code.size }

/-- Puts a name among the symbols of the image. -/
def addExport (name : String) : Session := { s with exports := s.exports.insert name }

/-- Demands that a name is bound by the end. -/
def addImport (name : String) : Session := { s with imports := s.imports.insert name }

/-- The address of a bound name. -/
def addressOf (name : String) : Except UndefinedLabel UInt32 :=
  (s.labels.resolve name).map (s.base + ·)

/-- Links the session into an image.  Of several unbound names the first import is reported, then
the first export, both in the order of names, then the first operand. -/
def finish : Except UndefinedLabel Image := do
  s.imports.toList.forM fun name => discard (s.addressOf name)
  let symbols ← s.exports.toList.mapM fun name => return (name, ← s.addressOf name)
  let bytes ← Code.emit s.labels s.base s.code.toList
  return { base := s.base, bytes, symbols := .ofList symbols }

end Session

end Cpu32
