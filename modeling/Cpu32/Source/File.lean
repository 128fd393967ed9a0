import Cpu32.Source.Statement

/-!
# Source files

A file is read statement by statement into a session.  At an error the session stays as it is by
then.
-/

namespace Cpu32.Source

/-- Why a file is refused, and where.  An error in a statement stands at its first word. -/
inductive Error
  | lexical (error : LexicalError)
  | statement (position : Position) (cause : AssemblyError)
deriving DecidableEq, Repr

namespace Error

def position : Error → Position
  | .lexical error => error.position
  | .statement position _ => position

/-- The error without its position. -/
def reason : Error → String
  | .lexical error => error.fault.message
  | .statement _ cause => cause.message

def message (e : Error) : String :=
  s!"line {e.position.line}:{e.position.column}: {e.reason}"

end Error

/-- The first statement of a list of words, and how many words it takes after its head. -/
def firstStatement (order : Order) (head : Token) (rest : List Token) :
    Except AssemblyError (Statement × Nat) :=
  match Keyword.ofText? head.text with
  | none => .error (.unknownInstruction head.text)
  | some keyword => (Statement.read order head keyword rest).map fun s => (s, keyword.words)

/-- Carries out the first statement of a list of words.  The outcome is the order in force after it,
and how many words it takes after its head. -/
def buildFirst (order : Order) (head : Token) (rest : List Token) : SessionM (Order × Nat) := do
  let (statement, taken) ← ofExcept (firstStatement order head rest)
  Session.apply statement
  return (statement.orderAfter order, taken)

/-- Carries out the statements that a list of words consists of. -/
def buildFrom (order : Order) : List Token → EStateM Error Session Unit
  | [] => return ()
  | head :: rest => do
      let (next, taken) ←
        EStateM.adaptExcept (.statement head.position) (buildFirst order head rest)
      buildFrom next (rest.drop taken)
termination_by words => words.length
decreasing_by
  simp only [List.length_drop, List.length_cons]
  omega

/-- Reads the words of one file, which begins in the order of sources first. -/
def build (words : List Token) : EStateM Error Session Unit := do
  modify Session.beginFile
  buildFrom .sourceFirst words

end Cpu32.Source

namespace Cpu32.Session

open Source

/-- Reads one source file into the session. -/
def feed (source : String) : EStateM Error Session Unit :=
  match tokenize source with
  | .error error => throw (.lexical error)
  | .ok words => build words

end Cpu32.Session
