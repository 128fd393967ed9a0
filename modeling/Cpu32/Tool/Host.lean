import Cpu32.Tool.Output

/-!
# Hosts

What the tools ask of the system that they run on.
-/

namespace Cpu32.Tool

open Cpu32.Log (Level)

/-- The system's own words on a failed operation. -/
abbrev Reason := String

class Host (m : Type → Type) where
  isPresent : String → m Bool
  readFile : String → m (Except Reason (List UInt8))
  /-- Puts a complete file in the place of any other, or leaves everything as it is. -/
  replaceFile : String → List UInt8 → m (Except Reason Unit)
  environment? : String → m (Option String)
  write : Output → m Unit
  /-- The time on a clock that never goes back. -/
  now : m Duration
  /-- A number that differs from one call to the next. -/
  entropy : m UInt64

/-- A failed operation on a file. -/
structure FileError where
  path : String
  reason : Reason
deriving DecidableEq, Repr

def FileError.message (e : FileError) : String := s!"io error on {e.path}: {e.reason}"

variable {m : Type → Type} [Monad m] [Host m]

def print (text : String) : m Unit := Host.write (.line text)

def info (message : String) : m Unit := Host.write (.log .info message)

instance {ε : Type} : Host (ExceptT ε m) where
  isPresent path := ExceptT.lift (Host.isPresent path)
  readFile path := ExceptT.lift (Host.readFile path)
  replaceFile path bytes := ExceptT.lift (Host.replaceFile path bytes)
  environment? name := ExceptT.lift (Host.environment? name)
  write output := ExceptT.lift (Host.write output)
  now := ExceptT.lift Host.now
  entropy := ExceptT.lift Host.entropy

/-- A tool may end early with an exit code. -/
abbrev ToolM (m : Type → Type) := ExceptT UInt32 m

/-- Logs an error and ends the tool. -/
def fail {α : Type} (message : String) : ToolM m α := do
  Host.write (.log .error message)
  throw 1

/-- The text of a file in UTF-8. -/
def readText (path : String) : m (Except Reason String) := do
  match ← Host.readFile path with
  | .error reason => return .error reason
  | .ok bytes =>
      match String.fromUTF8? ⟨bytes.toArray⟩ with
      | some text => return .ok text
      | none => return .error "stream did not contain valid UTF-8"

end Cpu32.Tool
