import Cpu32.Text.Align

/-!
# Log levels

Messages below the minimum level are not written.
-/

namespace Cpu32.Log

inductive Level
  | trace
  | info
  | warn
  | error
deriving DecidableEq, Repr

namespace Level

def severity : Level → Nat
  | .trace => 0
  | .info => 1
  | .warn => 2
  | .error => 3

/-- Messages of this level are written when `minimum` is the minimum level. -/
def isEnabled (minimum level : Level) : Bool := minimum.severity ≤ level.severity

def name : Level → String
  | .trace => "TRACE"
  | .info => "INFO"
  | .warn => "WARN"
  | .error => "ERROR"

/-- The tag in front of a message; all tags are equally wide. -/
def tag (level : Level) : String :=
  "[" ++ Text.align .left 5 level.name ++ "]"

end Level

end Cpu32.Log
