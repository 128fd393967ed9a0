import Cpu32.Assembly.Session
import Cpu32.Text.Align

/-!
# Listings

One line for each instruction of a session: its address, its opcode and its operands in source form.
-/

namespace Cpu32

namespace Code

def listingLine (address : UInt32) (code : Code) : String :=
  let mnemonic := Text.align .left 6 code.instruction.mnemonic
  let operands := " ".intercalate (code.operands.map Placed.text)
  s!"{Text.hex 8 address.toNat}: {Text.hex 2 code.instruction.opcode.toNat} {mnemonic} {operands}"

/-- The lines of consecutive instructions, the first of them at an address. -/
def listing (address : UInt32) : List Code → List String
  | [] => []
  | code :: rest =>
      code.listingLine address :: listing (address + UInt32.ofNat code.size) rest

end Code

/-- The lines of the instructions that a session has beyond an earlier state of it. -/
def Session.listingSince (s earlier : Session) : List String :=
  Code.listing (s.base + earlier.offset) (s.code.toList.drop earlier.code.size)

end Cpu32
