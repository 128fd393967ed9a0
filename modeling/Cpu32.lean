import Cpu32.Main
import Cpu32.Tool.Sandbox
import Cpu32.Proofs.Codec.BigEndian
import Cpu32.Proofs.Codec.Image
import Cpu32.Proofs.Session.History
import Cpu32.Proofs.Session.Boundary
import Cpu32.Proofs.Memory
import Cpu32.Proofs.Memory.Eager
import Cpu32.Proofs.Machine.Fetch
import Cpu32.Proofs.Machine.Perform
import Cpu32.Proofs.Machine.Locality
import Cpu32.Proofs.Machine.Accounting
import Cpu32.Proofs.Machine.History
import Cpu32.Proofs.Machine.Watchdog
import Cpu32.Proofs.Machine.Livelock
import Cpu32.Proofs.Machine.Flag
import Cpu32.Proofs.Session.Execution
import Cpu32.Proofs.Source.Scanning
import Cpu32.Proofs.Operand.Text
import Cpu32.Proofs.Source.Printing
import Cpu32.Proofs.Source.Feeding
import Cpu32.Proofs.Session.Destination
import Cpu32.Proofs.Machine.Noise
import Cpu32.Proofs.Source.Order
import Cpu32.Proofs.Session.Concatenation
import Cpu32.Proofs.Source.Stepping
import Cpu32.Proofs.Source.Lexeme
import Cpu32.Proofs.Source.Origin
import Cpu32.Proofs.Session.Relocation
import Cpu32.Proofs.Operand.Disassembly
import Cpu32.Proofs.Session.Failure
import Cpu32.Proofs.Session.Resolution
import Cpu32.Proofs.Machine.Decoding
import Cpu32.Proofs.Machine.PartialTransfer
import Cpu32.Proofs.Machine.TwoOperands
import Cpu32.Proofs.Machine.Arithmetic
import Cpu32.Proofs.Machine.Operands
import Cpu32.Proofs.Machine.Product
import Cpu32.Proofs.Machine.Assignment
import Cpu32.Proofs.Machine.ThreeOperands
import Cpu32.Proofs.Memory.Filling
import Cpu32.Proofs.Machine.Tally
import Cpu32.Proofs.Machine.Facing
import Cpu32.Proofs.Machine.Refusal
import Cpu32.Proofs.Machine.FetchFault
import Cpu32.Proofs.Operand.Encoding
import Cpu32.Proofs.Log.Calendar
import Cpu32.Proofs.Log.Conversion
import Cpu32.Proofs.Log.Timestamp
import Cpu32.Proofs.Source.Pointing
