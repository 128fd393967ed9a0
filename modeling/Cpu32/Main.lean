import Std.Time.DateTime
import Cpu32.Log.Timestamp
import Cpu32.Tool.Command

/-!
# The command line

The tools on the files, the environment and the streams of the running process.  The first argument
names the tool.
-/

namespace Cpu32.Tool

open Cpu32.Log (Level Timestamp)

/-- The system's words on an error. -/
def systemReason : IO.Error → Reason
  | .noFileOrDirectory .. => "No such file or directory (os error 2)"
  | .inappropriateType .. => "Is a directory (os error 21)"
  | .permissionDenied .. => "Permission denied (os error 13)"
  | e => toString e

def attempt {α : Type} (action : IO α) : IO (Except Reason α) := do
  match ← action.toBaseIO with
  | .ok a => return .ok a
  | .error e => return .error (systemReason e)

/-- A line of the log on the error stream. -/
def logLine (level : Level) (message : String) : IO Unit := do
  let now ← Std.Time.Timestamp.now
  let millis := now.toMillisecondsSinceUnixEpoch.val.toNat
  let stamp := Timestamp.ofUnix (UInt64.ofNat (millis / 1000)) (UInt32.ofNat (millis % 1000))
  IO.eprintln s!"{stamp.text} {level.tag} {message}"

instance : Host IO where
  isPresent path := return (← attempt (IO.FS.Handle.mk path .read)) matches .ok _
  readFile path := attempt do return (← IO.FS.readBinFile path).toList
  replaceFile path bytes := attempt do
    let draft := path ++ ".draft"
    IO.FS.writeBinFile draft ⟨bytes.toArray⟩
    try IO.FS.rename draft path
    catch e =>
      IO.FS.removeFile draft
      throw e
  environment? name := IO.getEnv name
  write
    | .line text => IO.println text
    | .measurement result => IO.println result.line
    | .log level message => logLine level message
    | .elapsed d => logLine .info (elapsedMessage (millis d))
    | .diagnostic lines => IO.eprintln ("\n".intercalate lines ++ "\n")
  now := IO.monoNanosNow
  entropy := do
    let bytes ← IO.getRandomBytes 8
    return bytes.toList.foldl (fun n b => n * 256 + b.toUInt64) 0

end Cpu32.Tool

open Cpu32.Tool in
def main (arguments : List String) : IO UInt32 := do
  match arguments with
  | "emulator" :: rest => Command.emulator.run "emulator" rest
  | "assembler" :: rest => Command.compiler.run "assembler" rest
  | "bench" :: rest => Command.benchmark.run "bench" rest
  | _ =>
      IO.eprintln "usage: cpu32 (emulator | assembler | bench) [ARGUMENTS]"
      return 1
