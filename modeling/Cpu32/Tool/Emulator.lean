import Cpu32.Machine.Run
import Cpu32.Memory.Noise
import Cpu32.Text.Number
import Cpu32.Tool.Host

/-!
# The emulator

Loads an image, runs it to its end, and prints what it left behind.
-/

namespace Cpu32.Tool.Emulator

open Cpu32.Text (align hex)

structure Options where
  image : Option String := none
  registers : Bool := false
  memory : Bool := false
  seed : Option UInt64 := none
  maxSteps : Option UInt64 := none
  trace : Bool := false
  profile : Bool := false
deriving DecidableEq, Repr

inductive UsageError
  | invalidNumber (name value : String)
  | missingValue (option : String)
  | unexpectedArgument (argument : String)
  | missingImage
deriving DecidableEq, Repr

def UsageError.message : UsageError → String
  | .invalidNumber name value => s!"Invalid {name}: '{value}' is not a valid number"
  | .missingValue option => s!"{option} requires an argument"
  | .unexpectedArgument argument => s!"Unexpected argument: {argument}"
  | .missingImage => "Missing image file"

/-- The number that an option or a variable stands for. -/
def number (name value : String) : Except UsageError UInt64 :=
  match Text.count? value with
  | some n => .ok n
  | none => .error (.invalidNumber name value)

/-- Reads the arguments from left to right. -/
def Options.ofArguments (o : Options) : List String → Except UsageError Options
  | [] => .ok o
  | "-r" :: rest | "--registers" :: rest => ofArguments { o with registers := true } rest
  | "-m" :: rest | "--memory" :: rest => ofArguments { o with memory := true } rest
  | "--trace" :: rest => ofArguments { o with trace := true } rest
  | "--profile" :: rest => ofArguments { o with profile := true } rest
  | ["--seed"] => .error (.missingValue "--seed")
  | ["--max-steps"] => .error (.missingValue "--max-steps")
  | "--seed" :: value :: rest => do
      ofArguments { o with seed := some (← number "--seed" value) } rest
  | "--max-steps" :: value :: rest => do
      ofArguments { o with maxSteps := some (← number "--max-steps" value) } rest
  | argument :: rest =>
      if argument.startsWith "-" ∨ o.image.isSome then .error (.unexpectedArgument argument)
      else ofArguments { o with image := some argument } rest

def usage (program : String) : String :=
  "\n".intercalate
    ["Virtual CPU Emulator",
      "",
      "USAGE:",
      s!"    {program} <image.bin> [OPTIONS]",
      "",
      "ARGS:",
      "    <image.bin>    Flat binary image, loaded at 0x14830000",
      "",
      "OPTIONS:",
      "    -r, --registers         Print registers after the run",
      "    -m, --memory            Print every touched memory byte after the run",
      "        --seed <n>          Seed for untouched memory (env: LKCPU_SEED)",
      "        --max-steps <n>     Abort after n instructions (env: LKCPU_MAX_STEPS)",
      "        --trace             Log every executed instruction",
      "        --profile           Print instruction counts by class",
      "    -h, --help              Print this help message",
      "",
      "EXAMPLES:",
      "    # Run and print the debug buffer",
      s!"    {program} program.bin",
      "",
      "    # Reproducible run with a register dump",
      s!"    {program} program.bin -r --seed 1",
      ""]

/-- The table of execution counts.  Categories that were not executed are left out. -/
def profileLines (p : Profile) : List String :=
  let total := p.instructions
  let nameWidth := 2 + Text.columnWidth ("total" :: Category.all.map Category.name)
  let countWidth :=
    Text.columnWidth (Text.grouped total :: p.toList.map fun (_, n) => Text.grouped n)
  let rule := "".pushn '-' (nameWidth + 1 + countWidth + 2 + "( 100.0%)".length)
  let row (name : String) (n : Nat) : String :=
    align .left nameWidth name ++ " " ++ align .right countWidth (Text.grouped n)
  let percentage (share : Float) : String := s!" ({align .right 5 (Text.fixedFloat 1 share)}%)"
  let categories := p.toList.filterMap fun (category, n) =>
    if n = 0 then none
    else some (row category.name n ++ percentage (n.toFloat / total.toFloat * 100))
  ["Execution Profile:", rule] ++ categories ++ [rule, row "total" total ++ percentage 100] ++
    if p.traps = 0 then [] else [row "traps" p.traps]

variable {m : Type → Type} [Monad m] [Host m]

/-- More rounds than any run takes. -/
def horizon : Nat := UInt64.size

/-- Runs a machine, logging each round before it is taken. -/
def runTraced : Nat → Machine → m (Status × Machine)
  | 0, machine => return (.running, machine)
  | rounds + 1, machine => do
      match machine.event? with
      | some event => Host.write (.log .trace event.text)
      | none => pure ()
      match machine.tick with
      | (.running, machine) => runTraced rounds machine
      | ended => return ended

def run (trace : Bool) (machine : Machine) : m (Status × Machine) :=
  if trace then runTraced horizon machine else return machine.runFor horizon

/-- Loads an image at the entry and runs it; the text is the reason of a failure. -/
def execute (trace : Bool) (machine : Machine) (image : List UInt8) :
    m (Option String × Machine) := do
  match machine.load defaultEntry image with
  | .error e => return (some e.message, machine)
  | .ok machine =>
      match ← run trace machine with
      | (.failed fault, machine) => return (some fault.message, machine)
      | (_, machine) => return (none, machine)

def printResults (o : Options) (machine : Machine) (elapsed : Duration) : m Unit := do
  if o.registers then
    for (r, value) in machine.registers.toList do
      print s!"{r.name} = {hex 8 value.toNat}"
  if o.memory then
    for (address, b) in machine.memory.toList do
      print s!"{hex 8 address.toNat}: {hex 2 b.toNat}"
  print ("[" ++ ",".intercalate machine.output ++ "]")
  if o.profile then
    (profileLines machine.profile).forM print
    Host.write (.elapsed elapsed)

/-- The value of an option, or of a variable if the option was not given. -/
def orVariable (given : Option UInt64) (name : String) :
    ExceptT UsageError m (Option UInt64) := do
  match given, ← Host.environment? name with
  | some n, _ => return some n
  | none, some value => return some (← number name value)
  | none, none => return none

/-- The image and the options of a command line, completed from the environment. -/
def readOptions (arguments : List String) : ExceptT UsageError m (String × Options) := do
  let options ← Options.ofArguments {} arguments
  match options.image with
  | none => throw .missingImage
  | some image =>
      let seed ← orVariable options.seed "LKCPU_SEED"
      let maxSteps ← orVariable options.maxSteps "LKCPU_MAX_STEPS"
      return (image, { options with seed, maxSteps })

/-- Runs an image from a file. -/
def emulate (path : String) (options : Options) : ToolM m Unit := do
  match ← Host.readFile path with
  | .error reason => fail (FileError.mk path reason).message
  | .ok image =>
      let seed ← match options.seed with
        | some seed => pure seed
        | none => Host.entropy
      let machine := Machine.boot { maxSteps := options.maxSteps } (.fresh (Noise.byte seed))
      let start ← Host.now
      let (failure, machine) ← execute options.trace machine image
      let stop ← Host.now
      printResults options machine (stop - start)
      match failure with
      | some reason => fail s!"Execution failed: {reason}"
      | none => return ()

/-- The emulator under the name `program`. -/
def command (program : String) (arguments : List String) : ToolM m Unit := do
  match arguments with
  | [] => info (usage program); throw 1
  | "-h" :: _ | "--help" :: _ => info (usage program)
  | _ =>
      match ← (readOptions arguments).run with
      | .error e =>
          Host.write (.log .error (e.message ++ "\n"))
          info (usage program)
          throw 1
      | .ok (path, options) => emulate path options

end Cpu32.Tool.Emulator
