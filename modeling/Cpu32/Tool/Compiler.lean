import Cpu32.Assembly.Listing
import Cpu32.Source.Diagnostic
import Cpu32.Tool.Host
import Cpu32.Tool.Path

/-!
# The compiler

Assembles source files, which share their labels and are laid out in the order given, and writes
one image.
-/

namespace Cpu32.Tool.Compiler

open Cpu32.Text (align hex)

structure Options where
  /-- The source files, first to last. -/
  inputs : List String := []
  output : Option String := none
  symbols : Bool := false
  trace : Bool := false
deriving DecidableEq, Repr

inductive UsageError
  | missingValue (option : String)
  | unexpectedArgument (argument : String)
  | noInputs
deriving DecidableEq, Repr

namespace UsageError

def message : UsageError → String
  | .missingValue option => s!"{option} requires an argument"
  | .unexpectedArgument argument => s!"Unexpected argument: {argument}"
  | .noInputs => "No input files"

/-- The usage is shown after the message. -/
def showsUsage : UsageError → Bool
  | .missingValue _ => false
  | _ => true

end UsageError

/-- Reads the arguments from left to right. -/
def Options.ofArguments (o : Options) : List String → Except UsageError Options
  | [] => if o.inputs = [] then .error .noInputs else .ok o
  | ["-o"] => .error (.missingValue "-o")
  | ["--output"] => .error (.missingValue "--output")
  | "-o" :: path :: rest | "--output" :: path :: rest =>
      ofArguments { o with output := some path } rest
  | "-s" :: rest | "--symbols" :: rest => ofArguments { o with symbols := true } rest
  | "--trace" :: rest => ofArguments { o with trace := true } rest
  | argument :: rest =>
      if argument.startsWith "-" then .error (.unexpectedArgument argument)
      else ofArguments { o with inputs := o.inputs ++ [argument] } rest

def usage (program : String) : String :=
  "\n".intercalate
    ["Assembly Compiler",
      "",
      "USAGE:",
      s!"    {program} <input>... [OPTIONS]",
      "",
      "ARGS:",
      "    <input>...    Assembly source files, assembled in order into one image",
      "",
      "OPTIONS:",
      "    -o, --output <file>     Output file path (defaults to <first input>.bin)",
      "    -s, --symbols           Print exported labels and their addresses",
      "        --trace             Print a listing line for every instruction",
      "    -h, --help              Print this help message",
      "",
      "EXAMPLES:",
      "    # Compile to default output name",
      s!"    {program} program.lk",
      "",
      "    # Link two files with explicit output",
      s!"    {program} main.lk lib.lk -o output.bin",
      ""]

/-- The path of the image of a source file: beside it, under its name with another extension. -/
def defaultOutput (input : String) : String :=
  let directory := (Path.parent? input).getD "."
  let stem := ((Path.name? input).map Path.stem).getD ""
  Path.join directory (stem ++ ".bin")

/-- One line for each exported label. -/
def symbolLines (image : Image) : List String :=
  let width := Text.columnWidth (image.symbols.toList.map Prod.fst)
  image.symbols.toList.map fun (name, address) =>
    align .left width name ++ "  " ++ hex 8 address.toNat

variable {m : Type → Type} [Monad m] [Host m]

/-- Feeds a source text to a session, with a listing if tracing and a report on an error. -/
def feed (trace : Bool) (file source : String) (s : Session) :
    ExceptT String m Session := do
  let (error?, after) := match s.feed source with
    | .ok _ after => (none, after)
    | .error error after => (some error, after)
  if trace then
    (after.listingSince s).forM fun line => Host.write (.log .trace line)
  match error? with
  | none => return after
  | some error =>
      Host.write (.diagnostic (Source.diagnostic file source error))
      throw error.message

/-- Assembles files in order into one session; the text is the reason of a failure. -/
def feedFiles (trace : Bool) : List String → Session → ExceptT String m Session
  | [], s => return s
  | path :: rest, s => do
      match ← readText path with
      | .error reason => throw (FileError.mk path reason).message
      | .ok source => feedFiles trace rest (← feed trace path source s)

/-- Assembles files in order into an image. -/
def assembleFiles (trace : Bool) (paths : List String) : ExceptT String m Image := do
  let s ← feedFiles trace paths {}
  match s.finish with
  | .ok image => return image
  | .error e => throw e.message

/-- Every input has to be there before anything is read. -/
def checkInputs (inputs : List String) : ToolM m Unit :=
  inputs.forM fun input => do
    unless ← Host.isPresent input do
      fail s!"Input file does not exist: {input}"

/-- The directory of the output has to be there before anything is read. -/
def checkDirectory (output : String) : ToolM m Unit :=
  match Path.parent? output with
  | none | some "" => return ()
  | some directory => do
      unless ← Host.isPresent directory do
        fail s!"Output directory does not exist: {directory}"

/-- Assembles the inputs of some options. -/
def compile (o : Options) : ToolM m Unit := do
  checkInputs o.inputs
  let output := o.output.getD (defaultOutput (o.inputs.headD ""))
  checkDirectory output
  match ← (assembleFiles o.trace o.inputs).run with
  | .error reason => fail s!"Assembly failed: {reason}"
  | .ok image =>
    match ← Host.replaceFile output image.bytes with
    | .error reason => fail s!"Failed to write output file: {(FileError.mk output reason).message}"
    | .ok _ =>
      let inputs := ", ".intercalate o.inputs
      info s!"Compiled {inputs} -> {output} ({image.size} bytes)"
      if o.symbols then (symbolLines image).forM print

/-- The compiler under the name `program`. -/
def command (program : String) (arguments : List String) : ToolM m Unit := do
  match arguments with
  | [] => info (usage program); throw 1
  | "-h" :: _ | "--help" :: _ => info (usage program)
  | _ =>
      match Options.ofArguments {} arguments with
      | .ok options => compile options
      | .error e =>
          if e.showsUsage then
            Host.write (.log .error (e.message ++ "\n"))
            info (usage program)
            throw 1
          else fail e.message

end Cpu32.Tool.Compiler
