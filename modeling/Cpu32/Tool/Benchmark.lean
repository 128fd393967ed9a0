import Cpu32.Machine.Run
import Cpu32.Memory.Noise
import Cpu32.Tool.Compiler
import Cpu32.Tool.Emulator

/-!
# Benchmarks

Times runs of one source file, or of a suite of small programs.  Each program is assembled once and
run a few times before it is measured.
-/

namespace Cpu32.Tool.Benchmark

/-- How long a program is run. -/
inductive Plan
  | atLeast (d : Duration)
  | iterations (n : Nat)
deriving DecidableEq, Repr

structure Options where
  source : Option String := none
  plan : Plan := .atLeast 2000000000
deriving DecidableEq, Repr

inductive UsageError
  | invalidIterations
  | unexpectedArgument (argument : String)
deriving DecidableEq, Repr

def UsageError.message : UsageError → String
  | .invalidIterations => "--iterations requires a positive number"
  | .unexpectedArgument argument => s!"Unexpected argument: {argument}"

/-- A number of iterations, which is not zero. -/
def iterations? (value : String) : Option Nat :=
  (Text.count? value).bind fun n => if n = 0 then none else some n.toNat

/-- Reads the arguments from left to right; of several sources the last one counts. -/
def Options.ofArguments (o : Options) : List String → Except UsageError Options
  | [] => .ok o
  | ["-n"] | ["--iterations"] => .error .invalidIterations
  | "-n" :: value :: rest | "--iterations" :: value :: rest =>
      match iterations? value with
      | some n => ofArguments { o with plan := .iterations n } rest
      | none => .error .invalidIterations
  | argument :: rest =>
      if argument.startsWith "-" then .error (.unexpectedArgument argument)
      else ofArguments { o with source := some argument } rest

/-- The programs that are measured when no source is given. -/
def suite : List (String × String) :=
  [("tight_loop(100K)",
      "krz 100000 f1 krz 0 f2
      nll loop ata 1 f2 nta 1 f1 fi f1 0 niv malkrz loop xx
      krz f5@ xx"),
    ("arithmetic_mix(10K)",
      "krz 10000 f0 krz 1 f1 krz 2 f2 krz 3 f3
      nll loop
        krz f1 f4 ata f2 f4 ekc f3 f4 dro 1 f4 dto 2 f4 dal f1 f4
        ada 65535 f4 dtosna 1 f4 krz f4 f1
        nta 1 f0 fi f0 0 niv malkrz loop xx
      krz f5@ xx"),
    ("multiply(20K)",
      "krz 20000 f0 krz 3 f1
      nll loop
        lat 7 f1 f2 latsna f2 f1 f3
        nta 1 f0 fi f0 0 niv malkrz loop xx
      krz f5@ xx"),
    ("memory(5K)",
      "krz 5000 f0 krz 42 f1
      nll loop
        krz f1 f5+f0@ krz f5+f0@ f2
        nta 1 f0 fi f0 0 niv malkrz loop xx
      krz f5@ xx"),
    ("call_overhead(10K)",
      "krz 10000 f0
      nll loop
        inj noop xx f6
        nta 1 f0 fi f0 0 niv malkrz loop xx
      krz f5@ xx
      nll noop krz f6 xx"),
    ("debug_trap(1K)",
      "krz 1000 f0 nta 8 f5
      nll loop
        krz f0 f5+4@ krz back f5@ krz 3126834864 xx
      nll back
        nta 1 f0 fi f0 0 niv malkrz loop xx
      ata 8 f5 krz f5@ xx")]

variable {m : Type → Type} [Monad m] [Host m]

/-- Runs an image on a fresh machine; its result is the number of instructions. -/
def runOnce (image : Image) (seed : UInt64) : ExceptT String m Nat := do
  let machine := Machine.boot {} (.fresh (Noise.byte seed))
  match machine.load image.base image.bytes with
  | .error e => throw e.message
  | .ok machine =>
      match machine.runFor Emulator.horizon with
      | (.failed fault, _) => throw fault.message
      | (_, machine) => return machine.profile.instructions

/-- Another run, with its iteration as the seed. -/
def runAgain (image : Image) (result : Measurement) : ExceptT String m Measurement := do
  let start ← Host.now
  let instructions ← runOnce image (UInt64.ofNat result.iterations)
  let elapsed := (← Host.now) - start
  return { result with
    iterations := result.iterations + 1
    total := result.total + elapsed
    fastest := if result.iterations = 0 then elapsed else min result.fastest elapsed
    slowest := max result.slowest elapsed
    instructions }

/-- Runs until the plan is fulfilled, at most so often. -/
def repeatRuns (plan : Plan) (image : Image) (start : Duration) :
    Nat → Measurement → ExceptT String m Measurement
  | 0, result => return result
  | rounds + 1, result => do
      let finished ← match plan with
        | .iterations n => pure (decide (n ≤ result.iterations))
        | .atLeast d => (fun now => decide (d ≤ now - start)) <$> Host.now
      if finished then return result
      else repeatRuns plan image start rounds (← runAgain image result)

/-- Measures one program; the text is the reason of a failure. -/
def measure (plan : Plan) (name : String) (image : Image) : ExceptT String m Measurement := do
  [0, 1, 2].forM fun seed => discard (runOnce image seed)
  let start ← Host.now
  repeatRuns plan image start Emulator.horizon ⟨name, 0, 0, 0, 0, 0⟩

/-- Assembles, measures and prints one program. -/
def benchmark (plan : Plan) (name source : String) : ToolM m Unit := do
  let built ← ExceptT.run do
    let s ← Compiler.feed false "<source>" source {}
    match s.finish with
    | .ok image => return image
    | .error e => throw e.message
  match built with
  | .error reason => fail s!"Assembly of {name} failed: {reason}"
  | .ok image =>
      match ← (measure plan name image).run with
      | .error reason => fail s!"{name} failed: {reason}"
      | .ok result => Host.write (.measurement result)

/-- The programs to be measured: a file, or the suite. -/
def programs (source : Option String) : ToolM m (List (String × String)) := do
  match source with
  | none => return suite
  | some path =>
      match ← readText path with
      | .ok text => return [(path, text)]
      | .error reason => fail s!"Failed to read {path}: {reason}"

def title : Plan → String
  | .atLeast d => s!"VM Benchmarks (each runs for >= {d / 1000000000}s)"
  | .iterations n => s!"VM Benchmarks ({n} iterations each)"

/-- The benchmarks, from their arguments. -/
def command (arguments : List String) : ToolM m Unit := do
  match Options.ofArguments {} arguments with
  | .error e => fail e.message
  | .ok options =>
      let chosen ← programs options.source
      print (title options.plan)
      print ""
      print Measurement.header
      print ("  " ++ "".pushn '-' 96)
      chosen.forM fun (name, source) => benchmark options.plan name source

end Cpu32.Tool.Benchmark
