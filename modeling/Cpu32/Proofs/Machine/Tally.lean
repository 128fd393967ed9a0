import Cpu32.Proofs.Codec.BigEndian
import Cpu32.Proofs.Machine.Accounting
import Cpu32.Proofs.Machine.History
import Cpu32.Proofs.Memory

/-!
# What a history amounts to

The execution counts of a machine are those of the instructions that its steps have decoded, and its
output has one line for each debug trap.  A trap counts as no instruction, and shows nowhere but in
the program counter.
-/

namespace Cpu32

namespace Memory

/-- What was read is held from then on. -/
theorem holds_read (m : Memory) (w : Width) (address : UInt32) :
    (m.read w address).2.Holds address (w.bytes (m.read w address).1) := by
  have hbytes : w.bytes (m.read w address).1 = (m.readBytes address w.size).1 :=
    w.bytes_ofBigEndian (m.length_readBytes address w.size)
  rw [hbytes]
  exact m.holds_readBytes address w.size

end Memory

namespace Profile

/-- The profile once some instructions are counted, one after the other. -/
def recordAll (p : Profile) (instructions : List Instruction) : Profile :=
  instructions.foldl (fun p i => p.record i.category) p

theorem recordAll_append (p : Profile) (first second : List Instruction) :
    p.recordAll (first ++ second) = (p.recordAll first).recordAll second :=
  List.foldl_append

/-- What becomes of the counts depends on them alone. -/
theorem counts_recordAll {p q : Profile} (h : p.counts = q.counts) (is : List Instruction) :
    (p.recordAll is).counts = (q.recordAll is).counts := by
  induction is generalizing p q with
  | nil => exact h
  | cons i rest ih =>
      apply ih
      simp only [record, count, h]

theorem count_new (c : Category) : count {} c = 0 := by
  cases c <;> decide

theorem count_congr {p q : Profile} (h : p.counts = q.counts) (c : Category) :
    p.count c = q.count c := by
  rw [count, count, h]

theorem instructions_congr {p q : Profile} (h : p.counts = q.counts) :
    p.instructions = q.instructions := by
  simp only [instructions, count_congr h]

theorem count_recordAll {p : Profile} {c : Category} (h : p.count c ≤ cap)
    (is : List Instruction) :
    (p.recordAll is).count c = min cap (p.count c + is.countP (·.category = c)) := by
  induction is generalizing p with
  | nil => exact (Nat.min_eq_right h).symm
  | cons i rest ih =>
      have hcount := p.count_record i.category c
      have hrest := ih (p := p.record i.category) (by rw [hcount]; split <;> omega)
      rw [recordAll, List.foldl_cons, List.countP_cons]
      rw [recordAll, hcount] at hrest
      rw [hrest]
      by_cases hc : i.category = c
      · simp only [hc, if_true, decide_true]
        omega
      · simp only [hc, if_false, decide_false, Bool.false_eq_true]
        omega

theorem instructions_recordAll (p : Profile) (is : List Instruction) :
    (p.recordAll is).instructions = min cap (p.instructions + is.length) := by
  induction is generalizing p with
  | nil => exact (Nat.min_eq_right p.instructions_le_cap).symm
  | cons i rest ih =>
      have hrest := ih (p.record i.category)
      rw [instructions_record] at hrest
      rw [recordAll, List.foldl_cons, List.length_cons]
      exact hrest.trans (by omega)

theorem traps_recordAll (p : Profile) (is : List Instruction) :
    (p.recordAll is).traps = p.traps := by
  induction is generalizing p with
  | nil => rfl
  | cons i rest ih => exact ih (p.record i.category)

end Profile

namespace Machine

instance (m : Machine) : Decidable m.HasBudget :=
  match h : m.config.maxSteps with
  | none => .isTrue fun _ hlimit => nomatch h.symm.trans hlimit
  | some limit =>
      decidable_of_iff (m.profile.instructions < limit.toNat) (by simp [HasBudget, h])

/-- The instruction that a step decodes, whether the step goes on to succeed or not. -/
def decoded? (m : Machine) : Option Instruction :=
  if m.HasBudget then Instruction.ofOpcode? (m.memory.readCell m.pc).1 else none

end Machine

namespace Exec

variable {α : Type}

theorem Local.stateAfter_eq_around {x : Exec α} (hx : Local x) (m : Machine) :
    stateAfter x m = m.around (stateAfter x m) := by
  cases h : x m with
  | ok a m' =>
      rw [stateAfter_of_ok h]
      exact hx.eq_around_of_ok h
  | error fault m' =>
      rw [stateAfter_of_error h]
      exact hx.eq_around_of_error h

/-- However a step ends, it counts the instruction that it decodes, and changes nothing else apart
from registers and memory. -/
theorem stateAfter_step (m : Machine) :
    stateAfter step m = { m.around (stateAfter step m) with
      profile := m.profile.recordAll m.decoded?.toList } := by
  rw [Machine.decoded?]
  by_cases hbudget : m.HasBudget
  · have hfetch := fetchInstruction_eq m
    have hstep : stateAfter step m = stateAfter execute m := by
      rw [stateAfter, step_of_hasBudget hbudget, stateAfter]
    rw [hstep, if_pos hbudget]
    cases hopcode : Instruction.ofOpcode? (m.memory.readCell m.pc).1 with
    | none =>
        simp only [hopcode] at hfetch
        rw [execute, stateAfter_of_error (bind_of_error hfetch _)]
        rfl
    | some i =>
        simp only [hopcode] at hfetch
        rw [execute, stateAfter_bind_of_ok hfetch]
        exact (pervasive_local.complete _).stateAfter_eq_around _
  · obtain ⟨limit, hspent⟩ := step_of_not_hasBudget hbudget
    rw [stateAfter_of_error hspent, if_neg hbudget]
    rfl

end Exec

namespace Machine

/-- The instructions that are decoded within some rounds of a run, oldest first. -/
def decodedFor : Nat → Machine → List Instruction
  | 0, _ => []
  | rounds + 1, m =>
      let here := if m.AtInstruction then m.decoded?.toList else []
      match m.tick with
      | (.running, next) => here ++ next.decodedFor rounds
      | _ => here

/-- The instructions that are decoded in a call. -/
def decodedIn (m : Machine) : Call → List Instruction
  | .load .. => []
  | .step => m.decoded?.toList
  | .run rounds => m.decodedFor rounds

/-- The instructions that are decoded in some calls, oldest first. -/
def decoded : Machine → List Call → List Instruction
  | _, [] => []
  | m, call :: rest => m.decodedIn call ++ (m.answer call).decoded rest

/-- The traps that are counted are those that have emitted a value. -/
def CountsTraps (m : Machine) : Prop :=
  m.profile.traps = min Profile.cap m.emitted.size

/-- What a machine has come to when these instructions were decoded on the way. -/
structure Tallies (start : Machine) (instructions : List Instruction) (m : Machine) : Prop where
  counts : m.profile.counts = (start.profile.recordAll instructions).counts
  config : m.config = start.config
  traps : start.CountsTraps → m.CountsTraps

namespace Tallies

variable {start m next : Machine} {first second : List Instruction}

theorem refl (m : Machine) : Tallies m [] m :=
  ⟨rfl, rfl, id⟩

theorem trans (hfirst : Tallies start first m) (hsecond : Tallies m second next) :
    Tallies start (first ++ second) next where
  counts := by
    rw [hsecond.counts, Profile.recordAll_append]
    exact Profile.counts_recordAll hfirst.counts second
  config := hsecond.config.trans hfirst.config
  traps := hsecond.traps ∘ hfirst.traps

theorem step (m : Machine) : Tallies m m.decoded?.toList (stateAfter Exec.step m) := by
  have hafter := Exec.stateAfter_step m
  have hprofile := congrArg Machine.profile hafter
  have hconfig := congrArg Machine.config hafter
  have hemitted := congrArg Machine.emitted hafter
  constructor
  · exact congrArg Profile.counts hprofile
  · exact hconfig
  · rw [CountsTraps, CountsTraps, hprofile, Profile.traps_recordAll, hemitted]
    exact id

theorem step_of_ok (hstep : Exec.step m = .ok () next) : Tallies m m.decoded?.toList next := by
  have htallies := step m
  rwa [stateAfter_of_ok hstep] at htallies

theorem step_of_error {fault : Fault} (hstep : Exec.step m = .error fault next) :
    Tallies m m.decoded?.toList next := by
  have htallies := step m
  rwa [stateAfter_of_error hstep] at htallies

theorem trap (m : Machine) : Tallies m [] m.trap := by
  rw [trap_eq]
  constructor
  · rfl
  · rfl
  · intro htraps
    rw [CountsTraps] at htraps
    rw [CountsTraps, Array.size_push]
    simp only [Profile.recordTrap, htraps]
    omega

theorem load {base : UInt32} {image : List UInt8} (hload : m.load base image = .ok next) :
    Tallies m [] next := by
  obtain ⟨memory, -, rfl⟩ := exceptMap_eq_ok_iff.mp hload
  exact ⟨rfl, rfl, id⟩

theorem runFor (m : Machine) (n : Nat) : Tallies m (m.decodedFor n) (m.runFor n).2 := by
  induction n generalizing m with
  | zero => exact refl m
  | succ n ih =>
      rcases htick : m.tick with ⟨status, next⟩
      have hrunning (hstatus : status = .running) : m.runFor (n + 1) = next.runFor n := by
        rw [hstatus] at htick
        exact runFor_succ_of_running htick n
      rw [decodedFor, htick]
      cases round_of_tick htick with
      | returned hpc =>
          rw [runFor_succ_of_ended htick (by simp), if_neg fun h => h.1 hpc]
          exact refl m
      | trapped hpc htrap =>
          rw [hrunning rfl, if_neg hpc.not_atInstruction]
          exact (htrap ▸ trap m).trans (ih next)
      | stepped hpc hstep =>
          rw [hrunning rfl, if_pos hpc]
          exact (step_of_ok hstep).trans (ih next)
      | failed hpc hstep =>
          rw [runFor_succ_of_ended htick (by simp), if_pos hpc]
          exact step_of_error hstep

theorem answer (m : Machine) (call : Call) : Tallies m (m.decodedIn call) (m.answer call) := by
  cases call with
  | load base image =>
      rw [Machine.answer]
      cases hload : m.load base image with
      | ok next => exact load hload
      | error cause => exact refl m
  | step => exact step m
  | run rounds => exact runFor m rounds

/-- Whatever is asked of a machine, its counts are those of the instructions that were decoded. -/
theorem after (m : Machine) (calls : List Call) : Tallies m (m.decoded calls) (m.after calls) := by
  induction calls generalizing m with
  | nil => exact refl m
  | cons call rest ih => exact (answer m call).trans (ih (m.answer call))

end Tallies

/-- What a debug trap does to a machine. -/
structure Traps (m next : Machine) : Prop where
  registers : ∀ r, r ≠ .xx → next.registers.get r = m.registers.get r
  flag : next.registers.flag = m.registers.flag
  counts : ∀ c, next.profile.count c = m.profile.count c
  cells : ∀ (x : UInt32) (b : UInt8), m.memory.cells[x]? = some b → next.memory.cells[x]? = some b
  /-- The cells that are touched are those of the two words at the frame, and no opcode is. -/
  touched : ∀ x, x ∈ next.memory.cells ↔
    x ∈ m.memory.cells ∨ (x - m.registers.get .f5).toNat < 4 ∨
      (x - (m.registers.get .f5 + 4)).toNat < 4
  /-- The program counter is the word that the frame holds. -/
  pc : next.memory.Holds (m.registers.get .f5) (bigEndian 4 next.pc)
  /-- The word above it is what is printed. -/
  output : ∃ value, next.memory.Holds (m.registers.get .f5 + 4) (bigEndian 4 value) ∧
    next.output = m.output ++ [toString value.toNat]

theorem traps_trap (m : Machine) : m.Traps m.trap := by
  have hcells (frame x : UInt32) (b : UInt8) (hx : m.memory.cells[x]? = some b) :
      ((m.memory.read .word frame).2.read .word (frame + 4)).2.cells[x]? = some b :=
    Memory.cells_readBytes 4 (Memory.cells_readBytes 4 hx)
  have htouched (frame x : UInt32) :
      x ∈ ((m.memory.read .word frame).2.read .word (frame + 4)).2.cells ↔
        (x ∈ m.memory.cells ∨ (x - frame).toNat < 4) ∨ (x - (frame + 4)).toNat < 4 :=
    (Memory.mem_cells_readBytes (n := 4) (by decide) x).trans
      (or_congr_left (Memory.mem_cells_readBytes (n := 4) (by decide) x))
  rw [trap_eq]
  constructor
  · exact fun r hr => m.registers.get_set_of_ne .xx r _ hr.symm
  · exact m.registers.flag_set .xx _
  · exact fun _ => rfl
  · exact hcells _
  · simp only [htouched, or_assoc, implies_true]
  · rw [pc, Registers.get_set_self]
    exact (m.memory.holds_read .word _).readBytes _ 4
  · refine ⟨_, Memory.holds_read _ .word _, ?_⟩
    simp [output]

/-- The accounts of every state that a machine reaches.  Each debug trap has printed one line, and
the counts are those of the instructions that were decoded, in all and by category.  A run that is
at the return address ends there, at the debug trap it takes the trap, and it returns nowhere
else. -/
theorem accounts_exact (config : Config) (memory : Memory) (calls : List Call) :
    let m := (boot config memory).after calls
    let decoded := (boot config memory).decoded calls
    m.profile.traps = min Profile.cap m.output.length ∧
      (∀ c, m.profile.count c = min Profile.cap (decoded.countP (·.category = c))) ∧
      m.profile.instructions = min Profile.cap decoded.length ∧
      (m.pc = config.returnAddress → m.tick = (.returned, m)) ∧
      (m.pc ≠ config.returnAddress → m.pc = config.debugTrap →
        m.tick = (.running, m.trap) ∧ m.Traps m.trap) ∧
      ∀ rounds done, m.runFor rounds = (.returned, done) → done.pc = config.returnAddress := by
  intro m decoded
  have htallies : Tallies (boot config memory) decoded m := .after _ calls
  have hconfig : m.config = config := htallies.config
  refine ⟨?_, fun c => ?_, ?_, ?_, ?_, ?_⟩
  · have htraps : m.CountsTraps := htallies.traps (Nat.min_zero _).symm
    rw [htraps, output, List.length_map, Array.length_toList]
  · have hstart : (boot config memory).profile.count c = 0 := Profile.count_new c
    rw [Profile.count_congr htallies.counts, Profile.count_recordAll (by omega), hstart,
      Nat.zero_add]
  · have hstart : (boot config memory).profile.instructions = 0 := Profile.instructions_new
    rw [Profile.instructions_congr htallies.counts, Profile.instructions_recordAll, hstart,
      Nat.zero_add]
  · intro hpc
    exact tick_of_returnAddress (hpc.trans (congrArg Config.returnAddress hconfig.symm))
  · intro hreturn htrap
    have hat : m.AtTrap := by
      rw [AtTrap, hconfig]
      exact ⟨hreturn, htrap⟩
    exact ⟨tick_of_atTrap hat rfl, m.traps_trap⟩
  · intro rounds done hrun
    have hend := (path_of_runFor hrun (by simp)).2 rfl
    have hdone := (Tallies.runFor m rounds).config
    rw [hrun] at hdone
    rw [hend, hdone, hconfig]

/-- A jump to the debug trap, which prints the word above the frame and resumes at an instruction
that fails once it is counted. -/
theorem accounts_exact_trap :
    let config : Config := { entry := 0, frame := 7 }
    let image : List UInt8 :=
      [0x08, 0x06, 0xBA, 0x5F, 0xB6, 0xB0, 0xE0, 0x00, 0x00, 0x00, 0x0B, 0x08, 0x0F, 0x00, 0x00]
    let m := (boot config (.fresh fun _ => 0)).after [.load 0 image, .run 3]
    m.output = [toString 0x080F0000] ∧ m.profile.traps = 1 ∧ m.profile.count .transfer = 2 ∧
      m.profile.instructions = 2 := by
  intro config image m
  obtain ⟨htraps, hcounts, hinstructions, -⟩ :=
    accounts_exact config (.fresh fun _ => 0) [.load 0 image, .run 3]
  have hdecoded : (boot config (.fresh fun _ => 0)).decoded [.load 0 image, .run 3] =
      [.krz, .krz] := by
    decide +kernel
  have houtput : m.output = [toString 0x080F0000] := by
    decide +kernel
  refine ⟨houtput, ?_, ?_, ?_⟩
  · rw [htraps, houtput]
    decide
  · rw [hcounts, hdecoded]
    decide
  · rw [hinstructions, hdecoded]
    decide

end Machine

end Cpu32
