import Cpu32.Machine.Run
import Cpu32.Proofs.Outcome

/-!
# Histories of machines

A machine is loaded, stepped and run.  Its history lists the steps that succeeded, by the states in
which they began, those of runs among them.  Every call is a sequence of small transitions, over
which invariants of machines are proved.
-/

namespace Cpu32

namespace Machine

variable (m : Machine)

/-- A run takes a debug trap next. -/
def AtTrap : Prop :=
  m.pc ≠ m.config.returnAddress ∧ m.pc = m.config.debugTrap

/-- A run carries out an instruction next. -/
def AtInstruction : Prop :=
  m.pc ≠ m.config.returnAddress ∧ m.pc ≠ m.config.debugTrap

instance : Decidable m.AtInstruction :=
  inferInstanceAs (Decidable (_ ∧ _))

/-- The states in which the steps begin that succeed within some rounds of a run, oldest first. -/
def stepsFor : Nat → Machine → List Machine
  | 0, _ => []
  | rounds + 1, m =>
      match m.tick with
      | (.running, next) =>
          if m.AtInstruction then m :: next.stepsFor rounds else next.stepsFor rounds
      | _ => []

end Machine

/-- What is asked of a machine.  A run is followed for a number of rounds, or to its end. -/
inductive Call
  | load (base : UInt32) (image : List UInt8)
  | step
  | run (rounds : Nat)
deriving DecidableEq, Repr

namespace Machine

variable (m : Machine)

/-- The machine after a call, whether it fails or not. -/
def answer : Call → Machine
  | .load base image =>
      match m.load base image with
      | .ok m => m
      | .error _ => m
  | .step => stateAfter Exec.step m
  | .run rounds => (m.runFor rounds).2

/-- The states in which the steps of a call begin that succeed. -/
def stepsOf : Call → List Machine
  | .load .. => []
  | .step =>
      match Exec.step m with
      | .ok .. => [m]
      | .error .. => []
  | .run rounds => m.stepsFor rounds

/-- The machine after some calls. -/
def after : Machine → List Call → Machine
  | m, [] => m
  | m, call :: rest => (m.answer call).after rest

/-- The states in which the steps of some calls begin that succeed, oldest first. -/
def steps : Machine → List Call → List Machine
  | _, [] => []
  | m, call :: rest => m.stepsOf call ++ (m.answer call).steps rest

/-- How a round of a run ends, and what it leaves behind. -/
inductive Round (m : Machine) : Status → Machine → Prop
  | returned (hpc : m.pc = m.config.returnAddress) : Round m .returned m
  | trapped {next : Machine} (hpc : m.AtTrap) (htrap : m.trap = next) : Round m .running next
  | stepped {next : Machine} (hpc : m.AtInstruction) (hstep : Exec.step m = .ok () next) :
      Round m .running next
  | failed {fault : Fault} {next : Machine} (hpc : m.AtInstruction)
      (hstep : Exec.step m = .error fault next) : Round m (.failed fault) next

variable {m}

theorem round_of_tick {status : Status} {next : Machine} (htick : m.tick = (status, next)) :
    Round m status next := by
  rw [tick] at htick
  split at htick
  · cases htick
    exact .returned ‹_›
  · split at htick
    · obtain ⟨rfl, htrap⟩ := Prod.mk.inj htick
      exact .trapped ⟨‹_›, ‹_›⟩ htrap
    · split at htick
      · cases htick
        exact .stepped ⟨‹_›, ‹_›⟩ ‹_›
      · cases htick
        exact .failed ⟨‹_›, ‹_›⟩ ‹_›

theorem tick_of_atTrap {next : Machine} (hpc : m.AtTrap) (htrap : m.trap = next) :
    m.tick = (.running, next) := by
  rw [tick, if_neg hpc.1, if_pos hpc.2, htrap]

theorem tick_of_returnAddress (hpc : m.pc = m.config.returnAddress) : m.tick = (.returned, m) :=
  if_pos hpc

theorem tick_of_step_ok {next : Machine} (hpc : m.AtInstruction)
    (hstep : Exec.step m = .ok () next) : m.tick = (.running, next) := by
  rw [tick, if_neg hpc.1, if_neg hpc.2, hstep]

theorem tick_of_step_error {fault : Fault} {next : Machine} (hpc : m.AtInstruction)
    (hstep : Exec.step m = .error fault next) : m.tick = (.failed fault, next) := by
  rw [tick, if_neg hpc.1, if_neg hpc.2, hstep]

theorem AtTrap.not_atInstruction (hpc : m.AtTrap) : ¬ m.AtInstruction :=
  fun h => h.2 hpc.2

theorem runFor_succ_of_running {next : Machine} (htick : m.tick = (.running, next)) (n : Nat) :
    m.runFor (n + 1) = next.runFor n := by
  rw [runFor, htick]

theorem runFor_succ_of_ended {status : Status} {next : Machine} (htick : m.tick = (status, next))
    (hended : status ≠ .running) (n : Nat) : m.runFor (n + 1) = (status, next) := by
  rw [runFor, htick]
  cases status with
  | running => exact absurd rfl hended
  | returned => rfl
  | failed fault => rfl

theorem stepsFor_succ_of_ended {status : Status} {next : Machine}
    (htick : m.tick = (status, next)) (hended : status ≠ .running) (n : Nat) :
    m.stepsFor (n + 1) = [] := by
  rw [stepsFor, htick]
  cases status with
  | running => exact absurd rfl hended
  | returned => rfl
  | failed fault => rfl

theorem stepsFor_succ_of_atTrap {next : Machine} (hpc : m.AtTrap) (htrap : m.trap = next)
    (n : Nat) : m.stepsFor (n + 1) = next.stepsFor n := by
  rw [stepsFor, tick_of_atTrap hpc htrap]
  exact if_neg hpc.not_atInstruction

theorem stepsFor_succ_of_step_ok {next : Machine} (hpc : m.AtInstruction)
    (hstep : Exec.step m = .ok () next) (n : Nat) :
    m.stepsFor (n + 1) = m :: next.stepsFor n := by
  rw [stepsFor, tick_of_step_ok hpc hstep]
  exact if_pos hpc

/-- A run that goes on is a run from where it has come to. -/
theorem runFor_add {n : Nat} (h : (m.runFor n).1 = .running) (k : Nat) :
    m.runFor (n + k) = (m.runFor n).2.runFor k := by
  induction n generalizing m with
  | zero => rw [Nat.zero_add, runFor]
  | succ n ih =>
      rcases htick : m.tick with ⟨status, next⟩
      by_cases hrunning : status = .running
      · rw [hrunning] at htick
        rw [Nat.add_right_comm, runFor_succ_of_running htick, runFor_succ_of_running htick]
        rw [runFor_succ_of_running htick] at h
        exact ih h
      · rw [runFor_succ_of_ended htick hrunning] at h
        exact absurd h hrunning

/-- More rounds do not change how a run ended. -/
theorem runFor_of_ended {status : Status} {done : Machine} {n : Nat}
    (h : m.runFor n = (status, done)) (hended : status ≠ .running) (k : Nat) :
    m.runFor (n + k) = (status, done) := by
  induction n generalizing m with
  | zero =>
      cases h
      exact absurd rfl hended
  | succ n ih =>
      rw [Nat.add_right_comm]
      rcases htick : m.tick with ⟨first, next⟩
      by_cases hrunning : first = .running
      · rw [hrunning] at htick
        rw [runFor_succ_of_running htick] at h ⊢
        exact ih h
      · rw [runFor_succ_of_ended htick hrunning] at h ⊢
        exact h

/-- Rounds after which a run goes on, with the states in which its steps begin. -/
inductive Path : Machine → List Machine → Machine → Prop
  | here (m : Machine) : Path m [] m
  | trapped {m between next : Machine} {steps : List Machine} (hpc : m.AtTrap)
      (htrap : m.trap = between) (hrest : Path between steps next) : Path m steps next
  | stepped {m between next : Machine} {steps : List Machine} (hpc : m.AtInstruction)
      (hstep : Exec.step m = .ok () between) (hrest : Path between steps next) :
      Path m (m :: steps) next

/-- A run goes the way that a path leads, and on from its end. -/
theorem Path.exists_rounds {next : Machine} {steps : List Machine} (h : Path m steps next) :
    ∃ n, ∀ k, m.runFor (n + k) = next.runFor k ∧
      m.stepsFor (n + k) = steps ++ next.stepsFor k := by
  induction h with
  | here m => exact ⟨0, fun k => by rw [Nat.zero_add]; exact ⟨rfl, rfl⟩⟩
  | trapped hpc htrap _ ih =>
      obtain ⟨n, hrest⟩ := ih
      refine ⟨n + 1, fun k => ?_⟩
      rw [Nat.add_right_comm, runFor_succ_of_running (tick_of_atTrap hpc htrap),
        stepsFor_succ_of_atTrap hpc htrap]
      exact hrest k
  | stepped hpc hstep _ ih =>
      obtain ⟨n, hrest⟩ := ih
      refine ⟨n + 1, fun k => ?_⟩
      rw [Nat.add_right_comm, runFor_succ_of_running (tick_of_step_ok hpc hstep),
        stepsFor_succ_of_step_ok hpc hstep, (hrest k).2]
      exact ⟨(hrest k).1, rfl⟩

/-- A run that has not failed has gone along a path, and ends only at the return address. -/
theorem path_of_runFor {status : Status} {done : Machine} {n : Nat}
    (h : m.runFor n = (status, done)) (hfine : ∀ fault, status ≠ .failed fault) :
    Path m (m.stepsFor n) done ∧ (status = .returned → done.pc = done.config.returnAddress) := by
  induction n generalizing m with
  | zero =>
      cases h
      exact ⟨.here _, by simp⟩
  | succ n ih =>
      rcases htick : m.tick with ⟨first, next⟩
      cases round_of_tick htick with
      | returned hpc =>
          rw [runFor_succ_of_ended htick (by simp)] at h
          cases h
          rw [stepsFor_succ_of_ended htick (by simp)]
          exact ⟨.here _, fun _ => hpc⟩
      | trapped hpc htrap =>
          rw [runFor_succ_of_running htick] at h
          obtain ⟨hpath, hend⟩ := ih h
          rw [stepsFor_succ_of_atTrap hpc htrap]
          exact ⟨.trapped hpc htrap hpath, hend⟩
      | stepped hpc hstep =>
          rw [runFor_succ_of_running htick] at h
          obtain ⟨hpath, hend⟩ := ih h
          rw [stepsFor_succ_of_step_ok hpc hstep]
          exact ⟨.stepped hpc hstep hpath, hend⟩
      | failed hpc hstep =>
          rw [runFor_succ_of_ended htick (by simp)] at h
          cases h
          exact absurd rfl (hfine _)

/-- A machine reached from another by small transitions, and the states in which the steps among
them begin that succeed. -/
inductive Leads (start : Machine) : List Machine → Machine → Prop
  | start : Leads start [] start
  | loaded {steps : List Machine} {m next : Machine} {base : UInt32} {image : List UInt8}
      (hleads : Leads start steps m) (hload : m.load base image = .ok next) : Leads start steps next
  | stepped {steps : List Machine} {m next : Machine} (hleads : Leads start steps m)
      (hstep : Exec.step m = .ok () next) : Leads start (steps ++ [m]) next
  | failed {steps : List Machine} {m next : Machine} {fault : Fault}
      (hleads : Leads start steps m) (hstep : Exec.step m = .error fault next) :
      Leads start steps next
  | trapped {steps : List Machine} {m next : Machine} (hleads : Leads start steps m)
      (hpc : m.AtTrap) (htrap : m.trap = next) : Leads start steps next

theorem Leads.trans {start m next : Machine} {first second : List Machine}
    (hfirst : Leads start first m) (hsecond : Leads m second next) :
    Leads start (first ++ second) next := by
  induction hsecond with
  | start =>
      rw [List.append_nil]
      exact hfirst
  | loaded _ hload ih => exact .loaded ih hload
  | stepped _ hstep ih =>
      rw [← List.append_assoc]
      exact .stepped ih hstep
  | failed _ hstep ih => exact .failed ih hstep
  | trapped _ hpc htrap ih => exact .trapped ih hpc htrap

variable (m)

theorem leads_runFor (n : Nat) : Leads m (m.stepsFor n) (m.runFor n).2 := by
  induction n generalizing m with
  | zero => exact .start
  | succ n ih =>
      rcases htick : m.tick with ⟨status, next⟩
      cases round_of_tick htick with
      | returned hpc =>
          rw [runFor_succ_of_ended htick (by simp), stepsFor_succ_of_ended htick (by simp)]
          exact .start
      | trapped hpc htrap =>
          rw [runFor_succ_of_running htick, stepsFor_succ_of_atTrap hpc htrap]
          exact (Leads.trapped .start hpc htrap).trans (ih next)
      | stepped hpc hstep =>
          rw [runFor_succ_of_running htick, stepsFor_succ_of_step_ok hpc hstep]
          exact (Leads.stepped .start hstep).trans (ih next)
      | failed hpc hstep =>
          rw [runFor_succ_of_ended htick (by simp), stepsFor_succ_of_ended htick (by simp)]
          exact .failed .start hstep

theorem leads_answer (call : Call) : Leads m (m.stepsOf call) (m.answer call) := by
  cases call with
  | load base image =>
      cases h : m.load base image with
      | ok next =>
          simp only [answer, stepsOf, h]
          exact .loaded .start h
      | error cause =>
          simp only [answer, stepsOf, h]
          exact .start
  | step =>
      cases h : Exec.step m with
      | ok _ next =>
          simp only [answer, stepsOf, stateAfter, h]
          exact .stepped .start h
      | error fault next =>
          simp only [answer, stepsOf, stateAfter, h]
          exact .failed .start h
  | run rounds => exact m.leads_runFor rounds

/-- What calls do is what their history says. -/
theorem leads_after (calls : List Call) : Leads m (m.steps calls) (m.after calls) := by
  induction calls generalizing m with
  | nil => exact .start
  | cons call rest ih => exact (m.leads_answer call).trans (ih (m.answer call))

end Machine

end Cpu32
