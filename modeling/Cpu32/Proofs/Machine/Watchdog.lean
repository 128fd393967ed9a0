import Cpu32.Proofs.Machine.Accounting
import Cpu32.Proofs.Machine.History

/-!
# The watchdog

A limit on executed instructions does not show until it is reached: a run under a limit goes the way
of the run without one, and fails in front of the first instruction beyond the limit.
-/

namespace Cpu32

namespace Machine

variable (m : Machine) (limit : UInt64)

/-- The machine under a limit on executed instructions. -/
def withLimit : Machine :=
  { m with config := { m.config with maxSteps := some limit } }

@[simp] theorem memory_withLimit : (m.withLimit limit).memory = m.memory := rfl

@[simp] theorem pc_withLimit : (m.withLimit limit).pc = m.pc := rfl

@[simp] theorem profile_withLimit : (m.withLimit limit).profile = m.profile := rfl

/-- There is no limit on executed instructions. -/
def IsUnlimited : Prop :=
  m.config.maxSteps = none

variable {m limit}

theorem IsUnlimited.hasBudget (h : m.IsUnlimited) : m.HasBudget := by
  intro other hother
  cases h.symm.trans hother

theorem hasBudget_withLimit (h : m.profile.instructions < limit.toNat) :
    (m.withLimit limit).HasBudget := by
  intro other hother
  cases hother
  exact h

end Machine

theorem Profile.toNat_le_cap (limit : UInt64) : limit.toNat ≤ cap :=
  Nat.le_pred_of_lt limit.toNat_lt

namespace Exec

variable {α : Type} (m : Machine) (limit : UInt64)

theorem Local.withLimit {x : Exec α} (hx : Local x) :
    x (m.withLimit limit) = mapState (·.withLimit limit) (x m) := by
  have hlimited : x (m.withLimit limit) = mapState (m.withLimit limit).around (x m) :=
    hx (m.withLimit limit) m
  rw [hlimited]
  cases h : x m with
  | ok a m' =>
      exact congrArg (fun m' : Machine => EStateM.Result.ok a (m'.withLimit limit))
        (hx.eq_around_of_ok h).symm
  | error fault m' =>
      exact congrArg (fun m' : Machine => EStateM.Result.error fault (m'.withLimit limit))
        (hx.eq_around_of_error h).symm

theorem fetchInstruction_withLimit :
    fetchInstruction (m.withLimit limit) = mapState (·.withLimit limit) (fetchInstruction m) := by
  rw [fetchInstruction_eq, fetchInstruction_eq]
  simp only [Machine.memory_withLimit, Machine.pc_withLimit, Machine.profile_withLimit]
  cases Instruction.ofOpcode? (m.memory.readCell m.pc).1 <;> rfl

theorem execute_withLimit :
    execute (m.withLimit limit) = mapState (·.withLimit limit) (execute m) :=
  bind_mapState (fetchInstruction_withLimit m limit) fun site m' =>
    Local.withLimit m' limit (pervasive_local.complete site)

end Exec

namespace Machine

variable {m next : Machine} {limit : UInt64} {steps : List Machine}

theorem trap_withLimit (m : Machine) (limit : UInt64) :
    (m.withLimit limit).trap = m.trap.withLimit limit := by
  simp only [trap_eq, withLimit]

theorem IsUnlimited.trap (h : m.IsUnlimited) : m.trap.IsUnlimited := by
  rw [IsUnlimited, config_trap]
  exact h

theorem IsUnlimited.step (h : m.IsUnlimited) (hstep : Exec.step m = .ok () next) :
    next.IsUnlimited ∧
      next.profile.instructions = min Profile.cap (m.profile.instructions + 1) := by
  obtain ⟨hconfig, hcount⟩ := Exec.instructions_of_step_ok hstep
  rw [IsUnlimited, hconfig]
  exact ⟨h, hcount⟩

/-- Below the limit a step goes as without it. -/
theorem step_withLimit (h : m.IsUnlimited) (hbudget : m.profile.instructions < limit.toNat) :
    Exec.step (m.withLimit limit) = mapState (·.withLimit limit) (Exec.step m) := by
  rw [Exec.step_of_hasBudget (hasBudget_withLimit hbudget), Exec.step_of_hasBudget h.hasBudget,
    Exec.execute_withLimit]

/-- A path counts its steps. -/
theorem Path.instructions (h : Path m steps next) (hfree : m.IsUnlimited)
    (hcap : m.profile.instructions + steps.length ≤ Profile.cap) :
    next.IsUnlimited ∧ next.profile.instructions = m.profile.instructions + steps.length := by
  induction h with
  | here m => exact ⟨hfree, (Nat.add_zero _).symm⟩
  | trapped hpc htrap _ ih =>
      rw [← htrap, instructions_trap] at ih
      exact ih hfree.trap hcap
  | stepped hpc hstep _ ih =>
      obtain ⟨hfree', hcount⟩ := hfree.step hstep
      rw [List.length_cons] at hcap ⊢
      obtain ⟨hend, htotal⟩ := ih hfree' (by omega)
      exact ⟨hend, by omega⟩

/-- Up to the limit a path is one under the limit. -/
theorem Path.withLimit (h : Path m steps next) (hfree : m.IsUnlimited)
    (hbudget : m.profile.instructions + steps.length ≤ limit.toNat) :
    Path (m.withLimit limit) (steps.map (·.withLimit limit)) (next.withLimit limit) := by
  induction h with
  | here m => exact .here _
  | trapped hpc htrap _ ih =>
      rw [← htrap, instructions_trap] at ih
      exact .trapped hpc (trap_withLimit ..) (ih hfree.trap hbudget)
  | stepped hpc hstep _ ih =>
      obtain ⟨hfree', hcount⟩ := hfree.step hstep
      -- The count does not saturate before it reaches a limit.
      have hcap := Profile.toNat_le_cap limit
      rw [List.length_cons] at hbudget
      refine .stepped hpc ?_ (ih hfree' (by omega))
      rw [step_withLimit hfree (by omega), hstep]
      rfl

/-- The part of a path before one of its steps. -/
theorem Path.exists_stop (h : Path m steps next) {k : Nat} (hk : k < steps.length) :
    ∃ stop, steps[k]? = some stop ∧ stop.AtInstruction ∧ Path m (steps.take k) stop := by
  induction h generalizing k with
  | here m => cases hk
  | trapped hpc htrap _ ih =>
      obtain ⟨stop, hget, hstop, hpath⟩ := ih hk
      exact ⟨stop, hget, hstop, .trapped hpc htrap hpath⟩
  | stepped hpc hstep _ ih =>
      cases k with
      | zero => exact ⟨_, rfl, hpc, .here _⟩
      | succ k =>
          obtain ⟨stop, hget, hstop, hpath⟩ := ih (Nat.lt_of_succ_lt_succ hk)
          exact ⟨stop, hget, hstop, .stepped hpc hstep hpath⟩

/-- Some rounds of a run end so, and these are the states in which the steps among them begin that
succeed. -/
def Runs (m : Machine) (steps : List Machine) (status : Status) (done : Machine) : Prop :=
  ∃ rounds, m.runFor rounds = (status, done) ∧ m.stepsFor rounds = steps

theorem Path.runs {status : Status} {done : Machine} (h : Path m steps next)
    (htick : next.tick = (status, done)) (hended : status ≠ .running) :
    m.Runs steps status done := by
  obtain ⟨n, hrounds⟩ := h.exists_rounds
  obtain ⟨hrun, hsteps⟩ := hrounds 1
  refine ⟨n + 1, ?_, ?_⟩
  · rw [hrun, runFor_succ_of_ended htick hended]
  · rw [hsteps, stepsFor_succ_of_ended htick hended, List.append_nil]

theorem tick_of_limit_le (hpc : m.AtInstruction) (hspent : limit.toNat ≤ m.profile.instructions) :
    (m.withLimit limit).tick =
      (.failed (.stepLimitExceeded limit m.pc), m.withLimit limit) :=
  tick_of_step_error (m := m.withLimit limit) hpc (Exec.step_of_limit_le rfl hspent)

/-- However a machine under a limit is used, no more steps succeed than the limit allows. -/
theorem Leads.length_le {start : Machine} (h : Leads start steps m)
    (hlimit : start.config.maxSteps = some limit) :
    m.config.maxSteps = some limit ∧ min Profile.cap steps.length ≤ m.profile.instructions ∧
      steps.length ≤ limit.toNat := by
  induction h with
  | start => exact ⟨hlimit, by simp, Nat.zero_le _⟩
  | loaded _ hload ih =>
      obtain ⟨memory, _, rfl⟩ := exceptMap_eq_ok_iff.mp hload
      exact ih
  | stepped _ hstep ih =>
      obtain ⟨hlimit', hcount, hle⟩ := ih
      have hbudget := Exec.hasBudget_of_step_ok hstep limit hlimit'
      have hcap := Profile.toNat_le_cap limit
      obtain ⟨hconfig, hone⟩ := Exec.instructions_of_step_ok hstep
      rw [List.length_append, List.length_singleton, hconfig]
      exact ⟨hlimit', by omega, by omega⟩
  | failed _ hstep ih =>
      obtain ⟨hlimit', hcount, hle⟩ := ih
      obtain ⟨hconfig, hkept⟩ := Exec.instructions_of_step_error hstep
      rw [hconfig]
      exact ⟨hlimit', Nat.le_trans hcount hkept, hle⟩
  | trapped _ _ htrap ih =>
      rw [← htrap, config_trap, instructions_trap]
      exact ih

section Fresh

variable {done : Machine} (hfree : m.IsUnlimited) (hfresh : m.profile.instructions = 0)

include hfree hfresh

/-- A run that returns does the same under a limit that allows its steps. -/
theorem Runs.withLimit (h : m.Runs steps .returned done) (hallowed : steps.length ≤ limit.toNat) :
    (m.withLimit limit).Runs (steps.map (·.withLimit limit)) .returned (done.withLimit limit) ∧
      done.profile.instructions = steps.length := by
  obtain ⟨rounds, hrun, rfl⟩ := h
  obtain ⟨hpath, hend⟩ := path_of_runFor hrun (by simp)
  have hcap := Profile.toNat_le_cap limit
  have hlimited : Path (m.withLimit limit) _ (done.withLimit limit) :=
    hpath.withLimit hfree (by omega)
  have htick : (done.withLimit limit).tick = (.returned, done.withLimit limit) :=
    tick_of_returnAddress (hend rfl)
  obtain ⟨-, hcount⟩ := hpath.instructions hfree (by omega)
  exact ⟨hlimited.runs htick (by simp), by omega⟩

/-- A run that returns fails under a smaller limit where its first step beyond the limit begins. -/
theorem Runs.exceeds (h : m.Runs steps .returned done) (hbeyond : limit.toNat < steps.length) :
    ∃ stop, steps[limit.toNat]? = some stop ∧
      (m.withLimit limit).Runs ((steps.take limit.toNat).map (·.withLimit limit))
        (.failed (.stepLimitExceeded limit stop.pc)) (stop.withLimit limit) ∧
      stop.profile.instructions = limit.toNat := by
  obtain ⟨rounds, hrun, rfl⟩ := h
  obtain ⟨hpath, -⟩ := path_of_runFor hrun (by simp)
  obtain ⟨stop, hget, hstop, hprefix⟩ := hpath.exists_stop hbeyond
  have hlength := List.length_take_of_le (Nat.le_of_lt hbeyond)
  have hcap := Profile.toNat_le_cap limit
  have hlimited : Path (m.withLimit limit) _ (stop.withLimit limit) :=
    hprefix.withLimit hfree (by omega)
  obtain ⟨-, hcount⟩ := hprefix.instructions hfree (by omega)
  have htick : (stop.withLimit limit).tick = _ := tick_of_limit_le hstop (by omega)
  exact ⟨stop, hget, hlimited.runs htick (by simp), by omega⟩

end Fresh

/-- A limit is exact, and does not show before it is reached.  A run that returns after some steps
returns alike under a limit that allows them; under a smaller one it fails where the first step
beyond the limit would begin, having counted as many instructions as the limit allows.  And no use
of a machine makes more steps succeed than its limit allows. -/
theorem limit_exact (config : Config) (memory : Memory) (base : UInt32) (image : List UInt8)
    (limit : UInt64) (m : Machine)
    (hload : (boot { config with maxSteps := none } memory).load base image = .ok m) :
    (boot { config with maxSteps := some limit } memory).load base image =
        .ok (m.withLimit limit) ∧
      (∀ steps done, m.Runs steps .returned done →
        (steps.length ≤ limit.toNat →
          (m.withLimit limit).Runs (steps.map (·.withLimit limit)) .returned
              (done.withLimit limit) ∧
            done.profile.instructions = steps.length) ∧
        (limit.toNat < steps.length → ∃ stop,
          steps[limit.toNat]? = some stop ∧
            (m.withLimit limit).Runs ((steps.take limit.toNat).map (·.withLimit limit))
              (.failed (.stepLimitExceeded limit stop.pc)) (stop.withLimit limit) ∧
            stop.profile.instructions = limit.toNat)) ∧
      ∀ calls, ((m.withLimit limit).steps calls).length ≤ limit.toNat := by
  obtain ⟨loaded, hmemory, hm⟩ := exceptMap_eq_ok_iff.mp hload
  have hfree : m.IsUnlimited := by
    rw [← hm]
    rfl
  have hfresh : m.profile.instructions = 0 := by
    rw [← hm]
    exact Profile.instructions_new
  refine ⟨exceptMap_eq_ok_iff.mpr ⟨loaded, hmemory, by rw [← hm]; rfl⟩, ?_, ?_⟩
  · intro steps done hruns
    exact ⟨hruns.withLimit hfree hfresh, hruns.exceeds hfree hfresh⟩
  · intro calls
    exact ((leads_after _ calls).length_le rfl).2.2

/-- A jump to the debug trap, the address it resumes at, and an instruction there that ends the run:
under a limit of one the trap is still taken. -/
theorem limit_exact_trap :
    let config : Config := { entry := 0, frame := 7 }
    let image : List UInt8 :=
      [0x08, 0x06, 0xBA, 0x5F, 0xB6, 0xB0, 0xE0, 0x00, 0x00, 0x00, 0x0B,
        0x08, 0x06, 0xBD, 0xA5, 0x74, 0xB8, 0xE0]
    ∃ m, (boot config (.fresh fun _ => 0)).load 0 image = .ok m ∧
      ∃ steps done stop, m.Runs steps .returned done ∧ steps.length = 2 ∧
        (m.withLimit 1).Runs ((steps.take 1).map (·.withLimit 1))
          (.failed (.stepLimitExceeded 1 0x0B)) (Machine.withLimit stop 1) ∧
        stop.profile.instructions = 1 ∧ stop.emitted.size = 1 := by
  intro config image
  obtain ⟨m, hload, hreturned, hsteps⟩ :
      ∃ m, (boot config (.fresh fun _ => 0)).load 0 image = .ok m ∧
        (m.runFor 4).1 = .returned ∧
        (m.stepsFor 4).map (fun m => (m.pc, m.emitted.size)) = [(0, 0), (0x0B, 1)] :=
    ⟨_, congrArg (Except.map _) (Memory.load_of_fits (by decide)), by decide +kernel,
      by decide +kernel⟩
  have hruns : m.Runs (m.stepsFor 4) .returned (m.runFor 4).2 :=
    ⟨4, Prod.ext hreturned rfl, rfl⟩
  have hlength : (m.stepsFor 4).length = 2 := by
    have h := congrArg List.length hsteps
    rwa [List.length_map] at h
  have hlimit : (1 : UInt64).toNat = 1 := rfl
  have hbeyond : (1 : UInt64).toNat < (m.stepsFor 4).length := by
    rw [hlimit, hlength]
    decide
  obtain ⟨stop, hget, hlimited, hcount⟩ :=
    ((limit_exact config _ 0 image 1 m hload).2.1 _ _ hruns).2 hbeyond
  rw [hlimit] at hget hlimited hcount
  have hstop : some (stop.pc, stop.emitted.size) = some (0x0B, 1) := by
    have h : ((m.stepsFor 4).map fun m => (m.pc, m.emitted.size))[1]? = some (0x0B, 1) := by
      rw [hsteps]
      rfl
    rwa [List.getElem?_map, hget] at h
  obtain ⟨hpc, hemitted⟩ := Prod.mk.inj (Option.some.inj hstop)
  rw [hpc] at hlimited
  exact ⟨m, hload, _, _, stop, hruns, hlength, hlimited, hcount, hemitted⟩

end Machine

end Cpu32
