import Cpu32.Proofs.Machine.Watchdog
import Cpu32.Proofs.Memory

/-!
# Runs that a limit does not end

A limit counts instructions, and a debug trap is none.  A trap that resumes at the trap is taken
again and again.  Any other trap is followed by an instruction or by the end of the run, so that a
run without such a trap ends soon after its limit.
-/

namespace Cpu32

namespace Machine

variable (m : Machine)

instance : Decidable m.AtTrap :=
  inferInstanceAs (Decidable (_ ∧ _))

/-- A run takes a debug trap next that resumes at the debug trap. -/
def IsStuck : Prop :=
  m.AtTrap ∧ (m.memory.read .word (m.registers.get .f5)).1 = m.config.debugTrap

instance : Decidable m.IsStuck :=
  inferInstanceAs (Decidable (_ ∧ _))

/-- A run comes to a debug trap that resumes at the debug trap. -/
def GetsStuck : Prop :=
  ∃ rounds, (m.runFor rounds).1 = .running ∧ (m.runFor rounds).2.IsStuck

theorem pc_trap : m.trap.pc = (m.memory.read .word (m.registers.get .f5)).1 := by
  rw [trap_eq]
  exact m.registers.get_set_self .xx _

theorem word_trap :
    (m.trap.memory.read .word (m.trap.registers.get .f5)).1 =
      (m.memory.read .word (m.registers.get .f5)).1 := by
  have hframe (resume : UInt32) :
      (m.registers.set .xx resume).get .f5 = m.registers.get .f5 :=
    m.registers.get_set_of_ne .xx .f5 resume (by decide)
  rw [trap_eq]
  simp only [hframe]
  exact m.memory.read_again ..

variable {m}

theorem IsStuck.trap (h : m.IsStuck) : m.trap.IsStuck := by
  obtain ⟨⟨hreturn, hpc⟩, hword⟩ := h
  rw [IsStuck, AtTrap, word_trap, pc_trap, config_trap, hword, ← hpc]
  exact ⟨⟨hreturn, rfl⟩, rfl⟩

theorem AtTrap.not_atTrap_trap (hpc : m.AtTrap) (h : ¬ m.IsStuck) : ¬ m.trap.AtTrap := by
  rintro ⟨-, hagain⟩
  rw [pc_trap, config_trap] at hagain
  exact h ⟨hpc, hagain⟩

theorem IsStuck.runFor (h : m.IsStuck) (n : Nat) : (m.runFor n).1 = .running := by
  induction n generalizing m with
  | zero => rfl
  | succ n ih =>
      rw [runFor_succ_of_running (tick_of_atTrap h.1 rfl)]
      exact ih h.trap

theorem GetsStuck.of_tick {next : Machine} (htick : m.tick = (.running, next))
    (h : next.GetsStuck) : m.GetsStuck := by
  obtain ⟨rounds, hrounds⟩ := h
  refine ⟨rounds + 1, ?_⟩
  rw [runFor_succ_of_running htick]
  exact hrounds

theorem GetsStuck.runFor (h : m.GetsStuck) (n : Nat) : (m.runFor n).1 = .running := by
  obtain ⟨rounds, hrunning, hstuck⟩ := h
  by_cases hended : (m.runFor n).1 = .running
  · exact hended
  · have hlater : (m.runFor (n + rounds)).1 = (m.runFor n).1 :=
      congrArg Prod.fst (runFor_of_ended rfl hended rounds)
    rw [Nat.add_comm, runFor_add hrunning, hstuck.runFor] at hlater
    exact hlater.symm

/-- The rounds that a run under a limit may still go on for: an instruction and a trap before it for
each that the limit allows, and what ends the run. -/
def roundsLeft (limit : UInt64) (m : Machine) : Nat :=
  2 * (limit.toNat - m.profile.instructions) + if m.AtTrap then 2 else 1

theorem roundsLeft_le (m : Machine) (limit : UInt64) :
    m.roundsLeft limit ≤ 2 * limit.toNat + 2 := by
  rw [roundsLeft]
  split <;> omega

/-- Every round that goes on leaves fewer rounds, except for a trap that resumes at itself. -/
theorem roundsLeft_of_tick {limit : UInt64} {next : Machine}
    (hlimit : m.config.maxSteps = some limit) (hstuck : ¬ m.IsStuck)
    (htick : m.tick = (.running, next)) :
    next.config.maxSteps = some limit ∧ next.roundsLeft limit < m.roundsLeft limit := by
  cases round_of_tick htick with
  | trapped hpc htrap =>
      -- The trap resumes elsewhere, so the round that was kept for it is used up.
      rw [← htrap, config_trap, roundsLeft, roundsLeft, instructions_trap, if_pos hpc,
        if_neg (hpc.not_atTrap_trap hstuck)]
      exact ⟨hlimit, by omega⟩
  | stepped hpc hstep =>
      have hbudget := Exec.hasBudget_of_step_ok hstep limit hlimit
      have hcap := Profile.toNat_le_cap limit
      obtain ⟨hconfig, hcount⟩ := Exec.instructions_of_step_ok hstep
      have htrap : ¬ m.AtTrap := fun h => h.not_atInstruction hpc
      rw [hconfig, roundsLeft, roundsLeft, hcount, if_neg htrap]
      refine ⟨hlimit, ?_⟩
      -- An instruction uses up two rounds, and gives back one if it jumps to the trap.
      split <;> omega

theorem ends_of_roundsLeft_le {limit : UInt64} (hlimit : m.config.maxSteps = some limit)
    (hfree : ¬ m.GetsStuck) {n : Nat} (hleft : m.roundsLeft limit ≤ n) :
    (m.runFor n).1 ≠ .running := by
  induction n generalizing m with
  | zero =>
      rw [roundsLeft] at hleft
      split at hleft <;> omega
  | succ n ih =>
      rcases htick : m.tick with ⟨status, next⟩
      by_cases hrunning : status = .running
      · rw [hrunning] at htick
        have hstuck : ¬ m.IsStuck := fun h => hfree ⟨0, rfl, h⟩
        obtain ⟨hlimit', hless⟩ := roundsLeft_of_tick hlimit hstuck htick
        rw [runFor_succ_of_running htick]
        exact ih hlimit' (fun h => hfree (h.of_tick htick)) (by omega)
      · rw [runFor_succ_of_ended htick hrunning]
        exact hrunning

/-- Under a limit a run either gets stuck at a debug trap, and never ends, or it ends within two
rounds for each instruction allowed and two more. -/
theorem runs_forever_iff_getsStuck (m : Machine) (limit : UInt64) :
    let limited := m.withLimit limit
    ((∀ rounds, (limited.runFor rounds).1 = .running) ↔ limited.GetsStuck) ∧
      ((limited.runFor (2 * limit.toNat + 2)).1 = .running ↔ limited.GetsStuck) := by
  intro limited
  have hends : (limited.runFor (2 * limit.toNat + 2)).1 = .running → limited.GetsStuck := by
    intro hrunning
    by_cases hstuck : limited.GetsStuck
    · exact hstuck
    · exact absurd hrunning (ends_of_roundsLeft_le rfl hstuck (limited.roundsLeft_le limit))
  constructor
  · exact ⟨fun h => hends (h _), GetsStuck.runFor⟩
  · exact ⟨hends, fun h => h.runFor _⟩

/-- A program that stores the address of the debug trap at the frame and jumps there runs on and on
under a limit of two. -/
theorem runs_forever_limit_two :
    let image : List UInt8 :=
      [0x08, 0x06, 0xBA, 0x5F, 0xB6, 0xB0, 0xB0, 0x08, 0x06, 0xBA, 0x5F, 0xB6, 0xB0, 0xE0]
    ∃ m, (boot { maxSteps := some 2 } (.fresh fun _ => 0)).load defaultEntry image = .ok m ∧
      ∀ rounds, (m.runFor rounds).1 = .running := by
  intro image
  obtain ⟨m, hload, hstuck⟩ :
      ∃ m, (boot { maxSteps := some 2 } (.fresh fun _ => 0)).load defaultEntry image = .ok m ∧
        ((m.runFor 2).1 = .running ∧ (m.runFor 2).2.IsStuck) :=
    ⟨_, congrArg (Except.map _) (Memory.load_of_fits (by decide)), by decide +kernel⟩
  have hgets : m.GetsStuck := ⟨2, hstuck⟩
  exact ⟨m, hload, hgets.runFor⟩

end Machine

end Cpu32
