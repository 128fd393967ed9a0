import Cpu32.Proofs.Machine.Refusal

/-!
# Faults before anything is performed

A step that fails before it performs anything has at most read the bytes up to where it fails, moved
past them, and counted the instruction.
-/

namespace Cpu32

theorem Instruction.arity_le (i : Instruction) : i.arity ≤ 3 := by
  cases i <;> decide

theorem ModRM.length_flatMap_encode_le (operands : List ModRM) :
    (operands.flatMap encode).length ≤ 5 * operands.length := by
  induction operands with
  | nil => exact Nat.le_refl 0
  | cons d rest ih =>
      have hsize := d.size_le
      rw [List.flatMap_cons, List.length_append, List.length_cons, length_encode]
      omega

/-- An instruction up to its first operand without meaning does not reach around the address
space. -/
theorem FirstUnsupported.length_encoded_le {i : Instruction} {before : List ModRM} {d : ModRM}
    (h : FirstUnsupported before d i.arity) :
    (i.encoded (before ++ [d])).length ≤ UInt32.size := by
  have hoperands := ModRM.length_flatMap_encode_le (before ++ [d])
  have hcount := h.count
  have harity := i.arity_le
  rw [List.length_append, List.length_singleton] at hoperands
  rw [Instruction.encoded, List.length_cons]
  simp only [UInt32.size]
  omega

/-- Nothing that is performed fails in any other way than by a refused store. -/
theorem Exec.perform_ne_error {action : Action} {site : Site} {m next : Machine} {fault : Fault}
    (h : ∀ width, fault ≠ refusal site width) : action.perform site m ≠ .error fault next := by
  intro hperform
  obtain ⟨_, width, _, hfault, _⟩ := perform_error_cases hperform
  exact h width hfault

namespace Machine

variable (m : Machine)

/-- When a step fails before it performs anything, and what it leaves.  A spent budget changes
nothing.  A byte that is no opcode is read, as the one byte at the program counter.  An operand
without meaning, the first one, is read as a whole after those before it, none after it is read, and
the instruction is counted.  The fault names the byte or the operand, and the address of the first
byte. -/
theorem fetch_faults :
    (∀ limit pc next, Exec.step m = .error (.stepLimitExceeded limit pc) next ↔
      m.config.maxSteps = some limit ∧ limit.toNat ≤ m.profile.instructions ∧ pc = m.pc ∧
        next = m) ∧
    (∀ opcode pc next, Exec.step m = .error (.invalidInstruction opcode pc) next ↔
      m.HasBudget ∧ Instruction.ofOpcode? opcode = none ∧ m.Faces [opcode] ∧ pc = m.pc ∧
        next = m.past 1 ∧ m.MovesPast 1 next) ∧
    ∀ reg mode pc next, Exec.step m = .error (.unsupportedAddressing reg mode pc) next ↔
      m.HasBudget ∧ ∃ (i : Instruction) (before : List ModRM) (d : ModRM),
        FirstUnsupported before d i.arity ∧ m.Faces (i.encoded (before ++ [d])) ∧
        reg = d.narrowed.reg ∧ mode = d.narrowed.mode ∧ pc = m.pc ∧
        let length := (i.encoded (before ++ [d])).length
        next = m.fetched i length ∧
          ({ m with profile := m.profile.record i.category } : Machine).MovesPast length next := by
  refine ⟨fun limit pc next => ?_, fun opcode pc next => ?_, fun reg mode pc next => ?_⟩
  all_goals rw [Exec.step_error_iff]
  · constructor
    · intro h
      cases h with
      | spent hlimit hspent => exact ⟨hlimit, hspent, rfl, rfl⟩
      | performed _ _ _ _ hperform => exact absurd hperform (Exec.perform_ne_error nofun)
    · rintro ⟨hlimit, hspent, rfl, rfl⟩
      exact .spent hlimit hspent
  · constructor
    · intro h
      cases h with
      | unknown hbudget hnone hfaces =>
          exact ⟨hbudget, hnone, hfaces, rfl, rfl, m.movesPast_past 1 (by decide)⟩
      | performed _ _ _ _ hperform => exact absurd hperform (Exec.perform_ne_error nofun)
    · rintro ⟨hbudget, hnone, hfaces, rfl, rfl, -⟩
      exact .unknown hbudget hnone hfaces
  · constructor
    · intro h
      cases h with
      | @unsupported i before d hbudget hfirst hfaces =>
          exact ⟨hbudget, i, before, d, hfirst, hfaces, rfl, rfl, rfl, rfl,
            movesPast_past _ _ hfirst.length_encoded_le⟩
      | performed _ _ _ _ hperform => exact absurd hperform (Exec.perform_ne_error nofun)
    · rintro ⟨hbudget, i, before, d, hfirst, hfaces, rfl, rfl, rfl, rfl, -⟩
      exact .unsupported hbudget hfirst hfaces

/-- An instruction around the top of the address space whose second operand has no meaning. -/
theorem fetch_faults_second_operand :
    let m := boot { entry := 0xFFFFFFFE } (.fresh fun k => [0x08, 0x04, 0x01, 0x2F].getD k 0xFF)
    ∃ next, Exec.step m = .error (.unsupportedAddressing 1 0x0F 0xFFFFFFFE) next ∧
      next.pc = 2 ∧ next.profile.count .transfer = 1 ∧
      0x00000001 ∈ next.memory.cells ∧ 0x00000002 ∉ next.memory.cells := by
  intro m
  have hfirst : FirstUnsupported [.immediate 1] ⟨1, 0x0F, 0⟩ Instruction.krz.arity :=
    ⟨by decide, rfl, by decide⟩
  have hfaces : m.Faces (Instruction.encoded .krz ([.immediate 1] ++ [⟨1, 0x0F, 0⟩])) := by
    decide +kernel
  refine ⟨_, ((m.fetch_faults).2.2 _ _ _ _).mpr ⟨fun _ h => (nomatch h), _, _, _, hfirst, hfaces,
    rfl, rfl, rfl, rfl, movesPast_past _ _ hfirst.length_encoded_le⟩, ?_⟩
  decide +kernel

end Machine

end Cpu32
