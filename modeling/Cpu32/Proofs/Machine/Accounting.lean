import Cpu32.Machine.Run
import Cpu32.Proofs.Machine.Locality

/-!
# Accounting

Besides registers and memory a step changes one execution count only, and all counts together act as
a single counter that stops at the largest count.  The limit on executed instructions is looked at
nowhere but before an instruction is fetched.
-/

namespace Cpu32

theorem Category.index_ne {c d : Category} (h : c ≠ d) : c.index.val ≠ d.index.val := by
  revert h
  cases c <;> cases d <;> decide

namespace Profile

variable (p : Profile)

theorem count_record (c d : Category) :
    (p.record c).count d = if c = d then min cap (p.count c + 1) else p.count d := by
  by_cases h : c = d
  · rw [if_pos h, ← h]
    exact Vector.getElem_set_self ..
  · rw [if_neg h]
    exact Vector.getElem_set_ne c.index.isLt d.index.isLt (Category.index_ne h)

/-- However the counts are spread over the categories, recording adds one to their total. -/
theorem instructions_record (c : Category) :
    (p.record c).instructions = min cap (p.instructions + 1) := by
  simp only [instructions, Category.all, List.foldr, count_record]
  cases c <;> simp only [reduceCtorEq, ↓reduceIte] <;> omega

theorem instructions_new : instructions {} = 0 := by
  decide

theorem instructions_le_cap : p.instructions ≤ cap :=
  Nat.min_le_left ..

end Profile

namespace Exec

/-- The operands of an instruction are fetched, and it is carried out. -/
def complete (site : Site) : Exec Unit := do
  let action ← fetchAction site
  action.perform site

theorem Pervasive.complete {C : {α : Type} → Exec α → Prop} (hC : Pervasive C) (site : Site) :
    C (complete site) :=
  hC.bind (hC.fetchAction hC.next site) fun action => hC.perform action site

/-- A step, whether there is budget for it or not. -/
def execute : Exec Unit := do
  let site ← fetchInstruction
  complete site

variable {m m' : Machine}

theorem step_of_hasBudget (h : m.HasBudget) : step m = execute m :=
  bind_of_ok (checkBudget_of_hasBudget h) _

/-- The opcode at the program counter is read and moved past, and its instruction counted. -/
theorem fetchInstruction_eq (m : Machine) :
    let cell := m.memory.readCell m.pc
    let moved := ({ m with memory := cell.2 } : Machine).setRegister .xx (m.pc + 1)
    fetchInstruction m =
      match Instruction.ofOpcode? cell.1 with
      | none => .error (.invalidInstruction cell.1 m.pc) moved
      | some i => .ok ⟨i, m.pc⟩ { moved with profile := m.profile.record i.category } := by
  intro cell moved
  have hget : (get : Exec Machine) m = .ok m m := rfl
  have hnext : next m = .ok cell.1 moved := rfl
  rw [fetchInstruction, bind_of_ok hget, bind_of_ok hnext]
  cases Instruction.ofOpcode? cell.1 <;> rfl

/-- A step that succeeds counts one instruction; apart from registers and memory it changes
nothing else. -/
theorem eq_around_of_execute_ok (h : execute m = .ok () m') :
    ∃ c, m' = { m.around m' with profile := m.profile.record c } := by
  obtain ⟨site, ready, hfetch, hrest⟩ := bind_eq_ok_iff.mp h
  have hready := (pervasive_local.complete site).eq_around_of_ok hrest
  rw [fetchInstruction_eq] at hfetch
  cases hopcode : Instruction.ofOpcode? (m.memory.readCell m.pc).1 with
  | none =>
      simp only [hopcode] at hfetch
      cases hfetch
  | some i =>
      simp only [hopcode] at hfetch
      cases hfetch
      exact ⟨i.category, hready⟩

/-- A step that fails may have counted an instruction. -/
theorem eq_around_of_execute_error {fault : Fault} (h : execute m = .error fault m') :
    m' = m.around m' ∨ ∃ c, m' = { m.around m' with profile := m.profile.record c } := by
  have hfetch := fetchInstruction_eq m
  cases hopcode : Instruction.ofOpcode? (m.memory.readCell m.pc).1 with
  | none =>
      simp only [hopcode] at hfetch
      rw [execute, bind_of_error hfetch] at h
      cases h
      exact .inl rfl
  | some i =>
      simp only [hopcode] at hfetch
      rw [execute, bind_of_ok hfetch] at h
      exact .inr ⟨i.category, (pervasive_local.complete _).eq_around_of_error h⟩

/-- A step that succeeds counts one instruction. -/
theorem instructions_of_step_ok (h : step m = .ok () m') :
    m'.config = m.config ∧
      m'.profile.instructions = min Profile.cap (m.profile.instructions + 1) := by
  rw [step_of_hasBudget (hasBudget_of_step_ok h)] at h
  obtain ⟨c, hend⟩ := eq_around_of_execute_ok h
  rw [hend]
  exact ⟨rfl, m.profile.instructions_record c⟩

/-- A step that fails takes nothing back. -/
theorem instructions_of_step_error {fault : Fault} (h : step m = .error fault m') :
    m'.config = m.config ∧ m.profile.instructions ≤ m'.profile.instructions := by
  by_cases hbudget : m.HasBudget
  · rw [step_of_hasBudget hbudget] at h
    rcases eq_around_of_execute_error h with hend | ⟨c, hend⟩
    · rw [hend]
      exact ⟨rfl, Nat.le_refl _⟩
    · have hcap := m.profile.instructions_le_cap
      have hrecord := m.profile.instructions_record c
      rw [hend]
      exact ⟨rfl, by simp only [hrecord]; omega⟩
  · obtain ⟨limit, hspent⟩ := step_of_not_hasBudget hbudget
    rw [hspent] at h
    cases h
    exact ⟨rfl, Nat.le_refl _⟩

end Exec

namespace Machine

variable (m : Machine)

/-- A debug trap reads two words, moves the program counter, and counts itself. -/
theorem trap_eq :
    let frame := m.registers.get .f5
    let resume := m.memory.read .word frame
    let value := resume.2.read .word (frame + 4)
    m.trap = { m with
      registers := m.registers.set .xx resume.1
      memory := value.2
      emitted := m.emitted.push value.1
      profile := m.profile.recordTrap } := by
  intro frame resume value
  simp only [trap, readMemory, setRegister]
  rfl

theorem config_trap : m.trap.config = m.config := by
  rw [trap_eq]

theorem instructions_trap : m.trap.profile.instructions = m.profile.instructions := by
  rw [trap_eq]
  rfl

end Machine

end Cpu32
