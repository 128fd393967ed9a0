import Cpu32.Proofs.Machine.Decoding
import Cpu32.Proofs.Machine.TwoOperands

/-!
# What stands at the program counter

Every machine faces a byte that is no opcode, an instruction with an operand that has no meaning, or
an instruction whose operands all have one.  A step fetches as far as there is something to fetch,
so what stands there, the budget, and what is performed decide how it fails.
-/

namespace Cpu32

/-- The first of `n` operands that has no meaning, and those before it. -/
structure FirstUnsupported (before : List ModRM) (d : ModRM) (n : Nat) : Prop where
  supported : ∀ other ∈ before, other.narrowed.addressing ≠ none
  unsupported : d.narrowed.addressing = none
  count : before.length < n

theorem FirstUnsupported.cons {before : List ModRM} {d : ModRM} {n : Nat}
    (h : FirstUnsupported before d n) {first : ModRM} (hfirst : first.narrowed.addressing ≠ none) :
    FirstUnsupported (first :: before) d (n + 1) where
  supported := List.forall_mem_cons.mpr ⟨hfirst, h.supported⟩
  unsupported := h.unsupported
  count := Nat.succ_lt_succ h.count

theorem FirstUnsupported.tail {first : ModRM} {rest : List ModRM} {d : ModRM} {n : Nat}
    (h : FirstUnsupported (first :: rest) d (n + 1)) : FirstUnsupported rest d n where
  supported other hother := h.supported other (List.mem_cons_of_mem first hother)
  unsupported := h.unsupported
  count := Nat.lt_of_succ_lt_succ h.count

namespace Machine

variable (m : Machine)

theorem exists_faces_encode : ∃ d : ModRM, m.Faces d.encode := by
  have hlength : (m.memory.readBytes m.pc 5).1.length = 5 := Memory.length_readBytes ..
  obtain ⟨d, rest, hslice⟩ := ModRM.exists_decode (Nat.le_of_eq hlength.symm)
  have hbytes := ModRM.decode_eq_ok hslice
  have hfaces : m.Faces (d.encode ++ rest) := by
    rw [← hbytes, Faces, hlength]
  exact ⟨d, (m.faces_append.mp hfaces).1⟩

/-- Operands are faced as far as they have a meaning. -/
theorem faces_operands_cases (n : Nat) :
    (∃ (operands : List ModRM) (forms : List Addressing),
      operands.map (fun d => d.narrowed.addressing) = forms.map some ∧ forms.length = n ∧
        m.Faces (operands.flatMap ModRM.encode)) ∨
    ∃ before d, FirstUnsupported before d n ∧
      m.Faces ((before ++ [d]).flatMap ModRM.encode) := by
  induction n generalizing m with
  | zero => exact .inl ⟨[], [], rfl, rfl, rfl⟩
  | succ n ih =>
      obtain ⟨d, hd⟩ := m.exists_faces_encode
      cases hform : d.narrowed.addressing with
      | none =>
          refine .inr ⟨[], d, ⟨nofun, hform, Nat.succ_pos n⟩, ?_⟩
          rwa [List.nil_append, List.flatMap_singleton]
      | some form =>
          rcases ih (m.past d.encode.length) with
            ⟨operands, forms, hforms, hcount, hfaces⟩ | ⟨before, last, hlast, hfaces⟩
          · refine .inl ⟨d :: operands, form :: forms, ?_, ?_, m.faces_append.mpr ⟨hd, hfaces⟩⟩
            · rw [List.map_cons, List.map_cons, hform, hforms]
            · rw [List.length_cons, hcount]
          · have hsome : d.narrowed.addressing ≠ none := by simp [hform]
            exact .inr ⟨d :: before, last, hlast.cons hsome, m.faces_append.mpr ⟨hd, hfaces⟩⟩

/-- What stands at the program counter. -/
theorem faces_cases :
    (∃ opcode, Instruction.ofOpcode? opcode = none ∧ m.Faces [opcode]) ∨
    (∃ (i : Instruction) (before : List ModRM) (d : ModRM), FirstUnsupported before d i.arity ∧
      m.Faces (i.encoded (before ++ [d]))) ∨
    ∃ (i : Instruction) (operands : List ModRM) (forms : List Addressing) (action : Action),
      i.action? forms = some action ∧
        operands.map (fun d => d.narrowed.addressing) = forms.map some ∧
        m.Faces (i.encoded operands) := by
  have hopcode : m.Faces [(m.memory.readCell m.pc).1] := rfl
  cases hfound : Instruction.ofOpcode? (m.memory.readCell m.pc).1 with
  | none => exact .inl ⟨_, hfound, hopcode⟩
  | some i =>
      rw [← Instruction.opcode_of_ofOpcode? hfound] at hopcode
      have hall (operands : List ModRM)
          (hrest : (m.past 1).Faces (operands.flatMap ModRM.encode)) :
          m.Faces (i.encoded operands) := m.faces_append.mpr ⟨hopcode, hrest⟩
      rcases (m.past 1).faces_operands_cases i.arity with
        ⟨operands, forms, hforms, hcount, hfaces⟩ | ⟨before, d, hfirst, hfaces⟩
      · obtain ⟨action, haction⟩ := i.exists_action? hcount
        exact .inr (.inr ⟨i, operands, forms, action, haction, hforms, hall operands hfaces⟩)
      · exact .inr (.inl ⟨i, before, d, hfirst, hall _ hfaces⟩)

end Machine

namespace Exec

variable {m : Machine}

/-- Fetches some operands, from left to right. -/
def fetchForms (site : Site) : Nat → Exec (List Addressing)
  | 0 => return []
  | n + 1 => do
      let form ← fetchOperand site
      let rest ← fetchForms site n
      return form :: rest

/-- What keeps the operands of an instruction from being fetched keeps its action from it. -/
theorem fetchAction_of_error {site : Site} {fault : Fault} {next : Machine}
    (h : fetchForms site site.instruction.arity m = .error fault next) :
    fetchAction site m = .error fault next := by
  have hpure {α : Type} (a : α) (s : Machine) : (pure a : Exec α) s ≠ .error fault next := nofun
  rw [Instruction.arity_eq] at h
  rw [fetchAction]
  cases hoperation : site.instruction.operation with
  | binary operation =>
      simp only [hoperation, fetchForms, bind_assoc, pure_bind, bind_eq_error_iff, hpure] at h ⊢
      exact h
  | ternary operation =>
      simp only [hoperation, fetchForms, bind_assoc, pure_bind, bind_eq_error_iff, hpure] at h ⊢
      exact h

theorem fetchOperand_of_unsupported (site : Site) {d : ModRM} (hnone : d.narrowed.addressing = none)
    (hfaces : m.Faces d.encode) :
    fetchOperand site m = .error
      (.unsupportedAddressing d.narrowed.reg d.narrowed.mode site.pc) (m.past d.encode.length) := by
  rw [fetchOperand, bind_of_ok (consumes_decode d m hfaces)]
  simp only [hnone]
  rfl

/-- The operands up to the first that has no meaning are read, that one as a whole, and none after
it. -/
theorem fetchForms_of_unsupported (site : Site) {before : List ModRM} {d : ModRM} {n : Nat}
    (h : FirstUnsupported before d n) (hfaces : m.Faces ((before ++ [d]).flatMap ModRM.encode)) :
    fetchForms site n m = .error
      (.unsupportedAddressing d.narrowed.reg d.narrowed.mode site.pc)
      (m.past ((before ++ [d]).flatMap ModRM.encode).length) := by
  induction before generalizing m n with
  | nil =>
      obtain ⟨n, rfl⟩ := Nat.exists_eq_add_one_of_ne_zero (Nat.ne_of_gt h.count)
      rw [List.nil_append, List.flatMap_singleton] at hfaces ⊢
      exact bind_of_error (fetchOperand_of_unsupported site h.unsupported hfaces) _
  | cons first rest ih =>
      obtain ⟨n, rfl⟩ := Nat.exists_eq_add_one_of_ne_zero (Nat.ne_of_gt (Nat.zero_lt_of_lt h.count))
      obtain ⟨form, hform⟩ := Option.ne_none_iff_exists'.mp (h.supported first List.mem_cons_self)
      rw [List.cons_append, List.flatMap_cons] at hfaces ⊢
      obtain ⟨hfirst, hrest⟩ := m.faces_append.mp hfaces
      rw [fetchForms, bind_of_ok (consumes_fetchOperand site hform m hfirst),
        bind_of_error (ih h.tail hrest), Machine.past_past, List.length_append]

/-- A byte that is no opcode is read and moved past, and not counted. -/
theorem fetch_of_none {opcode : UInt8} (hnone : Instruction.ofOpcode? opcode = none)
    (hfaces : m.Faces [opcode]) :
    fetch m = .error (.invalidInstruction opcode m.pc) (m.past 1) := by
  have hget : (get : Exec Machine) m = .ok m m := rfl
  have hfetch : fetchInstruction m = .error (.invalidInstruction opcode m.pc) (m.past 1) := by
    rw [fetchInstruction, bind_of_ok hget, bind_of_ok (consumes_next opcode m hfaces)]
    simp only [hnone]
    rfl
  exact bind_of_error hfetch _

/-- An instruction is counted before its operands are fetched. -/
theorem fetch_of_unsupported {i : Instruction} {before : List ModRM} {d : ModRM}
    (h : FirstUnsupported before d i.arity) (hfaces : m.Faces (i.encoded (before ++ [d]))) :
    fetch m = .error (.unsupportedAddressing d.narrowed.reg d.narrowed.mode m.pc)
      (m.fetched i (i.encoded (before ++ [d])).length) := by
  rw [Instruction.encoded, ← List.singleton_append, Machine.faces_append] at hfaces
  obtain ⟨hopcode, hoperands⟩ := hfaces
  have hforms := fetchForms_of_unsupported (m := m.fetched i 1) ⟨i, m.pc⟩ h hoperands
  rw [Machine.fetched, Machine.past_past, Nat.add_comm] at hforms
  rw [fetch, bind_of_ok (fetchInstruction_of_faces hopcode)]
  exact bind_of_error (fetchAction_of_error hforms) _

end Exec

/-- How a step fails, with the fault and the machine that is left. -/
inductive Machine.Fails (m : Machine) : Fault → Machine → Prop
  | spent {limit : UInt64} (hlimit : m.config.maxSteps = some limit)
      (hspent : limit.toNat ≤ m.profile.instructions) :
      m.Fails (.stepLimitExceeded limit m.pc) m
  | unknown {opcode : UInt8} (hbudget : m.HasBudget)
      (hnone : Instruction.ofOpcode? opcode = none) (hfaces : m.Faces [opcode]) :
      m.Fails (.invalidInstruction opcode m.pc) (m.past 1)
  | unsupported {i : Instruction} {before : List ModRM} {d : ModRM} (hbudget : m.HasBudget)
      (hfirst : FirstUnsupported before d i.arity) (hfaces : m.Faces (i.encoded (before ++ [d]))) :
      m.Fails (.unsupportedAddressing d.narrowed.reg d.narrowed.mode m.pc)
        (m.fetched i (i.encoded (before ++ [d])).length)
  | performed {i : Instruction} {operands : List ModRM} {forms : List Addressing}
      {action : Action} {fault : Fault} {next : Machine} (hbudget : m.HasBudget)
      (haction : i.action? forms = some action)
      (hforms : operands.map (fun d => d.narrowed.addressing) = forms.map some)
      (hfaces : m.Faces (i.encoded operands))
      (hperform : action.perform ⟨i, m.pc⟩ (m.fetched i (i.encoded operands).length) =
        .error fault next) :
      m.Fails fault next

theorem Exec.step_error_iff {m next : Machine} {fault : Fault} :
    step m = .error fault next ↔ m.Fails fault next := by
  constructor
  · intro h
    by_cases hbudget : m.HasBudget
    · have hfetch := step_eq_bind hbudget
      rw [h] at hfetch
      rcases m.faces_cases with ⟨opcode, hnone, hfaces⟩ | ⟨i, before, d, hfirst, hfaces⟩ |
        ⟨i, operands, forms, action, haction, hforms, hfaces⟩
      · rw [bind_of_error (fetch_of_none hnone hfaces)] at hfetch
        cases hfetch
        exact .unknown hbudget hnone hfaces
      · rw [bind_of_error (fetch_of_unsupported hfirst hfaces)] at hfetch
        cases hfetch
        exact .unsupported hbudget hfirst hfaces
      · rw [bind_of_ok (fetch_of_faces hfaces haction hforms)] at hfetch
        exact .performed hbudget haction hforms hfaces hfetch.symm
    · obtain ⟨limit, hlimit, hspent⟩ := m.not_hasBudget_iff.mp hbudget
      cases h.symm.trans (step_of_limit_le hlimit hspent)
      exact .spent hlimit hspent
  · intro h
    cases h with
    | spent hlimit hspent => exact step_of_limit_le hlimit hspent
    | unknown hbudget hnone hfaces =>
        rw [step_eq_bind hbudget]
        exact bind_of_error (fetch_of_none hnone hfaces) _
    | unsupported hbudget hfirst hfaces =>
        rw [step_eq_bind hbudget]
        exact bind_of_error (fetch_of_unsupported hfirst hfaces) _
    | performed hbudget haction hforms hfaces hperform =>
        exact (step_of_fetch hbudget (fetch_of_faces hfaces haction hforms)).trans hperform

end Cpu32
