import Cpu32.Proofs.Codec.Operand
import Cpu32.Proofs.Machine.Perform
import Cpu32.Proofs.Memory

/-!
# Fetching from memory

The instruction that a machine reads at its program counter is fetched byte by byte.  Each part of a
fetch consumes the bytes of what it returns, and parts that follow each other consume bytes that
follow each other.  A step is a fetch, if there is budget for it, and the action that was fetched.
-/

namespace Cpu32

namespace Machine

variable (m : Machine)

/-- The machine with its program counter moved on. -/
def advance (n : Nat) : Machine := m.setRegister .xx (m.pc + UInt32.ofNat n)

@[simp] theorem memory_advance (n : Nat) : (m.advance n).memory = m.memory := rfl

@[simp] theorem pc_advance (n : Nat) : (m.advance n).pc = m.pc + UInt32.ofNat n := by
  simp [advance, setRegister, pc]

theorem advance_zero : m.advance 0 = m := by
  have hpc : m.pc + UInt32.ofNat 0 = m.registers.get .xx := UInt32.add_zero _
  have hbank : m.registers.set .xx (m.registers.get .xx) = m.registers := by
    simp [Registers.set, Registers.get]
  rw [advance, setRegister, hpc, hbank]

theorem advance_advance (n k : Nat) : (m.advance n).advance k = m.advance (n + k) := by
  rw [advance, pc_advance, UInt32.add_assoc, ← UInt32.ofNat_add]
  simp [advance, setRegister, Registers.set]

/-- The machine once the `n` bytes at its program counter are read and moved past. -/
def past (n : Nat) : Machine :=
  ({ m with memory := (m.memory.readBytes m.pc n).2 } : Machine).advance n

theorem past_zero : m.past 0 = m := m.advance_zero

theorem past_past (n k : Nat) : (m.past n).past k = m.past (n + k) := by
  have hmemory : ((m.past n).memory.readBytes (m.past n).pc k).2 =
      (m.memory.readBytes m.pc (n + k)).2 := by
    rw [Memory.readBytes_add, past, pc_advance]
    rfl
  rw [past, hmemory]
  exact advance_advance { m with memory := (m.memory.readBytes m.pc (n + k)).2 } n k

theorem past_of_holds {bytes : List UInt8} (h : m.memory.Holds m.pc bytes) :
    m.past bytes.length = m.advance bytes.length := by
  rw [past, Memory.readBytes_of_holds h]

/-- The bytes are read from the program counter on, whether they stand there already or come from
the noise. -/
def Faces (bytes : List UInt8) : Prop :=
  (m.memory.readBytes m.pc bytes.length).1 = bytes

instance (bytes : List UInt8) : Decidable (m.Faces bytes) :=
  inferInstanceAs (Decidable (_ = _))

theorem faces_of_holds {bytes : List UInt8} (h : m.memory.Holds m.pc bytes) : m.Faces bytes := by
  rw [Faces, Memory.readBytes_of_holds h]

theorem faces_append {first second : List UInt8} :
    m.Faces (first ++ second) ↔ m.Faces first ∧ (m.past first.length).Faces second := by
  have hlength : (m.memory.readBytes m.pc first.length).1.length = first.length :=
    Memory.length_readBytes ..
  simp only [Faces, past, memory_advance, pc_advance, List.length_append, Memory.readBytes_add]
  constructor
  · intro h
    exact List.append_inj h hlength
  · rintro ⟨hfirst, hsecond⟩
    exact congr (congrArg _ hfirst) hsecond

/-- The limit on executed instructions, if there is one, is not reached. -/
def HasBudget : Prop :=
  ∀ limit, m.config.maxSteps = some limit → m.profile.instructions < limit.toNat

theorem not_hasBudget_iff : ¬ m.HasBudget ↔
    ∃ limit, m.config.maxSteps = some limit ∧ limit.toNat ≤ m.profile.instructions := by
  simp [HasBudget]

end Machine

/-- An instruction with its operands as it stands in memory. -/
def Instruction.encoded (i : Instruction) (operands : List ModRM) : List UInt8 :=
  i.opcode :: operands.flatMap ModRM.encode

theorem Instruction.length_encoded (i : Instruction) (operands : List ModRM) :
    (i.encoded operands).length = 1 + operands.foldr (fun d n => d.size + n) 0 := by
  rw [encoded, List.length_cons, Nat.add_comm]
  congr 1
  induction operands with
  | nil => rfl
  | cons d rest ih =>
      rw [List.flatMap_cons, List.length_append, ModRM.length_encode, ih, List.foldr_cons]

namespace Exec

variable {α β : Type}

/-- Wherever the bytes are read at the program counter, the computation reads them, moves past them
and returns the value. -/
def Consumes (x : Exec α) (bytes : List UInt8) (a : α) : Prop :=
  ∀ m : Machine, m.Faces bytes → x m = .ok a (m.past bytes.length)

theorem consumes_pure (a : α) : Consumes (pure a) [] a := by
  intro m _
  rw [List.length_nil, m.past_zero]
  rfl

theorem Consumes.bind {x : Exec α} {f : α → Exec β} {first second : List UInt8} {a : α} {b : β}
    (hx : Consumes x first a) (hf : Consumes (f a) second b) :
    Consumes (x >>= f) (first ++ second) b := by
  intro m hbytes
  obtain ⟨hfirst, hsecond⟩ := m.faces_append.mp hbytes
  rw [bind_of_ok (hx m hfirst), hf (m.past first.length) hsecond, m.past_past, List.length_append]

theorem consumes_next (b : UInt8) : Consumes next [b] b := by
  intro m hbyte
  have hcell : (m.memory.readCell m.pc).1 = b := List.singleton_inj.mp hbyte
  rw [next, ← hcell]
  rfl

theorem consumes_gather (bytes : List UInt8) (word : UInt32) :
    Consumes (gather next bytes.length word) bytes
      (bytes.foldl (fun word b => (word <<< 8) ||| b.toUInt32) word) := by
  induction bytes generalizing word with
  | nil => exact consumes_pure word
  | cons b rest ih => exact (consumes_next b).bind (ih _)

theorem consumes_trailing (w : Width) (value : UInt32) :
    Consumes (ByteSource.trailing w) (w.bytes value) (w.narrow value) := by
  have hgather := consumes_gather (w.bytes value) 0
  rw [w.length_bytes] at hgather
  rw [← w.ofBigEndian_bytes value]
  exact hgather

theorem Consumes.bind_pure {x : Exec α} {f : α → Exec β} {bytes : List UInt8} {a : α} {b : β}
    (hx : Consumes x bytes a) (hf : f a = pure b) : Consumes (x >>= f) bytes b := by
  have hend : Consumes (f a) [] b := by
    rw [hf]
    exact consumes_pure b
  have hchain := hx.bind hend
  rwa [List.append_nil] at hchain

/-- An encoded descriptor is fetched as it reads back. -/
theorem consumes_decode (d : ModRM) : Consumes ModRM.decode d.encode d.narrowed := by
  refine (consumes_next d.code).bind ?_
  simp only [ModRM.masked_code, ModRM.narrowed]
  have hwidth : (ModRM.masked d.reg d.mode 0).width = d.width := ModRM.width_masked ..
  rw [hwidth]
  cases d.width with
  | none => exact consumes_pure _
  | some w => exact (consumes_trailing w d.value).bind_pure rfl

theorem consumes_fetchOperand (site : Site) {d : ModRM} {form : Addressing}
    (hform : d.narrowed.addressing = some form) :
    Consumes (fetchOperand site) d.encode form := by
  refine (consumes_decode d).bind_pure ?_
  rw [hform]

theorem consumes_fetchAction (site : Site) {operands : List ModRM} {forms : List Addressing}
    {action : Action} (haction : site.instruction.action? forms = some action)
    (hforms : operands.map (fun d => d.narrowed.addressing) = forms.map some) :
    Consumes (fetchAction site) (operands.flatMap ModRM.encode) action := by
  unfold Instruction.action? at haction
  rw [fetchAction]
  split at haction
  · rename_i operation a b hoperation
    cases haction
    simp only [List.map_eq_cons_iff, List.map_cons, List.map_nil, List.map_eq_nil_iff] at hforms
    obtain ⟨da, _, rfl, ha, db, _, rfl, hb, rfl⟩ := hforms
    rw [hoperation]
    exact (consumes_fetchOperand site ha).bind ((consumes_fetchOperand site hb).bind
      (consumes_pure _))
  · rename_i operation a b c hoperation
    cases haction
    simp only [List.map_eq_cons_iff, List.map_cons, List.map_nil, List.map_eq_nil_iff] at hforms
    obtain ⟨da, _, rfl, ha, db, _, rfl, hb, dc, _, rfl, hc, rfl⟩ := hforms
    rw [hoperation]
    exact (consumes_fetchOperand site ha).bind ((consumes_fetchOperand site hb).bind
      ((consumes_fetchOperand site hc).bind (consumes_pure _)))
  · cases haction

/-- The instruction at the program counter, counted, and its action. -/
def fetch : Exec (Site × Action) := do
  let site ← fetchInstruction
  let action ← fetchAction site
  return (site, action)

theorem fetchInstruction_of_faces {m : Machine} {i : Instruction} (h : m.Faces [i.opcode]) :
    fetchInstruction m = .ok ⟨i, m.pc⟩
      (({ m with profile := m.profile.record i.category } : Machine).past 1) := by
  have hget : (get : Exec Machine) m = .ok m m := rfl
  rw [fetchInstruction, bind_of_ok hget, bind_of_ok (consumes_next i.opcode m h)]
  simp only [Instruction.ofOpcode?_opcode]
  rfl

/-- The instruction that a machine faces is fetched as a whole, and only counted and moved past. -/
theorem fetch_of_faces {m : Machine} {i : Instruction} {operands : List ModRM}
    {forms : List Addressing} {action : Action} (hfaces : m.Faces (i.encoded operands))
    (haction : i.action? forms = some action)
    (hforms : operands.map (fun d => d.narrowed.addressing) = forms.map some) :
    fetch m = .ok (⟨i, m.pc⟩, action)
      (({ m with profile := m.profile.record i.category } : Machine).past
        (i.encoded operands).length) := by
  rw [Instruction.encoded, ← List.singleton_append, Machine.faces_append] at hfaces
  obtain ⟨hopcode, hoperands⟩ := hfaces
  have hfetch := consumes_fetchAction ⟨i, m.pc⟩ haction hforms
    (({ m with profile := m.profile.record i.category } : Machine).past 1) hoperands
  rw [Machine.past_past, Nat.add_comm] at hfetch
  rw [fetch, bind_of_ok (fetchInstruction_of_faces hopcode), bind_of_ok hfetch]
  rfl

/-- An instruction that stands in memory is fetched without a change of the memory. -/
theorem fetch_of_holds {m : Machine} {i : Instruction} {operands : List ModRM}
    {forms : List Addressing} {action : Action}
    (hbytes : m.memory.Holds m.pc (i.opcode :: operands.flatMap ModRM.encode))
    (haction : i.action? forms = some action)
    (hforms : operands.map (fun d => d.narrowed.addressing) = forms.map some) :
    fetch m = .ok (⟨i, m.pc⟩, action)
      (({ m with profile := m.profile.record i.category } : Machine).advance
        (1 + (operands.flatMap ModRM.encode).length)) := by
  rw [fetch_of_faces (m.faces_of_holds hbytes) haction hforms, Nat.add_comm]
  exact congrArg (EStateM.Result.ok _) (Machine.past_of_holds _ hbytes)

theorem checkBudget_of_hasBudget {m : Machine} (h : m.HasBudget) : checkBudget m = .ok () m := by
  have hget : (get : Exec Machine) m = .ok m m := rfl
  rw [checkBudget, bind_of_ok hget]
  cases hlimit : m.config.maxSteps with
  | none => rfl
  | some limit =>
      have hfree : ¬ limit.toNat ≤ m.profile.instructions := Nat.not_le.mpr (h limit hlimit)
      simp only [if_neg hfree]
      rfl

section Step

variable {m next ready : Machine} {site : Site} {action : Action} {fault : Fault}

theorem step_of_limit_le {limit : UInt64} (hlimit : m.config.maxSteps = some limit)
    (hspent : limit.toNat ≤ m.profile.instructions) :
    step m = .error (.stepLimitExceeded limit m.pc) m := by
  have hget : (get : Exec Machine) m = .ok m m := rfl
  have hcheck : checkBudget m = .error (.stepLimitExceeded limit m.pc) m := by
    rw [checkBudget, bind_of_ok hget]
    simp only [hlimit, if_pos hspent]
    rfl
  exact bind_of_error hcheck _

/-- Without budget a step fails, and nothing changes. -/
theorem step_of_not_hasBudget (h : ¬ m.HasBudget) :
    ∃ limit, step m = .error (.stepLimitExceeded limit m.pc) m := by
  obtain ⟨limit, hlimit, hspent⟩ := m.not_hasBudget_iff.mp h
  exact ⟨limit, step_of_limit_le hlimit hspent⟩

theorem step_eq_bind (hbudget : m.HasBudget) :
    step m = (fetch >>= fun fetched => fetched.2.perform fetched.1) m := by
  rw [step, bind_of_ok (checkBudget_of_hasBudget hbudget)]
  simp only [fetch, bind_assoc, pure_bind]

/-- A step performs the action that it fetches. -/
theorem step_of_fetch (hbudget : m.HasBudget) (hfetch : fetch m = .ok (site, action) ready) :
    step m = action.perform site ready := by
  rw [step_eq_bind hbudget, bind_of_ok hfetch]

theorem hasBudget_of_step_ok (h : step m = .ok () next) : m.HasBudget := by
  intro limit hlimit
  apply Nat.lt_of_not_le
  intro hspent
  rw [step_of_limit_le hlimit hspent] at h
  cases h

/-- A step that succeeds has fetched an action and performed it. -/
theorem exists_fetch_of_step_ok (h : step m = .ok () next) :
    ∃ site action ready, fetch m = .ok (site, action) ready ∧
      action.perform site ready = .ok () next := by
  rw [step_eq_bind (hasBudget_of_step_ok h)] at h
  obtain ⟨⟨site, action⟩, ready, hfetch, hperform⟩ := bind_eq_ok_iff.mp h
  exact ⟨site, action, ready, hfetch, hperform⟩

/-- A step fails for want of budget, in a fetch, or in what it performs. -/
theorem step_error_cases (h : step m = .error fault next) :
    next = m ∨ fetch m = .error fault next ∨
      ∃ site action ready, fetch m = .ok (site, action) ready ∧
        action.perform site ready = .error fault next := by
  by_cases hbudget : m.HasBudget
  · rw [step_eq_bind hbudget] at h
    rcases bind_eq_error_iff.mp h with hfetch | ⟨⟨site, action⟩, ready, hfetch, hperform⟩
    · exact .inr (.inl hfetch)
    · exact .inr (.inr ⟨site, action, ready, hfetch, hperform⟩)
  · obtain ⟨limit, hspent⟩ := step_of_not_hasBudget hbudget
    rw [hspent] at h
    cases h
    exact .inl rfl

theorem operation_of_fetchAction (h : fetchAction site m = .ok action ready) :
    action.operation = site.instruction.operation := by
  rw [fetchAction] at h
  cases hoperation : site.instruction.operation with
  | binary operation =>
      simp only [hoperation, bind_eq_ok_iff] at h
      obtain ⟨a, _, _, b, _, _, hpure⟩ := h
      cases hpure
      rfl
  | ternary operation =>
      simp only [hoperation, bind_eq_ok_iff] at h
      obtain ⟨a, _, _, b, _, _, c, _, _, hpure⟩ := h
      cases hpure
      rfl

/-- The action that is fetched is one of the instruction. -/
theorem operation_of_fetch (h : fetch m = .ok (site, action) ready) :
    action.operation = site.instruction.operation := by
  obtain ⟨site', _, _, hrest⟩ := bind_eq_ok_iff.mp h
  obtain ⟨action', _, haction, hpure⟩ := bind_eq_ok_iff.mp hrest
  cases hpure
  exact operation_of_fetchAction haction

end Step

end Exec

end Cpu32
