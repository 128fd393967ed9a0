import Cpu32.Proofs.Machine.Facing
import Cpu32.Proofs.Machine.ThreeOperands

/-!
# Refused stores

A store to an immediate fails.  An instruction with one destination has done nothing by then but
read its bytes and its operands.  An instruction with two destinations stores to them in turn, and
what is stored to the first stays there when the second one is an immediate.
-/

namespace Cpu32

/-- What belongs to `b` and what belongs to `c`, in the order in which an operation stores. -/
def Ternary.inTurn {α : Type} (forB forC : α) : Ternary → α × α
  | .exchange => (forB, forC)
  | .multiply _ => (forC, forB)

/-- The operands that an action stores to, in its order. -/
def Action.stores (flag : Bool) : Action → List Addressing
  | .binary (.compare _) _ _ => []
  | .binary .copyIfFlag _ b => if flag then [b] else []
  | .binary _ _ b => [b]
  | .ternary operation _ b c => [(operation.inTurn b c).1, (operation.inTurn b c).2]

namespace Machine

theorem eq_around_trans {outer middle next : Machine} (h : middle = outer.around middle)
    (h' : next = middle.around next) : next = outer.around next := by
  rw [h] at h'
  exact h'

/-- Nothing but reading leads from one machine to the other. -/
structure Peeks (m next : Machine) : Prop where
  registers : next.registers = m.registers
  cells : ∀ (x : UInt32) (b : UInt8), m.memory.cells[x]? = some b → next.memory.cells[x]? = some b
  surroundings : next = m.around next

theorem Peeks.refl (m : Machine) : m.Peeks m :=
  ⟨rfl, fun _ _ => id, rfl⟩

theorem Peeks.trans {m middle next : Machine} (h : m.Peeks middle) (h' : middle.Peeks next) :
    m.Peeks next where
  registers := h'.registers.trans h.registers
  cells x b hx := h'.cells x b (h.cells x b hx)
  surroundings := eq_around_trans h.surroundings h'.surroundings

theorem peeks_touchAll (m : Machine) (forms : List Addressing) : m.Peeks (m.touchAll forms) where
  registers := rfl
  cells _ _ hx := Memory.cells_touchAll m.registers forms hx
  surroundings := rfl

/-- The first of two stores is made, and the second finds an immediate. -/
structure HalfStores (m : Machine) (operation : Ternary) (a b c immediate : Addressing)
    (next : Machine) : Prop where
  made : (operation.inTurn b c).1.isWritable
  refused : (operation.inTurn b c).2 = immediate
  /-- The place holds what the whole operation would have stored there, and the flag is clear. -/
  effect : ∃ word, (∀ e, m.memory.Agrees e →
      let words := operation.words (a.valueIn m.registers e) (b.valueIn m.registers e)
      word = (operation.inTurn words.1 words.2).1) ∧
    next = (m.put word (some (operation.inTurn b c).1)).setFlag false

end Machine

namespace Exec

/-- The fault of a store to an immediate. -/
def refusal (site : Site) (width : Width) : Fault :=
  .invalidDestination site.instruction (0x04 ||| width.modeBits) site.pc

variable {site : Site} {m next : Machine} {fault : Fault} {a b c : Addressing}

theorem peeks_load {w : Width} {operand : Addressing} {word : UInt32}
    (h : load w operand m = .ok word next) : m.Peeks next := by
  cases operand with
  | register | immediate =>
      cases h
      exact .refl m
  | memory location =>
      cases h
      exact ⟨rfl, fun _ _ hx => Memory.cells_readBytes w.size hx, rfl⟩

/-- A store fails only at an immediate, and before it has done anything. -/
theorem store_error_cases {w : Width} {operand : Addressing} {word : UInt32}
    (h : store site w operand word m = .error fault next) :
    ∃ value width, operand = .immediate value width ∧ fault = refusal site width ∧ next = m := by
  cases operand with
  | immediate value width =>
      cases h
      exact ⟨value, width, rfl, rfl, rfl⟩
  | register | memory => cases h

/-- A computation that fails after a load fails in what follows the load. -/
theorem exists_peeks_of_load {α : Type} {w : Width} {operand : Addressing} {f : UInt32 → Exec α}
    (h : (load w operand >>= f) m = .error fault next) :
    ∃ word middle, m.Peeks middle ∧ f word middle = .error fault next := by
  obtain ⟨word, middle, hload⟩ := succeeds_load w operand m
  rw [bind_of_ok hload] at h
  exact ⟨word, middle, peeks_load hload, h⟩

theorem binary_error_cases {operation : Binary}
    (h : binary site a b operation m = .error fault next) :
    ∃ value width, (Action.binary operation a b).stores m.registers.flag =
      [.immediate value width] ∧ fault = refusal site width ∧ m.Peeks next := by
  -- What is left to show once the operands are read.
  have hstore {w : Width} {word : UInt32} {ready : Machine} (hready : m.Peeks ready)
      (h : store site w b word ready = .error fault next) :
      ∃ value width, [b] = [.immediate value width] ∧ fault = refusal site width ∧
        m.Peeks next := by
    obtain ⟨value, width, rfl, rfl, rfl⟩ := store_error_cases h
    exact ⟨value, width, rfl, rfl, hready⟩
  cases operation with
  | combine f =>
      obtain ⟨vb, middle, hb, h⟩ := exists_peeks_of_load h
      obtain ⟨va, ready, ha, h⟩ := exists_peeks_of_load h
      exact hstore (hb.trans ha) h
  | copy | widen w | insert w =>
      obtain ⟨va, ready, ha, h⟩ := exists_peeks_of_load h
      exact hstore ha h
  | copyIfFlag =>
      cases hflag : m.registers.flag with
      | false =>
          cases h.symm.trans (perform_copyIfFlag site a b hflag)
      | true =>
          have hget : (get : Exec Machine) m = .ok m m := rfl
          rw [binary, bind_of_ok hget] at h
          simp only [hflag, if_true] at h
          obtain ⟨va, ready, ha, h⟩ := exists_peeks_of_load h
          rcases bind_eq_error_iff.mp h with h | ⟨_, _, _, hend⟩
          · exact hstore ha h
          · cases hend
  | compare relation =>
      obtain ⟨_, _, _, _, _, _, hend⟩ := perform_compare site relation a b m
      cases h.symm.trans hend

/-- The second of two stores is reached only if the first one is made. -/
theorem stores_error_cases {first second : Addressing} {v w : UInt32}
    (h : (store site .word first v >>= fun _ => store site .word second w) m =
      .error fault next) :
    ∃ value width, fault = refusal site width ∧
      (first = .immediate value width ∧ next = m ∨
        first.isWritable ∧ second = .immediate value width ∧
          next = (m.put v (some first)).setFlag false) := by
  cases hfirst : first.isWritable with
  | true =>
      rw [bind_of_ok (store_word site hfirst v m)] at h
      obtain ⟨value, width, rfl, rfl, rfl⟩ := store_error_cases h
      exact ⟨value, width, rfl, .inr ⟨rfl, rfl, rfl⟩⟩
  | false =>
      rcases bind_eq_error_iff.mp h with h | ⟨_, _, hok, _⟩
      · obtain ⟨value, width, rfl, rfl, rfl⟩ := store_error_cases h
        exact ⟨value, width, rfl, .inl ⟨rfl, rfl⟩⟩
      · have hplace : ¬ first.isWritable := by simp [hfirst]
        exact absurd ⟨_, _, hok⟩ (refuses_store site .word v hplace m).not_succeeds

theorem ternary_error_cases {operation : Ternary}
    (h : ternary site a b c operation m = .error fault next) :
    let ready := m.touchAll (operation.reads a b)
    ∃ value width, fault = refusal site width ∧
      ((operation.inTurn b c).1 = .immediate value width ∧ next = ready ∨
        ready.HalfStores operation a b c (.immediate value width) next) := by
  intro ready
  cases operation with
  | exchange =>
      obtain ⟨va, vb, middle, hloada, hloadb, hvalues⟩ := load_words a b m
      rw [ternary, bind_of_ok hloada, bind_of_ok hloadb] at h
      obtain ⟨value, width, hfault, hfirst | ⟨hmade, hrefused, hnext⟩⟩ := stores_error_cases h
      · exact ⟨value, width, hfault, .inl hfirst⟩
      · exact ⟨value, width, hfault, .inr ⟨hmade, hrefused, va, fun e he => (hvalues e he).1,
          hnext⟩⟩
  | multiply product =>
      obtain ⟨vb, va, middle, hloadb, hloada, hvalues⟩ := load_words b a m
      rw [ternary, bind_of_ok hloadb, bind_of_ok hloada] at h
      obtain ⟨value, width, hfault, hfirst | ⟨hmade, hrefused, hnext⟩⟩ := stores_error_cases h
      · exact ⟨value, width, hfault, .inl hfirst⟩
      · refine ⟨value, width, hfault, .inr ⟨hmade, hrefused, _, fun e he => ?_, hnext⟩⟩
        obtain ⟨rfl, rfl⟩ := hvalues e he
        rfl

/-- An action fails only where it stores: at the first store, when it has read its operands, or at
the second one, when the first is made. -/
theorem perform_error_cases {action : Action} (h : action.perform site m = .error fault next) :
    ∃ value width ready, fault = refusal site width ∧ m.Peeks ready ∧
      ((action.stores m.registers.flag).head? = some (.immediate value width) ∧ next = ready ∨
        ∃ operation a b c, action = .ternary operation a b c ∧
          ready.HalfStores operation a b c (.immediate value width) next) := by
  cases action with
  | binary operation a b =>
      obtain ⟨value, width, hstores, hfault, hpeeks⟩ := binary_error_cases h
      exact ⟨value, width, next, hfault, hpeeks, .inl ⟨by rw [hstores]; rfl, rfl⟩⟩
  | ternary operation a b c =>
      obtain ⟨value, width, hfault, hcases⟩ := ternary_error_cases h
      refine ⟨value, width, _, hfault, m.peeks_touchAll (operation.reads a b), ?_⟩
      rcases hcases with ⟨hfirst, hnext⟩ | hhalf
      · exact .inl ⟨congrArg some hfirst, hnext⟩
      · exact .inr ⟨operation, a, b, c, rfl, hhalf⟩

end Exec

namespace Machine

variable {m : Machine}

/-- The instruction is counted and moved past, and nothing else but reading has happened. -/
structure OnlyReads (m : Machine) (i : Instruction) (length : Nat) (next : Machine) : Prop where
  registers : next.registers = m.bankPast length
  cells : ∀ (x : UInt32) (b : UInt8), m.memory.cells[x]? = some b → next.memory.cells[x]? = some b
  surroundings : next = ({ m with profile := m.profile.record i.category } : Machine).around next

theorem onlyReads_fetched (m : Machine) (i : Instruction) (length : Nat) :
    m.OnlyReads i length (m.fetched i length) where
  registers := rfl
  cells _ _ hx := Memory.cells_readBytes length hx
  surroundings := rfl

theorem OnlyReads.trans {i : Instruction} {length : Nat} {middle next : Machine}
    (h : m.OnlyReads i length middle) (hpeeks : middle.Peeks next) : m.OnlyReads i length next where
  registers := hpeeks.registers.trans h.registers
  cells x b hx := hpeeks.cells x b (h.cells x b hx)
  surroundings := eq_around_trans h.surroundings hpeeks.surroundings

/-- A step whose store is refused names its instruction, its first byte and the width of the
immediate.  If that is the first operand that the instruction stores to, nothing else has happened:
the registers, the flag and every touched cell are as they were, and the program counter is at the
next instruction.  If it is the second one, the first has been stored to and the flag is clear. -/
theorem store_refused {i : Instruction} {mode : UInt8} {pc : UInt32} {next : Machine}
    (h : Exec.step m = .error (.invalidDestination i mode pc) next) :
    pc = m.pc ∧ ∃ operands forms action value width ready,
      m.Faces (i.encoded operands) ∧
      operands.map (fun d => d.narrowed.addressing) = forms.map some ∧
      i.action? forms = some action ∧ mode = 0x04 ||| width.modeBits ∧
      m.OnlyReads i (i.encoded operands).length ready ∧
      ((action.stores m.registers.flag).head? = some (.immediate value width) ∧ next = ready ∨
        ∃ operation a b c, action = .ternary operation a b c ∧
          ready.HalfStores operation a b c (.immediate value width) next) := by
  cases Exec.step_error_iff.mp h with
  | @performed _ operands forms action _ _ hbudget haction hforms hfaces hperform =>
      obtain ⟨value, width, ready, hfault, hpeeks, hcases⟩ := Exec.perform_error_cases hperform
      cases hfault
      exact ⟨rfl, operands, forms, action, value, width, ready, hfaces, hforms, haction, rfl,
        (m.onlyReads_fetched ..).trans hpeeks, hcases⟩

/-- A product whose low word is refused when its high word is stored. -/
theorem store_refused_product :
    let operands : List ModRM := [.wideImmediate 0x10000, .wideImmediate 0x10000, .register .f0]
    let m := boot {} ((Memory.fresh fun _ => 0).writeBytes defaultEntry
      (Instruction.encoded .lat operands))
    ∃ next length ready, Exec.step m = .error (.invalidDestination .lat 0x06 m.pc) next ∧
      m.OnlyReads .lat length ready ∧ next.registers.get .f0 = 1 ∧
      ∃ operation a b c immediate, ready.HalfStores operation a b c immediate next := by
  intro operands m
  have hfaces : m.Faces (Instruction.encoded .lat operands) := by
    decide +kernel
  have haction : Instruction.lat.action?
      [.immediate 0x10000 .word, .immediate 0x10000 .word, .register .f0] = some _ := rfl
  have hstep : Exec.step m = .error (.invalidDestination .lat 0x06 m.pc) _ :=
    Exec.step_error_iff.mpr (.performed (fun _ h => nomatch h) haction rfl hfaces rfl)
  obtain ⟨-, _, _, _, value, width, ready, -, -, -, -, hready, hcases⟩ := store_refused hstep
  have hread : ready.registers.get .f0 = 0 := by
    rw [hready.registers]
    exact m.registers.get_set_of_ne .xx .f0 _ (by decide)
  refine ⟨_, _, ready, hstep, hready, by decide +kernel, ?_⟩
  rcases hcases with ⟨-, hnext⟩ | ⟨operation, a, b, c, -, hhalf⟩
  · rw [← hnext] at hread
    exact absurd hread (by decide +kernel)
  · exact ⟨operation, a, b, c, _, hhalf⟩

/-- An exchange into an immediate fails and leaves the word of `a` in `b`. -/
theorem exchange_into_immediate :
    let operands : List ModRM := [.immediate 5, .register .f0, .immediate 7]
    let m := boot {} ((Memory.fresh fun _ => 0).writeBytes defaultEntry
      (Instruction.encoded .inj operands))
    ∃ next, Exec.step m = .error (.invalidDestination .inj 0x04 m.pc) next ∧
      m.registers.get .f0 = 0 ∧ next.registers.get .f0 = 5 := by
  intro operands m
  have hfaces : m.Faces (Instruction.encoded .inj operands) := by
    decide +kernel
  have haction : Instruction.inj.action?
      [.immediate 5 .byte, .register .f0, .immediate 7 .byte] = some _ := rfl
  refine ⟨_, Exec.step_error_iff.mpr (.performed (fun _ h => nomatch h) haction rfl hfaces rfl),
    rfl, ?_⟩
  decide +kernel

end Machine

end Cpu32
