import Cpu32.Proofs.Machine.Operands
import Cpu32.Proofs.Memory.PartialWord

/-!
# Transfers of a part of a word

An instruction that widens the top of its first operand, or inserts a value into the top of its
second, does to a word in memory what it does to one in a register.
-/

namespace Cpu32

namespace Exec

variable {w : Width} {m ready : Machine} {value : UInt32}

theorem perform_widen {form : Addressing} (hload : load w form m = .ok value ready) (site : Site)
    (place : Addressing) :
    (Action.binary (.widen w) form place).perform site m =
      store site .word place (w.signExtend value) ready := by
  rw [Action.perform, binary, bind_of_ok hload]

theorem perform_insert {form : Addressing} (hload : load .word form m = .ok value ready)
    (site : Site) (place : Addressing) :
    (Action.binary (.insert w) form place).perform site m = store site w place value ready := by
  rw [Action.perform, binary, bind_of_ok hload]

/-- The registers do not change while an operand is read. -/
theorem registers_of_load {form : Addressing} (hload : load .word form m = .ok value ready) :
    ready.registers = m.registers := by
  obtain ⟨word, htouch, -⟩ := load_word form m
  cases hload.symm.trans htouch
  rfl

/-- The top of a word in memory is what a narrow read there returns. -/
theorem load_top {location : Location} {e : Eager}
    (h : (m.memory.read w (location.address m.registers)).2.Agrees e) :
    load w (.memory location) m =
      .ok (w.top ((Addressing.memory location).valueIn m.registers e))
        (m.readMemory w (location.address m.registers)).2 := by
  rw [Addressing.valueIn, Eager.top_word, ← Memory.read_eq_ofNat h]
  rfl

variable (w value m)

theorem load_of_store_register (site : Site) (r : Register) :
    ∃ next, store site w (.register r) value m = .ok () next ∧
      load w (.register r) next = .ok (w.narrow value) next := by
  have hnew : (m.registers.set r (w.replaceTop (m.registers.get r) value)).get r = _ :=
    m.registers.get_set_self r _
  refine ⟨_, rfl, congrArg (EStateM.Result.ok · _) ?_⟩
  exact (congrArg w.top hnew).trans (w.top_replaceTop _ value)

theorem load_of_store_memory (site : Site) (location : Location) :
    ∃ next, store site w (.memory location) value m = .ok () next ∧
      load w (.memory location) next = .ok (w.narrow value) next := by
  have hread := m.memory.read_write w (location.address m.registers) value
  refine ⟨(m.writeMemory w (location.address m.registers) value).setFlag false, rfl, ?_⟩
  simp only [load, readMemory, Machine.readMemory, Machine.setFlag, Machine.writeMemory,
    Location.address_setFlag, hread]

/-- What the transfers of a part of a word do to a word in memory, in one machine, and to one in a
register, in another. -/
structure TransfersAlike (w : Width) (location : Location) (r : Register) (m m' : Machine) :
    Prop where
  /-- The same word is widened to the same result, whatever the untouched cells hold. -/
  widened : ∀ e, (m.memory.read w (location.address m.registers)).2.Agrees e →
    (Addressing.memory location).valueIn m.registers e = m'.registers.get r →
    let result := w.signExtend (w.top (m'.registers.get r))
    ∀ site place,
      (Action.binary (.widen w) (.memory location) place).perform site m =
        store site .word place result (m.readMemory w (location.address m.registers)).2 ∧
      (Action.binary (.widen w) (.register r) place).perform site m' =
        store site .word place result m'
  /-- The same word becomes the same when the same value is inserted.  In memory that changes the
  cells of the part and no others. -/
  inserted : ∀ a a' value ready ready', load .word a m = .ok value ready →
    load .word a' m' = .ok value ready' → ∀ site, ∃ next next',
      (Action.binary (.insert w) a (.memory location)).perform site m = .ok () next ∧
      (Action.binary (.insert w) a' (.register r)).perform site m' = .ok () next' ∧
      (∀ x : UInt32, next.memory.cells[x]? =
        (w.bytes value)[(x - location.address m.registers).toNat]?.or ready.memory.cells[x]?) ∧
      ∀ e, ready.memory.Agrees e →
        (Addressing.memory location).valueIn m.registers e = m'.registers.get r →
        ∃ e', next.memory.Agrees e' ∧
          (∀ x : UInt32, w.size ≤ (x - location.address m.registers).toNat → e' x = e x) ∧
          (Addressing.memory location).valueIn next.registers e' = next'.registers.get r
  /-- What was inserted into a place is widened from there to the sign extension of its low
  bytes. -/
  rewidened : ∀ place, place = .memory location ∨ place = .register r → ∀ a value ready,
    load .word a m = .ok value ready → ∀ site, ∃ next,
      (Action.binary (.insert w) a place).perform site m = .ok () next ∧
      ∀ later d, (Action.binary (.widen w) place d).perform later next =
        store later .word d (w.signExtend value) next

/-- The transfers of a part of a word treat a word in memory, wherever it lies, and a word in a
register alike. -/
theorem partial_transfers_alike (w : Width) (location : Location) (r : Register) (m m' : Machine) :
    TransfersAlike w location r m m' where
  widened e hagrees hword := by
    intro result site place
    have hwiden := perform_widen (load_top hagrees) site place
    rw [hword] at hwiden
    exact ⟨hwiden, perform_widen rfl site place⟩
  inserted a a' value ready ready' hload hload' site := by
    have hbank := registers_of_load hload
    have hbank' := registers_of_load hload'
    refine ⟨_, _, perform_insert hload site _, perform_insert hload' site _, ?_, ?_⟩
    · intro x
      rw [← hbank]
      exact Memory.cells_writeBytes (w.length_bytes_le value) x
    · intro e hagrees hword
      refine ⟨e.write w (location.address m.registers) value, ?_, ?_, ?_⟩
      · rw [← hbank]
        exact hagrees.write w
      · intro x houtside
        exact if_neg (Nat.not_lt.mpr houtside)
      · have hnew :
            (ready'.registers.set r (w.replaceTop (ready'.registers.get r) value)).get r = _ :=
          ready'.registers.get_set_self r _
        have hplace : location.address (ready.registers.setFlag false) =
            location.address m.registers := by
          rw [Location.address_setFlag, hbank]
        calc
          UInt32.ofNat (Eager.number _ (location.address (ready.registers.setFlag false)) 4)
            = w.replaceTop (UInt32.ofNat (e.number (location.address m.registers) 4)) value := by
              rw [hplace, Eager.word_write]
          _ = w.replaceTop (ready'.registers.get r) value := by
              rw [hbank']
              exact congrArg (w.replaceTop · value) hword
          _ = _ := hnew.symm
  rewidened place hplace a value ready hload site := by
    obtain ⟨next, hstore, hagain⟩ : ∃ next, store site w place value ready = .ok () next ∧
        load w place next = .ok (w.narrow value) next := by
      rcases hplace with rfl | rfl
      · exact load_of_store_memory w ready value site location
      · exact load_of_store_register w ready value site r
    refine ⟨next, (perform_insert hload site place).trans hstore, fun later d => ?_⟩
    rw [perform_widen hagain later d, w.signExtend_narrow]

/-- The low byte of a value replaces the top of a word that lies around the top of the address space
and the top of a register, and is widened from memory. -/
theorem partial_transfers_alike_wrapped :
    let m := ((Machine.boot {} (.fresh fun _ => 0)).setRegister .f1 0xFFFFFFFE).writeMemory .word
      0xFFFFFFFE 0x11223344
    let m' := (Machine.boot {} (.fresh fun _ => 0)).setRegister .f2 0x11223344
    let form := Addressing.memory (.indirect .f1)
    let value := Addressing.immediate 0x01AB .half
    Instruction.krz8c.action? [value, form] = some (.binary (.insert .byte) value form) ∧
    Instruction.krz8i.action? [form, .register .f0] =
      some (.binary (.widen .byte) form (.register .f0)) ∧
    (∀ site place, (Action.binary (.widen .byte) form place).perform site m =
      store site .word place 0x11 (m.readMemory .byte 0xFFFFFFFE).2) ∧
    ∃ next next', (Action.binary (.insert .byte) value form).perform ⟨.krz8c, 0⟩ m = .ok () next ∧
      (Action.binary (.insert .byte) value (.register .f2)).perform ⟨.krz8c, 0⟩ m' = .ok () next' ∧
      next.memory.Holds 0xFFFFFFFE [0xAB, 0x22, 0x33, 0x44] ∧ next'.registers.get .f2 = 0xAB223344 ∧
      ∀ d, (Action.binary (.widen .byte) form d).perform ⟨.krz8i, 0⟩ next =
        store ⟨.krz8i, 0⟩ .word d 0xFFFFFFAB next := by
  intro m m' form value
  obtain ⟨hwidened, hinserted, hrewidened⟩ :=
    partial_transfers_alike .byte (.indirect .f1) .f2 m m'
  let e := (m.memory.read .byte 0xFFFFFFFE).2.before fun _ => 0
  have hread : (m.memory.read .byte 0xFFFFFFFE).2.Agrees e := Memory.agrees_before _ _
  have hword : form.valueIn m.registers e = m'.registers.get .f2 := by
    decide +kernel
  obtain ⟨next, next', hnext, hnext', hcells, -⟩ :=
    hinserted value value 0x01AB m m' rfl rfl ⟨.krz8c, 0⟩
  obtain ⟨last, hlast, hagain⟩ := hrewidened form (.inl rfl) value 0x01AB m rfl ⟨.krz8c, 0⟩
  cases hnext.symm.trans hlast
  refine ⟨rfl, rfl, fun site place => ?_, next, next', hnext, hnext', ?_, ?_, hagain ⟨.krz8i, 0⟩⟩
  · have htop : Width.byte.signExtend (Width.byte.top (m'.registers.get .f2)) = 0x11 := by
      decide +kernel
    rw [← htop]
    exact (hwidened e hread hword site place).1
  · intro k hk
    rw [hcells]
    revert k
    decide +kernel
  · have hmachine := (EStateM.Result.ok.inj hnext').2
    rw [← hmachine]
    decide +kernel

end Exec

end Cpu32
