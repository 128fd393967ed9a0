import Cpu32.Proofs.Machine.Locality
import Cpu32.Proofs.Memory.Eager

/-!
# Operands of an instruction

What reading the word of an operand and putting a word in its place do to the machine: the word that
is read is the one that the registers and the memory hold, and no other place changes.
-/

namespace Cpu32

namespace Location

/-- The registers that an address is computed from. -/
def registers : Location → List Register
  | .indirect base | .displaced base _ => [base]
  | .indexed base index => [base, index]

variable {bank : Registers} {location : Location}

@[simp] theorem address_setFlag (flag : Bool) :
    location.address (bank.setFlag flag) = location.address bank := by
  cases location <;> rfl

/-- An address depends on its registers only. -/
theorem address_set {r : Register} (h : r ∉ location.registers) (word : UInt32) :
    location.address (bank.set r word) = location.address bank := by
  cases location with
  | indirect base | displaced base displacement =>
      have hbase : r ≠ base := fun hr => h (by simp [registers, hr])
      simp only [address, bank.get_set_of_ne r base word hbase]
  | indexed base index =>
      have hbase : r ≠ base := fun hr => h (by simp [registers, hr])
      have hindex : r ≠ index := fun hr => h (by simp [registers, hr])
      simp only [address, bank.get_set_of_ne r base word hbase,
        bank.get_set_of_ne r index word hindex]

end Location

namespace Addressing

variable (bank : Registers)

/-- The word that an operand stands for, where every cell of the memory holds a byte. -/
def valueIn (e : Eager) : Addressing → UInt32
  | .register r => bank.get r
  | .immediate value _ => value
  | .memory location => UInt32.ofNat (e.number (location.address bank) 4)

/-- The cell is one of the four that an operand stands for, around the top of the address space
where they reach it. -/
def Covers (x : UInt32) : Addressing → Prop
  | .memory location => (x - location.address bank).toNat < 4
  | _ => False

instance (x : UInt32) (form : Addressing) : Decidable (form.Covers bank x) :=
  match form with
  | .memory _ => inferInstanceAs (Decidable (_ < _))
  | .register _ | .immediate .. => inferInstanceAs (Decidable False)

end Addressing

namespace Memory

variable (bank : Registers)

/-- The memory once the word of an operand is read. -/
def touch (m : Memory) : Addressing → Memory
  | .memory location => (m.read .word (location.address bank)).2
  | _ => m

variable {m : Memory} {form : Addressing} {x : UInt32}

theorem cells_touch {b : UInt8} (hx : m.cells[x]? = some b) :
    (m.touch bank form).cells[x]? = some b := by
  cases form with
  | memory location => exact cells_readBytes 4 hx
  | _ => exact hx

theorem mem_cells_touch (x : UInt32) :
    x ∈ (m.touch bank form).cells ↔ x ∈ m.cells ∨ form.Covers bank x := by
  cases form with
  | memory location => exact mem_cells_readBytes (n := 4) (by decide) x
  | register | immediate => exact (or_iff_left id).symm

/-- The memory once the words of some operands are read, one after the other. -/
def touchAll (m : Memory) (forms : List Addressing) : Memory :=
  forms.foldl (touch bank) m

theorem cells_touchAll {b : UInt8} (forms : List Addressing) (hx : m.cells[x]? = some b) :
    (m.touchAll bank forms).cells[x]? = some b := by
  induction forms generalizing m with
  | nil => exact hx
  | cons form rest ih => exact ih (cells_touch bank hx)

theorem mem_cells_touchAll (forms : List Addressing) (x : UInt32) :
    x ∈ (m.touchAll bank forms).cells ↔ x ∈ m.cells ∨ ∃ form ∈ forms, form.Covers bank x := by
  induction forms generalizing m with
  | nil => simp [touchAll]
  | cons form rest ih =>
      have hrest : x ∈ (m.touchAll bank (form :: rest)).cells ↔ _ := ih (m := m.touch bank form)
      simp only [hrest, mem_cells_touch, or_assoc, List.mem_cons, exists_eq_or_imp]

/-- What agrees after operands were read agreed before. -/
theorem Agrees.of_touchAll {e : Eager} (forms : List Addressing)
    (h : (m.touchAll bank forms).Agrees e) : m.Agrees e :=
  fun x b hx => h x b (cells_touchAll bank forms hx)

end Memory

namespace Machine

variable (m : Machine)

/-- The machine once the words of some operands are read, one after the other. -/
def touchAll (forms : List Addressing) : Machine :=
  { m with memory := m.memory.touchAll m.registers forms }

/-- The machine with a word put in the place that an operand names where the registers have these
values. -/
def putAt (bank : Registers) (word : UInt32) : Addressing → Machine
  | .register r => m.setRegister r word
  | .memory location => m.writeMemory .word (location.address bank) word
  | .immediate .. => m

/-- The machine with a word put in a place, if there is one. -/
def put (word : UInt32) : Option Addressing → Machine
  | some (.register r) => m.setRegister r word
  | some (.memory location) => m.writeMemory .word (location.address m.registers) word
  | _ => m

/-- The word is in the place that an operand names where the registers have these values. -/
def Stores (bank : Registers) (word : UInt32) : Addressing → Prop
  | .register r => m.registers.get r = word
  | .memory location => m.memory.Holds (location.address bank) (bigEndian 4 word)
  | .immediate .. => False

variable {word : UInt32}

theorem stores_setFlag (bank : Registers) (flag : Bool) (place : Addressing) :
    (m.setFlag flag).Stores bank word place ↔ m.Stores bank word place := by
  cases place <;> rfl

theorem put_some (place : Addressing) :
    m.put word (some place) = m.putAt m.registers word place := by
  cases place <;> rfl

section PutAt

variable {bank : Registers} {place : Addressing}

theorem stores_putAt (h : place.isWritable) :
    (m.putAt bank word place).Stores bank word place := by
  cases place with
  | register r => exact m.registers.get_set_self r word
  | memory location => exact Memory.holds_writeBytes (Width.word.length_bytes_le word)
  | immediate => cases h

theorem putAt_eq_around : m.putAt bank word place = m.around (m.putAt bank word place) := by
  cases place <;> rfl

theorem get_putAt {r : Register} (h : place ≠ .register r) :
    (m.putAt bank word place).registers.get r = m.registers.get r := by
  cases place with
  | register s =>
      have hne : s ≠ r := fun hsr => h (hsr ▸ rfl)
      exact m.registers.get_set_of_ne s r word hne
  | memory | immediate => rfl

theorem cells_putAt {x : UInt32} (h : ¬ place.Covers bank x) :
    (m.putAt bank word place).memory.cells[x]? = m.memory.cells[x]? := by
  cases place with
  | memory location =>
      have houtside : (Width.word.bytes word).length ≤ (x - location.address bank).toNat := by
        rw [Width.length_bytes]
        exact Nat.le_of_not_lt h
      have hcells : (m.memory.write .word (location.address bank) word).cells[x]? = _ :=
        Memory.cells_writeBytes (Width.word.length_bytes_le word) x
      rw [List.getElem?_eq_none houtside, Option.none_or] at hcells
      exact hcells
  | register | immediate => rfl

theorem mem_cells_putAt (x : UInt32) :
    x ∈ (m.putAt bank word place).memory.cells ↔ x ∈ m.memory.cells ∨ place.Covers bank x := by
  cases place with
  | memory location =>
      have hcells : x ∈ (m.memory.write .word (location.address bank) word).cells ↔ _ :=
        Memory.mem_cells_writeBytes (Width.word.length_bytes_le word) x
      rw [Width.length_bytes] at hcells
      exact hcells
  | register | immediate => exact (or_iff_left id).symm

end PutAt

section Put

variable {place? : Option Addressing}

theorem stores_put {place : Addressing} (h : place.isWritable) :
    (m.put word (some place)).Stores m.registers word place := by
  rw [put_some]
  exact m.stores_putAt h

theorem put_eq_around : m.put word place? = m.around (m.put word place?) := by
  cases place? with
  | none => rfl
  | some place =>
      rw [put_some]
      exact m.putAt_eq_around

theorem put_setFlag (flag : Bool) :
    (m.setFlag flag).put word place? = (m.put word place?).setFlag flag := by
  cases place? with
  | none => rfl
  | some place =>
      cases place with
      | memory location =>
          exact congrArg (fun address => (m.writeMemory .word address word).setFlag flag)
            (Location.address_setFlag flag)
      | register | immediate => rfl

theorem get_put {r : Register} (h : place? ≠ some (.register r)) :
    (m.put word place?).registers.get r = m.registers.get r := by
  cases place? with
  | none => rfl
  | some place =>
      rw [put_some]
      exact m.get_putAt fun hplace => h (congrArg some hplace)

theorem cells_put {x : UInt32}
    (h : ∀ place, place? = some place → ¬ place.Covers m.registers x) :
    (m.put word place?).memory.cells[x]? = m.memory.cells[x]? := by
  cases place? with
  | none => rfl
  | some place =>
      rw [put_some]
      exact m.cells_putAt (h place rfl)

theorem mem_cells_put (x : UInt32) :
    x ∈ (m.put word place?).memory.cells ↔
      x ∈ m.memory.cells ∨ ∃ place, place? = some place ∧ place.Covers m.registers x := by
  cases place? with
  | none => simp [put]
  | some place =>
      rw [put_some, mem_cells_putAt]
      simp only [Option.some.injEq, exists_eq_left']

end Put

end Machine

namespace Exec

/-- Reading the word of an operand returns what it stands for, and only touches memory. -/
theorem load_word (operand : Addressing) (m : Machine) :
    ∃ word, load .word operand m = .ok word (m.touchAll [operand]) ∧
      ∀ e, (m.touchAll [operand]).memory.Agrees e → word = operand.valueIn m.registers e := by
  cases operand with
  | register r => exact ⟨_, rfl, fun _ _ => rfl⟩
  | immediate value width =>
      refine ⟨_, rfl, fun _ _ => ?_⟩
      cases width <;> exact UInt32.shiftRight_zero
  | memory location =>
      refine ⟨_, rfl, fun e h => ?_⟩
      have hread : (m.memory.read .word (location.address m.registers)).2.Agrees e := h
      exact Memory.read_eq_ofNat hread

theorem store_word (site : Site) {place : Addressing} (h : place.isWritable) (word : UInt32)
    (m : Machine) :
    store site .word place word m = .ok () ((m.put word (some place)).setFlag false) := by
  cases place with
  | immediate => cases h
  | register r => rfl
  | memory location => rfl

end Exec

end Cpu32
