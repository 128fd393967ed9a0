import Cpu32.Proofs.Machine.Arithmetic
import Cpu32.Proofs.Machine.Operands

/-!
# Instructions on two operands

An arithmetic instruction, a copy or a comparison reads the words of its operands, stores the result
of its law, if it has a destination, and changes nothing else.
-/

namespace Cpu32

namespace Instruction

/-- The instructions whose operands are whole words, two of them. -/
def onWords : List Instruction :=
  [.ata, .nta, .ada, .ekc, .dto, .dro, .dtosna, .dal, .krz, .malkrz,
    .llonys, .xtlonys, .xolonys, .xylonys, .clo, .niv, .llo, .xtlo, .xolo, .xylo]

/-- The operands whose words an instruction needs, in the order in which it reads them. -/
def reads (flag : Bool) (a b : Addressing) : Instruction → List Addressing
  | .krz => [a]
  | .malkrz => if flag then [a] else []
  | i => if i.isComparison then [a, b] else [b, a]

/-- The operand that an instruction stores to.  A comparison stores nothing, and neither does a
conditional copy while the flag is clear. -/
def destination? (flag : Bool) (b : Addressing) : Instruction → Option Addressing
  | .malkrz => if flag then some b else none
  | i => if i.isComparison then none else some b

variable {i : Instruction} (flag : Bool) (a b : Addressing)

theorem reads_of_combine {f : UInt32 → UInt32 → UInt32}
    (h : i.operation = .binary (.combine f)) :
    i.reads flag a b = [b, a] ∧ i.destination? flag b = some b := by
  cases i <;> cases h <;> exact ⟨rfl, rfl⟩

theorem eq_of_copy (h : i.operation = .binary .copy) : i = .krz := by
  cases i <;> cases h
  rfl

theorem eq_of_copyIfFlag (h : i.operation = .binary .copyIfFlag) : i = .malkrz := by
  cases i <;> cases h
  rfl

theorem reads_of_compare {relation : UInt32 → UInt32 → Bool}
    (h : i.operation = .binary (.compare relation)) :
    i.reads flag a b = [a, b] ∧ i.destination? flag b = none := by
  cases i <;> cases h <;> exact ⟨rfl, rfl⟩

theorem exists_operation_of_onWords (h : i ∈ onWords) :
    ∃ operation, i.operation = .binary operation := by
  cases i with
  | inj | lat | latsna => exact absurd h (by decide)
  | _ => exact ⟨_, rfl⟩

theorem not_mem_onWords_of_widen {w : Width} (h : i.operation = .binary (.widen w)) :
    i ∉ onWords := by
  cases i <;> cases h <;> decide

theorem not_mem_onWords_of_insert {w : Width} (h : i.operation = .binary (.insert w)) :
    i ∉ onWords := by
  cases i <;> cases h <;> decide

end Instruction

namespace Machine

variable (m : Machine) (i : Instruction) (a b : Addressing)

/-- The machine once an instruction has stored a word and decided the flag. -/
def stored (word : UInt32) (flag : Bool) : Machine :=
  ((m.touchAll (i.reads m.registers.flag a b)).put word
    (i.destination? m.registers.flag b)).setFlag flag

/-- The word is what the law of an instruction gives for the words of its operands, wherever it is
stored. -/
def IsResult (word : UInt32) : Prop :=
  ∀ place, i.destination? m.registers.flag b = some place →
    ∀ e, (m.touchAll (i.reads m.registers.flag a b)).memory.Agrees e →
      ∃ n, i.law (b.valueIn m.registers e) (a.valueIn m.registers e) = some n ∧
        UInt32.ofInt n = word

end Machine

namespace Exec

open Machine (IsResult stored)

/-- Reading two words one after the other. -/
theorem load_words (first second : Addressing) (m : Machine) :
    ∃ v w middle, load .word first m = .ok v middle ∧
      load .word second middle = .ok w (m.touchAll [first, second]) ∧
      ∀ e, (m.touchAll [first, second]).memory.Agrees e →
        v = first.valueIn m.registers e ∧ w = second.valueIn m.registers e := by
  obtain ⟨v, hfirst, hv⟩ := load_word first m
  obtain ⟨w, hsecond, hw⟩ := load_word second (m.touchAll [first])
  refine ⟨v, w, m.touchAll [first], hfirst, hsecond, fun e he => ⟨?_, hw e he⟩⟩
  exact hv e (Memory.Agrees.of_touchAll m.registers [second] he)

/-- The operation ends in storing the result of the law of an instruction. -/
def StoresResult (i : Instruction) (operation : Binary) (a b : Addressing) (m : Machine) : Prop :=
  ∀ site, ∃ word flag, (Action.binary operation a b).perform site m =
    .ok () (m.stored i a b word flag) ∧ m.IsResult i a b word

section StoresResult

variable {i : Instruction} {b : Addressing} {m : Machine} (a : Addressing)

theorem storesResult_combine {f : UInt32 → UInt32 → UInt32}
    (h : i.operation = .binary (.combine f)) (hb : b.isWritable) :
    StoresResult i (.combine f) a b m := by
  intro site
  obtain ⟨hreads, hdestination⟩ := Instruction.reads_of_combine m.registers.flag a b h
  obtain ⟨vb, va, middle, hloadb, hloada, hvalues⟩ := load_words b a m
  refine ⟨f vb va, false, ?_, ?_⟩
  · rw [Action.perform, binary, bind_of_ok hloadb, bind_of_ok hloada, store_word site hb,
      stored, hreads, hdestination]
  · intro place _ e he
    rw [hreads] at he
    obtain ⟨rfl, rfl⟩ := hvalues e he
    exact Instruction.law_of_combine h _ _

theorem storesResult_copy (hb : b.isWritable) : StoresResult .krz .copy a b m := by
  intro site
  obtain ⟨va, hload, hvalue⟩ := load_word a m
  refine ⟨va, false, ?_, ?_⟩
  · rw [Action.perform, binary, bind_of_ok hload, store_word site hb]
    rfl
  · intro place _ e he
    obtain rfl := hvalue e he
    exact ⟨_, rfl, ofInt_toNat _⟩

theorem storesResult_copyIfFlag (hb : m.registers.flag = true → b.isWritable) :
    StoresResult .malkrz .copyIfFlag a b m := by
  intro site
  cases hflag : m.registers.flag with
  | false =>
      refine ⟨0, false, ?_, ?_⟩
      · rw [perform_copyIfFlag site a b hflag, stored, hflag]
        rfl
      · intro place hnone
        rw [hflag] at hnone
        cases hnone
  | true =>
      have hget : (get : Exec Machine) m = .ok m m := rfl
      obtain ⟨va, hload, hvalue⟩ := load_word a m
      refine ⟨va, false, ?_, ?_⟩
      · rw [Action.perform, binary, bind_of_ok hget]
        simp only [hflag, if_true]
        rw [bind_of_ok hload, bind_of_ok (store_word site (hb hflag) va _), stored, hflag]
        rfl
      · intro place _ e he
        rw [hflag] at he
        obtain rfl := hvalue e he
        exact ⟨_, rfl, ofInt_toNat _⟩

theorem storesResult_compare {relation : UInt32 → UInt32 → Bool}
    (h : i.operation = .binary (.compare relation)) :
    StoresResult i (.compare relation) a b m := by
  intro site
  obtain ⟨hreads, hdestination⟩ := Instruction.reads_of_compare m.registers.flag a b h
  obtain ⟨va, vb, middle, hloada, hloadb, _⟩ := load_words a b m
  refine ⟨0, relation va vb, ?_, ?_⟩
  · rw [Action.perform, binary, bind_of_ok hloada, bind_of_ok hloadb, stored, hreads, hdestination]
    rfl
  · intro place hnone
    rw [hdestination] at hnone
    cases hnone

theorem storesResult {operation : Binary} (hwords : i ∈ Instruction.onWords)
    (hoperation : i.operation = .binary operation)
    (hplace : ∀ place, i.destination? m.registers.flag b = some place → place.isWritable) :
    StoresResult i operation a b m := by
  cases operation with
  | combine f =>
      have hdestination := (Instruction.reads_of_combine m.registers.flag a b hoperation).2
      exact storesResult_combine a hoperation (hplace b hdestination)
  | copy =>
      obtain rfl := Instruction.eq_of_copy hoperation
      exact storesResult_copy a (hplace b rfl)
  | copyIfFlag =>
      obtain rfl := Instruction.eq_of_copyIfFlag hoperation
      exact storesResult_copyIfFlag a fun hflag => hplace b (if_pos hflag)
  | compare relation => exact storesResult_compare a hoperation
  | widen w => exact absurd hwords (Instruction.not_mem_onWords_of_widen hoperation)
  | insert w => exact absurd hwords (Instruction.not_mem_onWords_of_insert hoperation)

end StoresResult

end Exec

namespace Machine

variable {m : Machine} {i : Instruction} {a b : Addressing}

/-- The registers as the operands of an instruction find them, with the program counter already at
the next instruction. -/
def bankPast (m : Machine) (length : Nat) : Registers :=
  m.registers.set .xx (m.pc + UInt32.ofNat length)

/-- The memory once an instruction and the words of its operands are read. -/
def memoryRead (m : Machine) (i : Instruction) (a b : Addressing) (length : Nat) : Memory :=
  (m.memory.readBytes m.pc length).2.touchAll (m.bankPast length) (i.reads m.registers.flag a b)

/-- What becomes of a machine that executes an instruction of the given length on two words. -/
structure Obeys (m : Machine) (i : Instruction) (a b : Addressing) (length : Nat)
    (next : Machine) : Prop where
  /-- The destination becomes what the law gives for the words before the store. -/
  result : ∀ place, i.destination? m.registers.flag b = some place →
    ∀ e, (m.memoryRead i a b length).Agrees e →
      ∃ n, i.law (b.valueIn (m.bankPast length) e) (a.valueIn (m.bankPast length) e) = some n ∧
        next.Stores (m.bankPast length) (UInt32.ofInt n) place
  registers : ∀ r, r ≠ .xx → i.destination? m.registers.flag b ≠ some (.register r) →
    next.registers.get r = m.registers.get r
  pc : i.destination? m.registers.flag b ≠ some (.register .xx) →
    next.pc = m.pc + UInt32.ofNat length
  /-- A touched cell keeps its byte unless it is one of the destination. -/
  cells : ∀ x byte, m.memory.cells[x]? = some byte →
    (∀ place, i.destination? m.registers.flag b = some place →
      ¬ place.Covers (m.bankPast length) x) → next.memory.cells[x]? = some byte
  /-- The cells that are touched are those of the instruction and of the words that it reads or
  stores. -/
  touched : ∀ x, x ∈ next.memory.cells ↔ x ∈ m.memory.cells ∨ (x - m.pc).toNat < length ∨
    ∃ form, (form ∈ i.reads m.registers.flag a b ∨
      i.destination? m.registers.flag b = some form) ∧ form.Covers (m.bankPast length) x
  surroundings : next = ({ m with profile := m.profile.record i.category } : Machine).around next

/-- The machine once an instruction is counted and moved past. -/
def fetched (m : Machine) (i : Instruction) (length : Nat) : Machine :=
  ({ m with profile := m.profile.record i.category } : Machine).past length

theorem obeys_stored {word : UInt32} {flag : Bool} {length : Nat} (hlength : length ≤ UInt32.size)
    (hplace : ∀ place, i.destination? m.registers.flag b = some place → place.isWritable)
    (hresult : (m.fetched i length).IsResult i a b word) :
    m.Obeys i a b length ((m.fetched i length).stored i a b word flag) where
  result place hsome e he := by
    obtain ⟨n, hlaw, rfl⟩ := hresult place hsome e he
    refine ⟨n, hlaw, ?_⟩
    have hdestination : i.destination? (m.fetched i length).registers.flag b = some place := hsome
    rw [stored, stores_setFlag, hdestination]
    exact stores_put _ (hplace place hsome)
  registers r hr hother := by
    have hkept : ((m.fetched i length).stored i a b word flag).registers.get r = _ :=
      get_put _ hother
    exact hkept.trans (m.registers.get_set_of_ne .xx r _ hr.symm)
  pc hother := by
    have hkept : ((m.fetched i length).stored i a b word flag).pc = _ := get_put _ hother
    exact hkept.trans (m.registers.get_set_self .xx _)
  cells x byte hx houtside := by
    have hread : (m.memoryRead i a b length).cells[x]? = some byte :=
      Memory.cells_touchAll _ _ (Memory.cells_readBytes length hx)
    have hkept : ((m.fetched i length).stored i a b word flag).memory.cells[x]? = _ :=
      cells_put _ houtside
    exact hkept.trans hread
  touched x := by
    have hput : x ∈ ((m.fetched i length).stored i a b word flag).memory.cells ↔
        x ∈ (m.memoryRead i a b length).cells ∨
          ∃ place, i.destination? m.registers.flag b = some place ∧
            place.Covers (m.bankPast length) x := mem_cells_put _ x
    rw [hput, memoryRead, Memory.mem_cells_touchAll, Memory.mem_cells_readBytes hlength]
    simp only [or_and_right, exists_or, or_assoc]
  surroundings := congrArg (setFlag · flag) (put_eq_around _)

/-- An instruction on two words, wherever it is faced and whatever its operands are, succeeds unless
its destination is a value.  It leaves the result of its law in the destination, and every other
register, every other touched cell and the surroundings as they were. -/
theorem two_operand_law {da db : ModRM} (hwords : i ∈ Instruction.onWords)
    (hfaces : m.Faces (i.encoded [da, db])) (ha : da.narrowed.addressing = some a)
    (hb : db.narrowed.addressing = some b)
    (hplace : ∀ place, i.destination? m.registers.flag b = some place → place.isWritable)
    (hbudget : m.HasBudget) :
    ∃ next, Exec.step m = .ok () next ∧ m.Obeys i a b (1 + da.size + db.size) next := by
  obtain ⟨operation, hoperation⟩ := Instruction.exists_operation_of_onWords hwords
  have haction : i.action? [a, b] = some (.binary operation a b) := by
    simp only [Instruction.action?, hoperation]
  have hlength : (i.encoded [da, db]).length = 1 + da.size + db.size := by
    simp [Instruction.length_encoded, Nat.add_assoc]
  have hshort : 1 + da.size + db.size ≤ UInt32.size := by
    have ha := da.size_le
    have hb := db.size_le
    simp only [UInt32.size]
    omega
  have hfetch := Exec.fetch_of_faces hfaces haction (by simp [ha, hb])
  rw [hlength] at hfetch
  obtain ⟨word, flag, hperform, hresult⟩ :=
    Exec.storesResult (m := m.fetched i _) a hwords hoperation hplace ⟨i, m.pc⟩
  refine ⟨_, (Exec.step_of_fetch hbudget hfetch).trans hperform, ?_⟩
  exact obeys_stored hshort hplace hresult

/-- A shift by more than the width, of a word that nothing has touched and that lies around the top
of the address space. -/
theorem two_operand_law_wrapped :
    let code : List UInt8 := Instruction.encoded .dtosna [⟨0, 0x04, 40⟩, ⟨1, 0x10, 0⟩]
    let memory := (Memory.fresh fun _ => 0x90).writeBytes defaultEntry code
    let m := (boot {} memory).setRegister .f1 0xFFFFFFFE
    ∃ next, Exec.step m = .ok () next ∧
      next.memory.Holds 0xFFFFFFFE [0xFF, 0xFF, 0xFF, 0xFF] ∧ next.pc = defaultEntry + 4 ∧
      0x00000001 ∈ next.memory.cells ∧ 0x00000002 ∉ next.memory.cells := by
  intro code memory m
  have hfaces : m.Faces (Instruction.encoded .dtosna [⟨0, 0x04, 40⟩, ⟨1, 0x10, 0⟩]) := by
    decide +kernel
  have hplace (place : Addressing) (h : Instruction.destination? m.registers.flag
      (.memory (.indirect .f1)) .dtosna = some place) : place.isWritable := by
    cases h
    rfl
  obtain ⟨next, hstep, hobeys⟩ := two_operand_law (a := .immediate 40 .byte)
    (b := .memory (.indirect .f1)) (by decide) hfaces rfl rfl hplace fun _ h => nomatch h
  refine ⟨next, hstep, ?_, hobeys.pc nofun, ?_, ?_⟩
  · obtain ⟨n, hlaw, hstores⟩ := hobeys.result _ rfl _ (Memory.agrees_before _ fun _ => 0)
    have hminus : n = -1 := by
      apply Option.some.inj
      rw [← hlaw]
      decide +kernel
    rw [hminus] at hstores
    exact hstores
  · refine (hobeys.touched _).mpr (.inr (.inr ⟨_, .inr rfl, ?_⟩))
    decide +kernel
  · rw [hobeys.touched]
    rintro (htouched | hcode | ⟨form, hform, hcovers⟩)
    · exact absurd htouched (by decide +kernel)
    · exact absurd hcode (by decide +kernel)
    · have hforms : form = .memory (.indirect .f1) ∨ form = .immediate 40 .byte := by
        rcases hform with hread | hstored
        · have hread : form ∈ [Addressing.memory (.indirect .f1), .immediate 40 .byte] := hread
          simpa using hread
        · cases hstored
          exact .inl rfl
      rcases hforms with rfl | rfl <;> exact absurd hcovers (by decide +kernel)

end Machine

end Cpu32
