import Cpu32.Proofs.Machine.Assignment
import Cpu32.Proofs.Machine.Product
import Cpu32.Proofs.Machine.TwoOperands

/-!
# Instructions on three operands

An exchange or a multiplication reads the words of its first two operands and stores two words, one
after the other, in the last two.  Where these are places apart that is an assignment; where they
are not, the order of the stores shows, and so does a place that the first store moves.
-/

namespace Cpu32

namespace Ternary

/-- The operands whose words an operation needs, in the order in which it reads them. -/
def reads (a b : Addressing) : Ternary → List Addressing
  | .exchange => [a, b]
  | .multiply _ => [b, a]

theorem exists_reads (operation : Ternary) {a b : Addressing} {P : Addressing → Prop} :
    (∃ form ∈ operation.reads a b, P form) ↔ P a ∨ P b := by
  cases operation with
  | exchange => simp [reads]
  | multiply product => simp [reads, or_comm]

end Ternary

namespace Machine

/-- The machine once an instruction is counted and moved past and the words of some operands are
read. -/
def ready (m : Machine) (i : Instruction) (length : Nat) (forms : List Addressing) : Machine :=
  (m.fetched i length).touchAll forms

end Machine

namespace Exec

variable {b c : Addressing}

/-- Storing two words one after the other. -/
theorem store_words (site : Site) (hb : b.isWritable) (hc : c.isWritable) (v w : UInt32)
    (m : Machine) :
    (store site .word b v >>= fun _ => store site .word c w) m =
      .ok () (((m.put v (some b)).put w (some c)).setFlag false) := by
  rw [bind_of_ok (store_word site hb v m), store_word site hc, Machine.put_setFlag]
  rfl

/-- A ternary operation reads two words, and stores in turn the two that it makes of them. -/
theorem perform_ternary (operation : Ternary) (site : Site) (a : Addressing) (hb : b.isWritable)
    (hc : c.isWritable) (m : Machine) :
    ∃ va vb, (∀ e, (m.touchAll (operation.reads a b)).memory.Agrees e →
        va = a.valueIn m.registers e ∧ vb = b.valueIn m.registers e) ∧
      let words := operation.words va vb
      (Action.ternary operation a b c).perform site m = .ok ()
        (((m.touchAll (operation.reads a b)).storeInTurn b c words.1 words.2 operation).setFlag
          false) := by
  cases operation with
  | exchange =>
      obtain ⟨va, vb, middle, hloada, hloadb, hvalues⟩ := load_words a b m
      refine ⟨va, vb, hvalues, ?_⟩
      rw [Action.perform, ternary, bind_of_ok hloada, bind_of_ok hloadb]
      exact store_words site hb hc va vb _
  | multiply product =>
      obtain ⟨vb, va, middle, hloadb, hloada, hvalues⟩ := load_words b a m
      refine ⟨va, vb, fun e he => (hvalues e he).symm, ?_⟩
      rw [Action.perform, ternary, bind_of_ok hloadb, bind_of_ok hloada]
      exact store_words site hc hb _ _ _

section Step

variable {m : Machine} {i : Instruction} {operation : Ternary} {a : Addressing} {da db dc : ModRM}

theorem size_operands_le (da db dc : ModRM) : 1 + da.size + db.size + dc.size ≤ UInt32.size := by
  have ha := da.size_le
  have hb := db.size_le
  have hc := dc.size_le
  simp only [UInt32.size]
  omega

/-- An instruction on three words, wherever it is faced and whatever its operands are, stores two
words in turn unless one of the places is a value. -/
theorem step_ternary (hoperation : i.operation = .ternary operation)
    (hfaces : m.Faces (i.encoded [da, db, dc])) (ha : da.narrowed.addressing = some a)
    (hb : db.narrowed.addressing = some b) (hc : dc.narrowed.addressing = some c)
    (hbplace : b.isWritable) (hcplace : c.isWritable) (hbudget : m.HasBudget) :
    let length := 1 + da.size + db.size + dc.size
    let ready := m.ready i length (operation.reads a b)
    ∃ va vb, (∀ e, ready.memory.Agrees e →
        va = a.valueIn (m.bankPast length) e ∧ vb = b.valueIn (m.bankPast length) e) ∧
      let words := operation.words va vb
      step m = .ok () ((ready.storeInTurn b c words.1 words.2 operation).setFlag false) := by
  intro length ready
  have haction : i.action? [a, b, c] = some (.ternary operation a b c) := by
    simp only [Instruction.action?, hoperation]
  have hlength : (i.encoded [da, db, dc]).length = 1 + da.size + db.size + dc.size := by
    simp [Instruction.length_encoded, Nat.add_assoc]
  have hfetch := fetch_of_faces hfaces haction (by simp [ha, hb, hc])
  rw [hlength] at hfetch
  obtain ⟨va, vb, hvalues, hperform⟩ :=
    perform_ternary operation ⟨i, m.pc⟩ a hbplace hcplace (m.fetched i _)
  exact ⟨va, vb, hvalues, (step_of_fetch hbudget hfetch).trans hperform⟩

end Step

end Exec

namespace Machine

variable {m : Machine} {i : Instruction} {operation : Ternary} {a b c : Addressing}

/-- What becomes of a machine that executes an instruction of the given length on three words, the
last two of them in places apart. -/
structure Reassigns (m : Machine) (i : Instruction) (operation : Ternary) (a b c : Addressing)
    (length : Nat) (next : Machine) : Prop where
  /-- The places hold the words that the instruction makes of those of `a` and `b` before it. -/
  result : ∃ toB toC,
    (∀ e, (m.ready i length (operation.reads a b)).memory.Agrees e →
      i.Assigns (a.valueIn (m.bankPast length) e) (b.valueIn (m.bankPast length) e) toB toC) ∧
    next.Stores (m.bankPast length) toB b ∧ next.Stores (m.bankPast length) toC c
  registers : ∀ r, r ≠ .xx → b ≠ .register r → c ≠ .register r →
    next.registers.get r = m.registers.get r
  pc : b ≠ .register .xx → c ≠ .register .xx → next.pc = m.pc + UInt32.ofNat length
  flag : next.registers.flag = false
  /-- A touched cell keeps its byte unless it is one of the places. -/
  cells : ∀ x byte, m.memory.cells[x]? = some byte → ¬ b.Covers (m.bankPast length) x →
    ¬ c.Covers (m.bankPast length) x → next.memory.cells[x]? = some byte
  /-- The cells that are touched are those of the instruction and of its operands. -/
  touched : ∀ x, x ∈ next.memory.cells ↔ x ∈ m.memory.cells ∨ (x - m.pc).toNat < length ∨
    a.Covers (m.bankPast length) x ∨ b.Covers (m.bankPast length) x ∨ c.Covers (m.bankPast length) x
  surroundings : next = ({ m with profile := m.profile.record i.category } : Machine).around next

theorem reassigns_assign {length : Nat} (hlength : length ≤ UInt32.size) {toB toC : UInt32}
    (hapart : b.IsApart (m.bankPast length) c)
    (hassigns : ∀ e, (m.ready i length (operation.reads a b)).memory.Agrees e →
      i.Assigns (a.valueIn (m.bankPast length) e) (b.valueIn (m.bankPast length) e) toB toC) :
    m.Reassigns i operation a b c length
      (((m.ready i length (operation.reads a b)).assign b c toB toC).setFlag false) where
  result := by
    obtain ⟨hb, hc⟩ := stores_assign (m := m.ready i length (operation.reads a b)) hapart
    exact ⟨toB, toC, hassigns, (stores_setFlag ..).mpr hb, (stores_setFlag ..).mpr hc⟩
  registers r hr hb hc := by
    have hkept :
        ((m.ready i length (operation.reads a b)).assign b c toB toC).registers.get r = _ :=
      get_assign hb hc
    exact hkept.trans (m.registers.get_set_of_ne .xx r _ hr.symm)
  pc hb hc := by
    have hkept : ((m.ready i length (operation.reads a b)).assign b c toB toC).pc = _ :=
      get_assign hb hc
    exact hkept.trans (m.registers.get_set_self .xx _)
  flag := Registers.flag_setFlag _ false
  cells x byte hx hb hc := by
    have hread : (m.ready i length (operation.reads a b)).memory.cells[x]? = some byte :=
      Memory.cells_touchAll _ _ (Memory.cells_readBytes length hx)
    have hkept :
        ((m.ready i length (operation.reads a b)).assign b c toB toC).memory.cells[x]? = _ :=
      cells_assign hb hc
    exact hkept.trans hread
  touched x := by
    have hassign : x ∈ ((m.ready i length (operation.reads a b)).assign b c toB toC).memory.cells ↔
        x ∈ (m.ready i length (operation.reads a b)).memory.cells ∨
          b.Covers (m.bankPast length) x ∨ c.Covers (m.bankPast length) x := mem_cells_assign x
    have hread : x ∈ (m.ready i length (operation.reads a b)).memory.cells ↔
        x ∈ (m.memory.readBytes m.pc length).2.cells ∨
          ∃ form ∈ operation.reads a b, form.Covers (m.bankPast length) x :=
      Memory.mem_cells_touchAll _ _ x
    rw [Memory.mem_cells_readBytes hlength, Ternary.exists_reads] at hread
    refine (hassign.trans (or_congr_left hread)).trans ?_
    simp only [or_assoc, or_self_left]
  surroundings := congrArg (setFlag · false) assign_eq_around

/-- An exchange or a multiplication, wherever it is faced and whatever its operands are, succeeds if
its places are apart.  It leaves the words that it makes of the operands there, and every other
register, every other touched cell and the surroundings as they were. -/
theorem three_operand_law {da db dc : ModRM} (hoperation : i.operation = .ternary operation)
    (hfaces : m.Faces (i.encoded [da, db, dc])) (ha : da.narrowed.addressing = some a)
    (hb : db.narrowed.addressing = some b) (hc : dc.narrowed.addressing = some c)
    (hapart : b.IsApart (m.bankPast (1 + da.size + db.size + dc.size)) c)
    (hbudget : m.HasBudget) :
    ∃ next, Exec.step m = .ok () next ∧
      m.Reassigns i operation a b c (1 + da.size + db.size + dc.size) next := by
  obtain ⟨va, vb, hvalues, hstep⟩ := Exec.step_ternary hoperation hfaces ha hb hc
    hapart.isWritable hapart.symm.isWritable hbudget
  have hready : b.IsApart (m.ready i (1 + da.size + db.size + dc.size)
    (operation.reads a b)).registers c := hapart
  dsimp only at hstep
  rw [storeInTurn_of_isApart hready] at hstep
  refine ⟨_, hstep, reassigns_assign (Exec.size_operands_le da db dc) hapart fun e he => ?_⟩
  obtain ⟨rfl, rfl⟩ := hvalues e he
  exact Ternary.assigns_words hoperation _ _

/-- A call: the exchange of the program counter leaves the address of the next instruction in a
register. -/
theorem three_operand_law_call :
    let operands := [ModRM.wideImmediate 0x20000000, .register .xx, .register .f6]
    let m := boot {} ((Memory.fresh fun _ => 0).writeBytes defaultEntry
      (Instruction.encoded .inj operands))
    ∃ next, Exec.step m = .ok () next ∧ next.pc = 0x20000000 ∧
      next.registers.get .f6 = defaultEntry + 8 ∧ next.registers.flag = false := by
  intro operands m
  have hfaces : m.Faces (Instruction.encoded .inj operands) := by
    decide +kernel
  have hapart : Addressing.IsApart (m.bankPast 8) (.register .xx) (.register .f6) := nofun
  obtain ⟨next, hstep, hreassigns⟩ := three_operand_law (a := .immediate 0x20000000 .word)
    rfl hfaces rfl rfl rfl hapart fun _ h => nomatch h
  obtain ⟨toB, toC, hassigns, hb, hc⟩ := hreassigns.result
  obtain ⟨rfl, rfl⟩ := hassigns _ (Memory.agrees_before _ fun _ => 0)
  exact ⟨next, hstep, hb, hc, hreassigns.flag⟩

/-- An exchange or a multiplication, whatever its places have in common, reads its words first and
then stores two words in turn.  That is the assignment to both places exactly if it makes no
difference that the second one is found after the first store, nor, for an exchange, that `b` is
stored before `c`. -/
theorem three_operand_stores {da db dc : ModRM} (hoperation : i.operation = .ternary operation)
    (hfaces : m.Faces (i.encoded [da, db, dc])) (ha : da.narrowed.addressing = some a)
    (hb : db.narrowed.addressing = some b) (hc : dc.narrowed.addressing = some c)
    (hbplace : b.isWritable) (hcplace : c.isWritable) (hbudget : m.HasBudget) :
    let length := 1 + da.size + db.size + dc.size
    let ready := m.ready i length (operation.reads a b)
    ∃ va vb next, Exec.step m = .ok () next ∧
      (∀ e, ready.memory.Agrees e →
        va = a.valueIn (m.bankPast length) e ∧ vb = b.valueIn (m.bankPast length) e) ∧
      let words := operation.words va vb
      next = (ready.storeInTurn b c words.1 words.2 operation).setFlag false ∧
        (next = (ready.assign b c words.1 words.2).setFlag false ↔
          ready.Honours b c words.1 words.2 operation) := by
  intro length ready
  obtain ⟨va, vb, hvalues, hstep⟩ :=
    Exec.step_ternary hoperation hfaces ha hb hc hbplace hcplace hbudget
  refine ⟨va, vb, _, hstep, hvalues, rfl, ?_⟩
  rw [setFlag_inj ((flag_storeInTurn ..).trans (flag_assign ..).symm)]
  exact storeInTurn_eq_assign_iff ..

/-- A product whose words both go to one register leaves the low one there. -/
theorem three_operand_stores_product :
    let operands := [ModRM.register .f0, .register .f1, .register .f1]
    let m := ((boot {} ((Memory.fresh fun _ => 0).writeBytes defaultEntry
      (Instruction.encoded .lat operands))).setRegister .f0 0x10000).setRegister .f1 0x10003
    ∃ next, Exec.step m = .ok () next ∧ next.registers.get .f1 = 0x30000 := by
  intro operands m
  have hfaces : m.Faces (Instruction.encoded .lat operands) := by
    decide +kernel
  obtain ⟨va, vb, next, hstep, hvalues, -, hassigned⟩ := three_operand_stores
    rfl hfaces rfl rfl rfl rfl rfl fun _ h => nomatch h
  obtain ⟨rfl, rfl⟩ := hvalues _ (Memory.agrees_before _ fun _ => 0)
  rw [hassigned.mpr trivial] at hstep
  refine ⟨_, hstep, ?_⟩
  decide +kernel

/-- An exchange whose places are one register leaves the old word of `b` there, where the assignment
leaves that of `a`. -/
theorem exchange_into_one_register :
    let operands := [ModRM.register .f0, .register .f1, .register .f1]
    let m := ((boot {} ((Memory.fresh fun _ => 0).writeBytes defaultEntry
      (Instruction.encoded .inj operands))).setRegister .f0 1).setRegister .f1 2
    let ready := m.ready .inj 4 [.register .f0, .register .f1]
    ∃ next, Exec.step m = .ok () next ∧ next.registers.get .f1 = 2 ∧
      ((ready.assign (.register .f1) (.register .f1) 1 2).setFlag false).registers.get .f1 = 1 := by
  intro operands m ready
  have hfaces : m.Faces (Instruction.encoded .inj operands) := by
    decide +kernel
  obtain ⟨va, vb, hvalues, hstep⟩ := Exec.step_ternary (b := .register .f1) (c := .register .f1)
    rfl hfaces rfl rfl rfl rfl rfl fun _ h => nomatch h
  obtain ⟨rfl, rfl⟩ := hvalues _ (Memory.agrees_before _ fun _ => 0)
  refine ⟨_, hstep, ?_, ?_⟩
  · decide +kernel
  · decide +kernel

/-- A product whose high word goes to the register that the address of `b` is computed from leaves
the low word at the address that this register then has. -/
example :
    let operands := [ModRM.register .f0, .indirect .f1, .register .f1]
    let m := (((boot {} ((Memory.fresh fun _ => 0).writeBytes defaultEntry
      (Instruction.encoded .lat operands))).setRegister .f0 0x20000).setRegister .f1
        0x1000).writeMemory .word 0x1000 0x20003
    let next := stateAfter Exec.step m
    next.registers.get .f1 = 4 ∧ (next.memory.read .word 0x1000).1 = 0x20003 ∧
      (next.memory.read .word 4).1 = 0x60000 := by
  decide +kernel

end Machine

end Cpu32
