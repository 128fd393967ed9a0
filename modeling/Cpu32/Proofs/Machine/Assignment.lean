import Cpu32.Proofs.Machine.Operands

/-!
# Assigning two words

Two words that are stored one after the other, against two that are put in places found beforehand.
Both ways differ when the first store moves the second place, and when the places have something in
common and the stores are made in the other order.
-/

namespace Cpu32

namespace Memory

/-- Memories with the same noise left are told apart by their cells. -/
theorem ext_cells {m m' : Memory} (hcells : ∀ x : UInt32, m.cells[x]? = m'.cells[x]?)
    (hnoise : m.noise = m'.noise) (hdrawn : m.drawn = m'.drawn) : m = m' := by
  obtain ⟨cells, noise, drawn⟩ := m
  obtain ⟨cells', noise', drawn'⟩ := m'
  obtain rfl : cells = cells' := Std.ExtTreeMap.ext_getElem? fun {x} => hcells x
  cases hnoise
  cases hdrawn
  rfl

variable (m : Memory) (x y : UInt32) (w w' : Width) (value value' : UInt32)

theorem cells_write (z : UInt32) :
    (m.write w x value).cells[z]? = (w.bytes value)[(z - x).toNat]?.or m.cells[z]? :=
  cells_writeBytes (w.length_bytes_le value) z

/-- A value is written at either of two addresses with the same effect if each time it comes to
stand at both. -/
theorem write_eq_write_iff :
    m.write w x value = m.write w y value ↔
      (m.write w x value).Holds y (w.bytes value) ∧
        (m.write w y value).Holds x (w.bytes value) := by
  have hfit := w.length_bytes_le value
  constructor
  · intro h
    have hx : (m.write w x value).Holds x (w.bytes value) := holds_writeBytes hfit
    have hy : (m.write w y value).Holds y (w.bytes value) := holds_writeBytes hfit
    exact ⟨h.symm ▸ hy, h ▸ hx⟩
  · rintro ⟨hy, hx⟩
    rw [holds_iff_cells hfit] at hx hy
    refine ext_cells (fun z => ?_) ?_ ?_
    · cases hb : (w.bytes value)[(z - x).toNat]? with
      | some b => rw [hx z b hb, cells_write, hb, Option.some_or]
      | none =>
          cases hb' : (w.bytes value)[(z - y).toNat]? with
          | some b' => rw [hy z b' hb', cells_write, hb', Option.some_or]
          | none => rw [cells_write, cells_write, hb, hb']
    · simp only [write, noise_writeBytes]
    · simp only [write, drawn_writeBytes]

/-- Two values can be written in either order if they have the same bytes where they meet. -/
theorem write_comm_iff :
    (m.write w x value).write w' y value' = (m.write w' y value').write w x value ↔
      ∀ z b b', (w.bytes value)[(z - x).toNat]? = some b →
        (w'.bytes value')[(z - y).toNat]? = some b' → b = b' := by
  constructor
  · intro h z b b' hb hb'
    have hcells := congrArg (·.cells[z]?) h
    simp only [cells_write, hb, hb', Option.some_or, Option.some.injEq] at hcells
    exact hcells.symm
  · intro h
    refine ext_cells (fun z => ?_) ?_ ?_
    · simp only [cells_write]
      cases hb : (w.bytes value)[(z - x).toNat]? with
      | none => rfl
      | some b =>
          cases hb' : (w'.bytes value')[(z - y).toNat]? with
          | none => rfl
          | some b' => rw [h z b b' hb hb', Option.some_or]
    · simp only [write, noise_writeBytes]
    · simp only [write, drawn_writeBytes]

end Memory

namespace Registers

theorem set_comm (bank : Registers) {r s : Register} (h : r ≠ s) (v w : UInt32) :
    (bank.set r v).set s w = (bank.set s w).set r v := by
  simp only [set, Vector.set_comm _ _ (Register.index_ne h)]

end Registers

namespace Addressing

/-- Two words can be put in two places in either order: the places have nothing in common, or what
they have in common becomes the same. -/
def Commutes (bank : Registers) (v w : UInt32) : Addressing → Addressing → Prop
  | .register r, .register s => r = s → v = w
  | .memory k, .memory l => ∀ x b b',
      (Width.word.bytes v)[(x - k.address bank).toNat]? = some b →
        (Width.word.bytes w)[(x - l.address bank).toNat]? = some b' → b = b'
  | _, _ => True

/-- Two operands are places with nothing in common, and neither of them is a register that the
address of the other one is computed from. -/
def IsApart (bank : Registers) : Addressing → Addressing → Prop
  | .register r, .register s => r ≠ s
  | .register r, .memory l => r ∉ l.registers
  | .memory k, .register s => s ∉ k.registers
  | .memory k, .memory l =>
      ∀ x, (memory k).Covers bank x → ¬ (memory l).Covers bank x
  | .immediate .., _ | _, .immediate .. => False

variable {bank : Registers} {b c : Addressing}

theorem IsApart.symm (h : b.IsApart bank c) : c.IsApart bank b := by
  cases b <;> cases c
  case register.register r s => exact Ne.symm h
  case memory.memory k l => exact fun x hc hb => h x hb hc
  all_goals exact h

theorem IsApart.isWritable (h : b.IsApart bank c) : b.isWritable := by
  cases b with
  | immediate => cases h
  | register | memory => rfl

theorem covers_of_getElem? {location : Location} {x v : UInt32} {byte : UInt8}
    (h : (Width.word.bytes v)[(x - location.address bank).toNat]? = some byte) :
    (memory location).Covers bank x := by
  obtain ⟨hk, -⟩ := List.getElem?_eq_some_iff.mp h
  rwa [Width.length_bytes] at hk

theorem IsApart.commutes (h : b.IsApart bank c) (v w : UInt32) : Commutes bank v w b c := by
  cases b <;> cases c
  case register.register r s => exact fun heq => absurd heq h
  case memory.memory k l =>
    intro x _ _ hb hc
    exact absurd (covers_of_getElem? hc) (h x (covers_of_getElem? hb))
  all_goals trivial

end Addressing

namespace Machine

variable (m : Machine)

/-- Putting a word in the first place does not make a difference to what comes of another word that
is put in the second place afterwards.  It could, where the first place is a register that the
address of the second one is computed from. -/
def Settles (v w : UInt32) : Addressing → Addressing → Prop
  | .register r, .memory l =>
      let before := l.address m.registers
      let after := l.address (m.registers.set r v)
      (m.memory.write .word after w).Holds before (Width.word.bytes w) ∧
        (m.memory.write .word before w).Holds after (Width.word.bytes w)
  | _, _ => True

/-- The machine with two words put in `c` and in `b`, in this order, both places as they are found
beforehand. -/
def assign (b c : Addressing) (toB toC : UInt32) : Machine :=
  (m.putAt m.registers toC c).putAt m.registers toB b

/-- The machine with two words stored one after the other in the order of an operation, each place
as it is found then. -/
def storeInTurn (b c : Addressing) (toB toC : UInt32) : Ternary → Machine
  | .exchange => (m.put toB (some b)).put toC (some c)
  | .multiply _ => (m.put toC (some c)).put toB (some b)

/-- What it takes for storing in turn to come out as an assignment. -/
def Honours (b c : Addressing) (toB toC : UInt32) : Ternary → Prop
  | .exchange => m.Settles toB toC b c ∧ b.Commutes m.registers toB toC c
  | .multiply _ => m.Settles toC toB c b

theorem put_put_eq_iff (b c : Addressing) (v w : UInt32) :
    (m.put v (some b)).put w (some c) = (m.putAt m.registers v b).putAt m.registers w c ↔
      m.Settles v w b c := by
  cases b <;> cases c
  case register.memory r l =>
    have hmachines : (m.put v (some (.register r))).put w (some (.memory l)) =
        (m.putAt m.registers v (.register r)).putAt m.registers w (.memory l) ↔
          m.memory.write .word (l.address (m.registers.set r v)) w =
            m.memory.write .word (l.address m.registers) w := by
      constructor
      · exact congrArg Machine.memory
      · exact congrArg fun memory => { m with registers := m.registers.set r v, memory }
    rw [hmachines]
    exact Memory.write_eq_write_iff ..
  all_goals exact iff_of_true rfl trivial

theorem putAt_comm_iff (bank : Registers) (b c : Addressing) (v w : UInt32) :
    (m.putAt bank v b).putAt bank w c = (m.putAt bank w c).putAt bank v b ↔
      b.Commutes bank v w c := by
  cases b <;> cases c
  case register.register r s =>
    constructor
    · rintro h rfl
      have hget := congrArg (·.registers.get r) h
      simpa only [putAt, setRegister, Registers.get_set_self, eq_comm] using hget
    · intro h
      by_cases hrs : r = s
      · obtain rfl := h hrs
        cases hrs
        rfl
      · exact congrArg (fun registers => { m with registers }) (m.registers.set_comm hrs v w)
  case memory.memory k l =>
    constructor
    · intro h
      exact (Memory.write_comm_iff ..).mp (congrArg Machine.memory h)
    · intro h
      exact congrArg (fun memory => { m with memory }) ((Memory.write_comm_iff ..).mpr h)
  all_goals exact iff_of_true rfl trivial

/-- Only one of the two, the place or the order, can make a difference. -/
theorem settles_or_commutes (b c : Addressing) (v w : UInt32) :
    m.Settles v w b c ∨ b.Commutes m.registers v w c := by
  cases b <;> cases c
  case register.memory r l => exact .inr trivial
  all_goals exact .inl trivial

/-- Storing in turn comes out as an assignment in no other case. -/
theorem storeInTurn_eq_assign_iff (b c : Addressing) (toB toC : UInt32) (operation : Ternary) :
    m.storeInTurn b c toB toC operation = m.assign b c toB toC ↔
      m.Honours b c toB toC operation := by
  cases operation with
  | multiply product => exact m.put_put_eq_iff c b toC toB
  | exchange =>
      have hplaces := m.put_put_eq_iff b c toB toC
      have horder := m.putAt_comm_iff m.registers b c toB toC
      constructor
      · intro h
        rcases m.settles_or_commutes b c toB toC with hsettles | hcommutes
        · exact ⟨hsettles, horder.mp ((hplaces.mpr hsettles).symm.trans h)⟩
        · exact ⟨hplaces.mp (h.trans (horder.mpr hcommutes).symm), hcommutes⟩
      · rintro ⟨hsettles, hcommutes⟩
        exact (hplaces.mpr hsettles).trans (horder.mpr hcommutes)

theorem flag_putAt (bank : Registers) (place : Addressing) (word : UInt32) :
    (m.putAt bank word place).registers.flag = m.registers.flag := by
  cases place <;> rfl

theorem flag_assign (b c : Addressing) (toB toC : UInt32) :
    (m.assign b c toB toC).registers.flag = m.registers.flag := by
  rw [assign, flag_putAt, flag_putAt]

theorem flag_storeInTurn (b c : Addressing) (toB toC : UInt32) (operation : Ternary) :
    (m.storeInTurn b c toB toC operation).registers.flag = m.registers.flag := by
  cases operation <;> rw [storeInTurn, put_some, put_some, flag_putAt, flag_putAt]

/-- Setting the flag tells machines with the same flag apart as well as they are. -/
theorem setFlag_inj {m m' : Machine} (h : m.registers.flag = m'.registers.flag) (flag : Bool) :
    m.setFlag flag = m'.setFlag flag ↔ m = m' := by
  constructor
  · intro heq
    have hback (m : Machine) : (m.setFlag flag).setFlag m.registers.flag = m := rfl
    rw [← hback m, heq, h, hback]
  · exact congrArg (setFlag · flag)

variable {m} {b c : Addressing} {v w toB toC : UInt32}

theorem settles_of_not_mem {r : Register} {l : Location} (h : r ∉ l.registers) :
    m.Settles v w (.register r) (.memory l) := by
  have hheld (address : UInt32) :
      (m.memory.write .word address w).Holds address (Width.word.bytes w) :=
    Memory.holds_writeBytes (Width.word.length_bytes_le w)
  simp only [Settles, Location.address_set h]
  exact ⟨hheld _, hheld _⟩

theorem settles_of_isApart (h : b.IsApart m.registers c) : m.Settles v w b c := by
  cases b <;> cases c
  case register.memory r l => exact settles_of_not_mem h
  all_goals trivial

theorem storeInTurn_of_isApart (h : b.IsApart m.registers c) (toB toC : UInt32)
    (operation : Ternary) : m.storeInTurn b c toB toC operation = m.assign b c toB toC := by
  apply (m.storeInTurn_eq_assign_iff ..).mpr
  cases operation with
  | exchange => exact ⟨settles_of_isApart h, h.commutes toB toC⟩
  | multiply product => exact settles_of_isApart h.symm

/-- A word stays in its place when another one is put in a place apart. -/
theorem Stores.putAt {bank : Registers} (hstores : m.Stores bank w c) (h : b.IsApart bank c) :
    (m.putAt bank v b).Stores bank w c := by
  cases b <;> cases c
  case register.register r s => exact (m.registers.get_set_of_ne r s v h).trans hstores
  case memory.memory k l =>
    have hfit := Width.word.length_bytes_le w
    apply (Memory.holds_iff_cells hfit).mpr
    intro x byte hbyte
    have houtside : ¬ (Addressing.memory k).Covers bank x := fun hcovers =>
      h x hcovers (Addressing.covers_of_getElem? hbyte)
    have hkept : (m.putAt bank v (.memory k)).memory.cells[x]? = _ := m.cells_putAt houtside
    exact hkept.trans ((Memory.holds_iff_cells hfit).mp hstores x byte hbyte)
  all_goals exact hstores

/-- An assignment to places apart leaves both words there. -/
theorem stores_assign (h : b.IsApart m.registers c) :
    (m.assign b c toB toC).Stores m.registers toB b ∧
      (m.assign b c toB toC).Stores m.registers toC c := by
  rw [assign]
  constructor
  · exact stores_putAt _ h.isWritable
  · exact (stores_putAt m h.symm.isWritable).putAt h

theorem get_assign {r : Register} (hb : b ≠ .register r) (hc : c ≠ .register r) :
    (m.assign b c toB toC).registers.get r = m.registers.get r :=
  (get_putAt _ hb).trans (get_putAt _ hc)

theorem cells_assign {x : UInt32} (hb : ¬ b.Covers m.registers x)
    (hc : ¬ c.Covers m.registers x) :
    (m.assign b c toB toC).memory.cells[x]? = m.memory.cells[x]? :=
  (cells_putAt _ hb).trans (cells_putAt _ hc)

theorem mem_cells_assign (x : UInt32) :
    x ∈ (m.assign b c toB toC).memory.cells ↔
      x ∈ m.memory.cells ∨ b.Covers m.registers x ∨ c.Covers m.registers x := by
  rw [assign, mem_cells_putAt, mem_cells_putAt, or_assoc, or_comm (a := c.Covers _ x)]

theorem assign_eq_around : m.assign b c toB toC = m.around (m.assign b c toB toC) := by
  cases b <;> cases c <;> rfl

end Machine

end Cpu32
