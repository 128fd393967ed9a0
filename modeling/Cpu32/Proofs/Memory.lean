import Cpu32.Memory

/-!
# Bytes in memory

Consecutive cells that hold given bytes, from the copying of an image on, and the cells that reading
and writing touch.
-/

namespace Cpu32

namespace Memory

/-- The cells from an address on hold the bytes. -/
def Holds (m : Memory) (address : UInt32) (bytes : List UInt8) : Prop :=
  ∀ k (h : k < bytes.length), m.cells[address + UInt32.ofNat k]? = some bytes[k]

variable {m : Memory} {address : UInt32}

theorem address_zero (address : UInt32) : address + UInt32.ofNat 0 = address :=
  UInt32.add_zero address

theorem address_succ (address : UInt32) (k : Nat) :
    address + UInt32.ofNat (k + 1) = address + 1 + UInt32.ofNat k := by
  rw [UInt32.ofNat_add, UInt32.add_comm (UInt32.ofNat k), ← UInt32.add_assoc]
  rfl

theorem holds_nil : m.Holds address [] := by
  intro k hk
  cases hk

theorem holds_cons {b : UInt8} {rest : List UInt8} :
    m.Holds address (b :: rest) ↔ m.cells[address]? = some b ∧ m.Holds (address + 1) rest := by
  constructor
  · intro h
    constructor
    · have hfirst := h 0 (by simp)
      rwa [address_zero] at hfirst
    · intro k hk
      have hlater := h (k + 1) (by simp [hk])
      rwa [address_succ] at hlater
  · rintro ⟨hfirst, hrest⟩ k hk
    cases k with
    | zero => rwa [address_zero]
    | succ k =>
        rw [address_succ]
        exact hrest k (by simpa using hk)

theorem holds_append {first second : List UInt8} :
    m.Holds address (first ++ second) ↔
      m.Holds address first ∧ m.Holds (address + UInt32.ofNat first.length) second := by
  induction first generalizing address with
  | nil =>
      rw [List.nil_append, List.length_nil, address_zero]
      exact ⟨fun h => ⟨holds_nil, h⟩, And.right⟩
  | cons b rest ih =>
      rw [List.cons_append, holds_cons, holds_cons, ih, List.length_cons, address_succ, and_assoc]

/-- A cell that holds a byte is read without drawing noise. -/
theorem readCell_of_eq_some {b : UInt8} (h : m.cells[address]? = some b) :
    m.readCell address = (b, m) := by
  rw [readCell, h]

/-- Reading a cell leaves its byte in it. -/
theorem cells_readCell_self (m : Memory) (address : UInt32) :
    (m.readCell address).2.cells[address]? = some (m.readCell address).1 := by
  cases h : m.cells[address]? with
  | some b =>
      rw [readCell_of_eq_some h]
      exact h
  | none => simp [readCell, h]

/-- Reading a cell changes no cell that holds a byte. -/
theorem cells_readCell {x : UInt32} {b : UInt8} (hx : m.cells[x]? = some b) :
    (m.readCell address).2.cells[x]? = some b := by
  cases h : m.cells[address]? with
  | some c =>
      rw [readCell_of_eq_some h]
      exact hx
  | none =>
      have hne : address ≠ x := by
        rintro rfl
        cases h.symm.trans hx
      simp [readCell, h, Std.ExtTreeMap.getElem?_insert, hne, hx]

theorem cells_readBytes {x : UInt32} {b : UInt8} (n : Nat) (hx : m.cells[x]? = some b) :
    (m.readBytes address n).2.cells[x]? = some b := by
  induction n generalizing m address with
  | zero => exact hx
  | succ n ih => exact ih (cells_readCell hx)

theorem Holds.readBytes {bytes : List UInt8} (h : m.Holds address bytes) (x : UInt32) (n : Nat) :
    (m.readBytes x n).2.Holds address bytes :=
  fun k hk => cells_readBytes n (h k hk)

theorem length_readBytes (m : Memory) (address : UInt32) (n : Nat) :
    (m.readBytes address n).1.length = n := by
  induction n generalizing m address with
  | zero => rfl
  | succ n ih => exact congrArg (· + 1) (ih ..)

/-- Cells that follow each other are read one part after the other. -/
theorem readBytes_add (m : Memory) (address : UInt32) (n k : Nat) :
    m.readBytes address (n + k) =
      let first := m.readBytes address n
      let second := first.2.readBytes (address + UInt32.ofNat n) k
      (first.1 ++ second.1, second.2) := by
  induction n generalizing m address with
  | zero =>
      rw [Nat.zero_add, address_zero]
      rfl
  | succ n ih =>
      rw [Nat.add_right_comm]
      simp only [readBytes, ih, address_succ, List.cons_append]

/-- Bytes that were read are held from then on. -/
theorem holds_readBytes (m : Memory) (address : UInt32) (n : Nat) :
    (m.readBytes address n).2.Holds address (m.readBytes address n).1 := by
  induction n generalizing m address with
  | zero => exact holds_nil
  | succ n ih =>
      apply holds_cons.mpr
      constructor
      · exact cells_readBytes n (m.cells_readCell_self address)
      · exact ih (m.readCell address).2 (address + 1)

theorem readBytes_of_holds {bytes : List UInt8} (h : m.Holds address bytes) :
    m.readBytes address bytes.length = (bytes, m) := by
  induction bytes generalizing address with
  | nil => rfl
  | cons b rest ih =>
      obtain ⟨hfirst, hrest⟩ := holds_cons.mp h
      rw [List.length_cons, readBytes, readCell_of_eq_some hfirst]
      simp only [ih hrest]

/-- A part that was read already is read again as the beginning of the whole. -/
theorem readBytes_of_le (m : Memory) (address : UInt32) {n k : Nat} (h : n ≤ k) :
    (m.readBytes address n).2.readBytes address k = m.readBytes address k := by
  obtain ⟨rest, rfl⟩ := Nat.exists_eq_add_of_le h
  have hagain := readBytes_of_holds (m.holds_readBytes address n)
  rw [length_readBytes] at hagain
  simp only [readBytes_add, hagain]

/-- What was read is read again, whatever else is read in between. -/
theorem read_again (m : Memory) (w other : Width) (address elsewhere : UInt32) :
    let first := m.read w address
    ((first.2.read other elsewhere).2.read w address).1 = first.1 := by
  have hheld := (m.holds_readBytes address w.size).readBytes elsewhere other.size
  have hagain := readBytes_of_holds hheld
  rw [length_readBytes] at hagain
  exact congrArg (ofBigEndian ·.1) hagain

theorem noise_writeBytes (address : UInt32) (bytes : List UInt8) :
    (m.writeBytes address bytes).noise = m.noise := by
  induction bytes generalizing m address with
  | nil => rfl
  | cons b rest ih => exact ih (m := m.writeCell address b) (address + 1)

/-- Writing draws no noise. -/
theorem drawn_writeBytes (address : UInt32) (bytes : List UInt8) :
    (m.writeBytes address bytes).drawn = m.drawn := by
  induction bytes generalizing m address with
  | nil => rfl
  | cons b rest ih => exact ih (m := m.writeCell address b) (address + 1)

theorem cells_writeBytes_of_outside {x : UInt32} {bytes : List UInt8}
    (houtside : ∀ k < bytes.length, x ≠ address + UInt32.ofNat k) :
    (m.writeBytes address bytes).cells[x]? = m.cells[x]? := by
  induction bytes generalizing m address with
  | nil => rfl
  | cons b rest ih =>
      have hhere : address ≠ x := by
        have hfirst := houtside 0 (by simp)
        rw [address_zero] at hfirst
        exact hfirst.symm
      rw [writeBytes, ih]
      · simp [writeCell, Std.ExtTreeMap.getElem?_insert, hhere]
      · intro k hk
        rw [← address_succ]
        exact houtside (k + 1) (by simp [hk])

/-- Bytes that do not reach around the address space are held after they are written. -/
theorem holds_writeBytes {bytes : List UInt8} (hfit : bytes.length ≤ UInt32.size) :
    (m.writeBytes address bytes).Holds address bytes := by
  induction bytes generalizing m address with
  | nil => exact holds_nil
  | cons b rest ih =>
      rw [List.length_cons] at hfit
      rw [writeBytes, holds_cons]
      constructor
      · rw [cells_writeBytes_of_outside]
        · simp [writeCell]
        · intro k hk heq
          have hnat := congrArg UInt32.toNat heq
          rw [← address_succ, UInt32.toNat_add, UInt32.toNat_ofNat'] at hnat
          have haddress := address.toNat_lt
          simp only [UInt32.size] at hfit
          omega
      · exact ih (by omega)

/-- The cell at a distance that does not reach around the address space. -/
theorem toNat_distance (address : UInt32) {k : Nat} (hk : k < UInt32.size) :
    (address + UInt32.ofNat k - address).toNat = k := by
  rw [UInt32.add_comm, UInt32.add_sub_cancel, UInt32.toNat_ofNat_of_lt' hk]

theorem add_distance (address x : UInt32) :
    address + UInt32.ofNat (x - address).toNat = x := by
  rw [UInt32.ofNat_toNat, UInt32.add_comm, UInt32.sub_add_cancel]

/-- Bytes that do not reach around the address space are held where each cell has the byte at its
distance. -/
theorem holds_iff_cells {bytes : List UInt8} (hfit : bytes.length ≤ UInt32.size) :
    m.Holds address bytes ↔
      ∀ x b, bytes[(x - address).toNat]? = some b → m.cells[x]? = some b := by
  constructor
  · intro h x b hb
    obtain ⟨hk, rfl⟩ := List.getElem?_eq_some_iff.mp hb
    have hheld := h _ hk
    rwa [add_distance] at hheld
  · intro h k hk
    apply h
    rw [toNat_distance address (Nat.lt_of_lt_of_le hk hfit)]
    exact List.getElem?_eq_getElem hk

/-- What every cell holds after bytes that do not reach around the address space are written. -/
theorem cells_writeBytes {bytes : List UInt8} (hfit : bytes.length ≤ UInt32.size) (x : UInt32) :
    (m.writeBytes address bytes).cells[x]? =
      bytes[(x - address).toNat]?.or m.cells[x]? := by
  cases hb : bytes[(x - address).toNat]? with
  | some b => exact (holds_iff_cells hfit).mp (holds_writeBytes hfit) x b hb
  | none =>
      rw [Option.none_or]
      apply cells_writeBytes_of_outside
      rintro k hk rfl
      rw [toNat_distance address (Nat.lt_of_lt_of_le hk hfit), List.getElem?_eq_getElem hk] at hb
      cases hb

/-- The cells at a distance below `n + 1` are the first one and those at a distance below `n` from
the next. -/
theorem sub_lt_succ_iff (x address : UInt32) {n : Nat} (hn : n < UInt32.size) :
    (x - address).toNat < n + 1 ↔ x = address ∨ (x - (address + 1)).toNat < n := by
  have hx : x.toNat < 4294967296 := x.toNat_lt
  have haddress : address.toNat < 4294967296 := address.toNat_lt
  simp only [← UInt32.toNat_inj, UInt32.toNat_sub, UInt32.toNat_add, UInt32.toNat_one]
  simp only [UInt32.size] at hn
  omega

theorem mem_cells_readCell (x : UInt32) :
    x ∈ (m.readCell address).2.cells ↔ x ∈ m.cells ∨ x = address := by
  cases h : m.cells[address]? with
  | some b =>
      have hmem : address ∈ m.cells := by simp [Std.ExtTreeMap.mem_iff_isSome_getElem?, h]
      rw [readCell_of_eq_some h]
      constructor
      · exact .inl
      · rintro (hx | rfl)
        · exact hx
        · exact hmem
  | none => simp [readCell, h, Std.ExtTreeMap.mem_insert, or_comm, @eq_comm _ x]

/-- Reading touches the cells that are read and no others. -/
theorem mem_cells_readBytes {n : Nat} (hn : n ≤ UInt32.size) (x : UInt32) :
    x ∈ (m.readBytes address n).2.cells ↔ x ∈ m.cells ∨ (x - address).toNat < n := by
  induction n generalizing m address with
  | zero => simp [readBytes]
  | succ n ih =>
      rw [sub_lt_succ_iff x address hn, ← or_assoc, ← mem_cells_readCell]
      exact ih (Nat.le_of_succ_le hn)

/-- Writing touches the cells that are written and no others. -/
theorem mem_cells_writeBytes {bytes : List UInt8} (hfit : bytes.length ≤ UInt32.size)
    (x : UInt32) :
    x ∈ (m.writeBytes address bytes).cells ↔
      x ∈ m.cells ∨ (x - address).toNat < bytes.length := by
  have hwritten : bytes[(x - address).toNat]?.isSome ↔ (x - address).toNat < bytes.length := by
    simp
  simp only [Std.ExtTreeMap.mem_iff_isSome_getElem?, cells_writeBytes hfit, Option.isSome_or,
    Bool.or_eq_true, hwritten]
  exact or_comm

theorem load_of_fits {base : UInt32} {image : List UInt8}
    (hfit : base.toNat + image.length ≤ UInt32.size) :
    m.load base image = .ok (m.writeBytes base image) :=
  if_pos hfit

/-- A loaded image is held from its base on. -/
theorem holds_of_load {m' : Memory} {base : UInt32} {image : List UInt8}
    (h : m.load base image = .ok m') : m'.Holds base image := by
  rw [load] at h
  split at h
  · cases h
    exact holds_writeBytes (by omega)
  · cases h

end Memory

end Cpu32
