import Cpu32.Proofs.Memory.Eager

/-!
# Parts of a word

The top of a word is as many of its bytes as a width has.  In memory these are the bytes at the
word's address, so a narrow access there takes or replaces the top of the word.
-/

namespace Cpu32

namespace Width

variable (w : Width)

/-- The bytes of a word below the top ones. -/
def rest : Nat := 4 - w.size

theorem size_add_rest : w.size + w.rest = 4 := by
  cases w <;> rfl

theorem toNat_top (word : UInt32) : (w.top word).toNat = word.toNat / Nat.pow 256 w.rest := by
  cases w with
  | byte =>
      rw [top, UInt32.toNat_shiftRight, Nat.shiftRight_eq_div_pow]
      rfl
  | half =>
      rw [top, UInt32.toNat_shiftRight, Nat.shiftRight_eq_div_pow]
      rfl
  | word => exact (Nat.div_one _).symm

/-- The low bits of one word beside those of another above them. -/
theorem toNat_beside (old value : UInt32) {k : Nat} (hk : k < 32) :
    ((old &&& UInt32.ofNat (Nat.pow 2 k - 1)) ||| (value <<< UInt32.ofNat k)).toNat =
      value.toNat % Nat.pow 2 (32 - k) * Nat.pow 2 k + old.toNat % Nat.pow 2 k := by
  have hpow : Nat.pow 2 k < 4294967296 := Nat.pow_lt_pow_right (by decide) hk
  have hmask : (UInt32.ofNat (Nat.pow 2 k - 1)).toNat = 2 ^ k - 1 :=
    UInt32.toNat_ofNat_of_lt' (Nat.lt_of_le_of_lt (Nat.sub_le _ 1) hpow)
  have hcount : (UInt32.ofNat k).toNat % 32 = k := by
    rw [UInt32.toNat_ofNat', Nat.mod_mod_of_dvd _ (by decide), Nat.mod_eq_of_lt hk]
  have hhigh : (value <<< UInt32.ofNat k).toNat = (value.toNat % 2 ^ (32 - k)) <<< k := by
    have hsplit : 2 ^ 32 = 2 ^ k * 2 ^ (32 - k) := by
      rw [← Nat.pow_add, Nat.add_sub_of_le (Nat.le_of_lt hk)]
    rw [UInt32.toNat_shiftLeft, hcount, Nat.shiftLeft_eq, Nat.shiftLeft_eq, hsplit,
      Nat.mul_comm value.toNat, Nat.mul_mod_mul_left, Nat.mul_comm]
  have hlow : old.toNat % 2 ^ k < 2 ^ k := Nat.mod_lt _ (Nat.two_pow_pos k)
  rw [UInt32.toNat_or, UInt32.toNat_and, hmask, hhigh, Nat.and_two_pow_sub_one_eq_mod, Nat.or_comm,
    ← Nat.shiftLeft_add_eq_or_of_lt hlow, Nat.shiftLeft_eq]
  rfl

theorem toNat_replaceTop (old value : UInt32) :
    (w.replaceTop old value).toNat =
      value.toNat % Nat.pow 256 w.size * Nat.pow 256 w.rest +
        old.toNat % Nat.pow 256 w.rest := by
  cases w with
  | byte => exact toNat_beside old value (k := 24) (by decide)
  | half => exact toNat_beside old value (k := 16) (by decide)
  | word =>
      have hvalue : value.toNat < 4294967296 := value.toNat_lt
      change value.toNat = value.toNat % 4294967296 * 1 + old.toNat % 1
      omega

/-- What was put in the top of a word is its top. -/
theorem top_replaceTop (old value : UInt32) : w.top (w.replaceTop old value) = w.narrow value := by
  apply UInt32.toNat_inj.mp
  have hpositive : 0 < Nat.pow 256 w.rest := Nat.pow_pos (by decide)
  have hbelow : old.toNat % Nat.pow 256 w.rest / Nat.pow 256 w.rest = 0 :=
    Nat.div_eq_of_lt (Nat.mod_lt _ hpositive)
  rw [toNat_top, toNat_replaceTop, Nat.mul_comm, Nat.mul_add_div hpositive, hbelow, toNat_narrow]
  cases w with
  | byte => rfl
  | half => rfl
  | word => exact Nat.mod_eq_of_lt value.toNat_lt

/-- Widening looks at the low bytes only. -/
theorem signExtend_narrow (value : UInt32) :
    w.signExtend (w.narrow value) = w.signExtend value := by
  cases w with
  | byte =>
      have hlow : (byte.narrow value).toUInt8 = value.toUInt8 := by
        apply UInt8.toNat_inj.mp
        rw [UInt32.toNat_toUInt8, UInt32.toNat_toUInt8, toNat_narrow, Nat.mod_mod]
      exact congrArg (·.toInt8.toInt32.toUInt32) hlow
  | half =>
      have hlow : (half.narrow value).toUInt16 = value.toUInt16 := by
        apply UInt16.toNat_inj.mp
        rw [UInt32.toNat_toUInt16, UInt32.toNat_toUInt16, toNat_narrow, Nat.mod_mod]
      exact congrArg (·.toInt16.toInt32.toUInt32) hlow
  | word => rfl

end Width

namespace Eager

variable {e e' : Eager} {address : UInt32}

theorem number_lt (e : Eager) (address : UInt32) (n : Nat) :
    e.number address n < Nat.pow 256 n := by
  induction n generalizing address with
  | zero => exact Nat.one_pos
  | succ n ih =>
      have hfirst : (e address).toNat < 256 := (e address).toNat_lt
      have hpower : Nat.pow 256 (n + 1) = 255 * Nat.pow 256 n + Nat.pow 256 n := by
        rw [← Nat.succ_mul]
        exact Nat.mul_comm ..
      have htop : (e address).toNat * Nat.pow 256 n ≤ 255 * Nat.pow 256 n :=
        Nat.mul_le_mul_right _ (Nat.le_of_lt_succ hfirst)
      have hlow := ih (address + 1)
      rw [number, hpower]
      omega

/-- The number that cells spell is made of those that their first ones and the others spell. -/
theorem number_add (e : Eager) (address : UInt32) (n k : Nat) :
    e.number address (n + k) =
      e.number address n * Nat.pow 256 k + e.number (address + UInt32.ofNat n) k := by
  induction n generalizing address with
  | zero => rw [Nat.zero_add, number, Nat.zero_mul, Nat.zero_add, Memory.address_zero]
  | succ n ih =>
      have hpower : Nat.pow 256 (n + k) = Nat.pow 256 n * Nat.pow 256 k := Nat.pow_add ..
      rw [Nat.add_right_comm, number, ih, hpower, number, Memory.address_succ, Nat.add_mul,
        Nat.mul_assoc, Nat.add_assoc]

theorem number_congr {n : Nat}
    (h : ∀ k < n, e (address + UInt32.ofNat k) = e' (address + UInt32.ofNat k)) :
    e.number address n = e'.number address n := by
  induction n generalizing address with
  | zero => rfl
  | succ n ih =>
      have hfirst := h 0 (Nat.succ_pos n)
      rw [Memory.address_zero] at hfirst
      rw [number, number, hfirst, ih]
      intro k hk
      rw [← Memory.address_succ]
      exact h (k + 1) (Nat.succ_lt_succ hk)

/-- Cells that hold the bytes of a value spell what is left of it in so many bytes. -/
theorem number_of_bytes {n : Nat} {value : Nat}
    (h : ∀ k < n, e (address + UInt32.ofNat k) =
      UInt8.ofNat (value / Nat.pow 256 (n - 1 - k))) :
    e.number address n = value % Nat.pow 256 n := by
  induction n generalizing address with
  | zero => exact (Nat.mod_one value).symm
  | succ n ih =>
      have hfirst := h 0 (Nat.succ_pos n)
      rw [Memory.address_zero] at hfirst
      have hrest : e.number (address + 1) n = value % Nat.pow 256 n := by
        apply ih
        intro k hk
        rw [← Memory.address_succ, h (k + 1) (Nat.succ_lt_succ hk)]
        congr 3
        omega
      have hpower : Nat.pow 256 (n + 1) = Nat.pow 256 n * 256 := rfl
      rw [number, hfirst, hrest, UInt8.toNat_ofNat', hpower, Nat.mod_mul, Nat.add_comm,
        Nat.mul_comm]
      rfl

variable (w : Width)

theorem number_write (value : UInt32) :
    (e.write w address value).number address w.size = value.toNat % Nat.pow 256 w.size := by
  apply number_of_bytes
  intro k hk
  have hsize := w.size_le
  have hdistance := Memory.toNat_distance address (k := k) (by simp only [UInt32.size]; omega)
  rw [write, hdistance, if_pos hk]

/-- Writing leaves the cells after the written ones alone. -/
theorem number_write_after (value : UInt32) :
    (e.write w address value).number (address + UInt32.ofNat w.size) w.rest =
      e.number (address + UInt32.ofNat w.size) w.rest := by
  apply number_congr
  intro k hk
  have hsize := w.size_add_rest
  have hsum : address + UInt32.ofNat w.size + UInt32.ofNat k =
      address + UInt32.ofNat (w.size + k) := by
    rw [UInt32.add_assoc, ← UInt32.ofNat_add]
  have hdistance := Memory.toNat_distance address (k := w.size + k)
    (by simp only [UInt32.size]; omega)
  rw [hsum, write, hdistance, if_neg (by omega)]

/-- The word in four cells. -/
theorem toNat_word (e : Eager) (address : UInt32) :
    (UInt32.ofNat (e.number address 4)).toNat =
      e.number address w.size * Nat.pow 256 w.rest +
        e.number (address + UInt32.ofNat w.size) w.rest := by
  have hlt := e.number_lt address 4
  rw [← number_add, w.size_add_rest]
  exact UInt32.toNat_ofNat_of_lt' hlt

/-- The first cells of a word hold its top. -/
theorem top_word (e : Eager) (address : UInt32) :
    w.top (UInt32.ofNat (e.number address 4)) = UInt32.ofNat (e.number address w.size) := by
  have hpositive : 0 < Nat.pow 256 w.rest := Nat.pow_pos (by decide)
  have hbelow := e.number_lt (address + UInt32.ofNat w.size) w.rest
  have hlt : e.number address w.size < UInt32.size :=
    Nat.lt_of_lt_of_le (e.number_lt address w.size)
      (Nat.pow_le_pow_right (by decide) w.size_le : Nat.pow 256 w.size ≤ Nat.pow 256 4)
  apply UInt32.toNat_inj.mp
  rw [w.toNat_top, toNat_word w, Nat.mul_comm, Nat.mul_add_div hpositive,
    Nat.div_eq_of_lt hbelow, Nat.add_zero, UInt32.toNat_ofNat_of_lt' hlt]

/-- Writing a value of some width replaces the top of the word. -/
theorem word_write (e : Eager) (address value : UInt32) :
    UInt32.ofNat ((e.write w address value).number address 4) =
      w.replaceTop (UInt32.ofNat (e.number address 4)) value := by
  have hbelow := e.number_lt (address + UInt32.ofNat w.size) w.rest
  apply UInt32.toNat_inj.mp
  rw [w.toNat_replaceTop, toNat_word w, toNat_word w, number_write, number_write_after,
    Nat.mul_add_mod_self_right, Nat.mod_eq_of_lt hbelow]

end Eager

namespace Memory

variable {m : Memory} {e : Eager} {address value : UInt32}

theorem Agrees.write (w : Width) (h : m.Agrees e) :
    (m.write w address value).Agrees (e.write w address value) := by
  intro x b hx
  have hcells : (m.write w address value).cells[x]? = _ :=
    cells_writeBytes (w.length_bytes_le value) x
  rw [Eager.write]
  by_cases hinside : (x - address).toNat < w.size
  · rw [hcells, w.getElem?_bytes value hinside, Option.some_or] at hx
    rw [if_pos hinside]
    exact Option.some.inj hx
  · have hnone : (w.bytes value)[(x - address).toNat]? = none :=
      List.getElem?_eq_none (by simpa using hinside)
    rw [hcells, hnone, Option.none_or] at hx
    rw [if_neg hinside]
    exact h x b hx

/-- What was written is read, and nothing is touched for it. -/
theorem read_write (m : Memory) (w : Width) (address value : UInt32) :
    (m.write w address value).read w address = (w.narrow value, m.write w address value) := by
  have hread := readBytes_of_holds (m := m.write w address value)
    (holds_writeBytes (w.length_bytes_le value))
  rw [w.length_bytes] at hread
  simp only [read, hread, w.ofBigEndian_bytes]

end Memory

end Cpu32
