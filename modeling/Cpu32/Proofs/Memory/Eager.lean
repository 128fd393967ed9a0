import Cpu32.Proofs.Codec.BigEndian
import Cpu32.Proofs.Memory

/-!
# Eager memory

A memory that fills its cells when they are first read answers like one whose every cell holds a
byte from the beginning.  That beginning is found from the end of a history backwards: before an
access, an untouched cell held what it holds after the access.
-/

namespace Cpu32

/-- One use of a memory. -/
inductive Access
  | read (w : Width) (address : UInt32)
  | write (w : Width) (address value : UInt32)
  | load (base : UInt32) (image : List UInt8)
deriving DecidableEq, Repr

/-- What an access returns. -/
inductive Reply
  | value (word : UInt32)
  | done
  | refused (cause : Memory.Overflow)
deriving DecidableEq, Repr

/-- The replies of a memory to some accesses, and what becomes of it. -/
def Access.serve {σ : Type} (answer : Access → σ → Reply × σ) : List Access → σ → List Reply × σ
  | [], s => ([], s)
  | access :: rest, s =>
      let (reply, s) := answer access s
      let (replies, s) := serve answer rest s
      (reply :: replies, s)

/-- A memory whose every cell holds a byte. -/
abbrev Eager := UInt32 → UInt8

namespace Eager

/-- The number that `n` cells from an address on spell, the most significant byte first. -/
def number (e : Eager) (address : UInt32) : Nat → Nat
  | 0 => 0
  | n + 1 => (e address).toNat * Nat.pow 256 n + e.number (address + 1) n

/-- Changes the cells at distances below the size of the width, around the top of the address space
where they reach it. -/
def write (e : Eager) (w : Width) (address value : UInt32) : Eager := fun x =>
  if (x - address).toNat < w.size then
    UInt8.ofNat (value.toNat / Nat.pow 256 (w.size - 1 - (x - address).toNat))
  else e x

/-- Changes the cells from the base on as far as the image reaches. -/
def place (e : Eager) (base : UInt32) (image : List UInt8) : Eager := fun x =>
  if base ≤ x then image[x.toNat - base.toNat]?.getD (e x) else e x

def answer : Access → Eager → Reply × Eager
  | .read w address, e => (.value (UInt32.ofNat (e.number address w.size)), e)
  | .write w address value, e => (.done, e.write w address value)
  | .load base image, e =>
      if UInt32.size < base.toNat + image.length then (.refused ⟨base, image.length⟩, e)
      else (.done, e.place base image)

end Eager

namespace Memory

def answer : Access → Memory → Reply × Memory
  | .read w address, m =>
      let (word, m) := m.read w address
      (.value word, m)
  | .write w address value, m => (.done, m.write w address value)
  | .load base image, m =>
      match m.load base image with
      | .ok m => (.done, m)
      | .error cause => (.refused cause, m)

/-- Every touched cell holds what it holds in the eager memory. -/
def Agrees (m : Memory) (e : Eager) : Prop :=
  ∀ x b, m.cells[x]? = some b → e x = b

/-- The touched cells, and a later memory where none is touched yet. -/
def before (m : Memory) (later : Eager) : Eager :=
  fun x => m.cells[x]?.getD (later x)

variable {m : Memory} {e : Eager}

theorem agrees_before (m : Memory) (later : Eager) : m.Agrees (m.before later) := by
  intro x b hx
  rw [before, hx, Option.getD_some]

theorem before_of_agrees (h : m.Agrees e) : m.before e = e := by
  funext x
  rw [before]
  cases hx : m.cells[x]? with
  | none => rfl
  | some b => exact (h x b hx).symm

/-- What agrees after bytes were read agreed before. -/
theorem Agrees.of_readBytes {address : UInt32} {n : Nat} (h : (m.readBytes address n).2.Agrees e) :
    m.Agrees e :=
  fun x b hx => h x b (cells_readBytes n hx)

/-- Bytes are read as they are in a memory that agrees afterwards. -/
theorem foldl_readBytes {address : UInt32} {n : Nat} (h : (m.readBytes address n).2.Agrees e)
    (word : Nat) :
    (m.readBytes address n).1.foldl (fun n b => n * 256 + b.toNat) word =
      word * Nat.pow 256 n + e.number address n := by
  induction n generalizing m address word with
  | zero => exact (Nat.mul_one word).symm
  | succ n ih =>
      have hfirst : e address = (m.readCell address).1 :=
        h address _ (cells_readBytes n (m.cells_readCell_self address))
      have hrest : ((m.readCell address).2.readBytes (address + 1) n).1.foldl _ _ = _ :=
        ih h (word * 256 + (m.readCell address).1.toNat)
      rw [readBytes, List.foldl_cons, Eager.number, hfirst]
      have hpower : Nat.pow 256 (n + 1) = 256 * Nat.pow 256 n := Nat.mul_comm ..
      rw [hpower, ← Nat.mul_assoc, ← Nat.add_assoc, ← Nat.add_mul]
      exact hrest

theorem read_eq_ofNat {w : Width} {address : UInt32} (h : (m.read w address).2.Agrees e) :
    (m.read w address).1 = UInt32.ofNat (e.number address w.size) := by
  have hvalue := foldl_readBytes h 0
  rw [Nat.zero_mul, Nat.zero_add] at hvalue
  rw [← hvalue]
  exact ofBigEndian_eq_ofNat _

theorem answer_read {w : Width} {address : UInt32}
    (h : (answer (.read w address) m).2.Agrees e) :
    Eager.answer (.read w address) (m.before e) =
      ((answer (.read w address) m).1, e) := by
  have hvalue : (m.read w address).1 = _ := read_eq_ofNat h
  rw [before_of_agrees h.of_readBytes, Eager.answer, ← hvalue]
  rfl

/-- The effect of writing bytes, seen from a memory that agrees afterwards. -/
theorem before_of_writeBytes {address : UInt32} {bytes : List UInt8}
    (hfit : bytes.length ≤ UInt32.size) (h : (m.writeBytes address bytes).Agrees e) (x : UInt32) :
    e x = bytes[(x - address).toNat]?.getD (m.before e x) := by
  have hcells : (m.writeBytes address bytes).cells[x]? = _ := cells_writeBytes hfit x
  rw [before]
  cases hbyte : bytes[(x - address).toNat]? with
  | some b =>
      rw [hbyte, Option.some_or] at hcells
      exact h x b hcells
  | none =>
      rw [hbyte, Option.none_or] at hcells
      cases hold : m.cells[x]? with
      | some b => exact h x b (hcells.trans hold)
      | none => rfl

theorem write_before {w : Width} {address value : UInt32}
    (h : (m.write w address value).Agrees e) : (m.before e).write w address value = e := by
  funext x
  rw [before_of_writeBytes (w.length_bytes_le value) h x, Eager.write]
  by_cases hx : (x - address).toNat < w.size
  · rw [if_pos hx, w.getElem?_bytes value hx, Option.getD_some]
  · rw [if_neg hx, List.getElem?_eq_none (by simpa using hx), Option.getD_none]

/-- A cell at or above the base lies at the distance of their numbers; one below it lies beyond
every image that fits. -/
theorem getElem?_image {base : UInt32} {image : List UInt8}
    (hfit : base.toNat + image.length ≤ UInt32.size) (x : UInt32) :
    image[(x - base).toNat]? = if base ≤ x then image[x.toNat - base.toNat]? else none := by
  by_cases hx : base ≤ x
  · rw [if_pos hx, UInt32.toNat_sub_of_le x base hx]
  · have hlt : x.toNat < base.toNat := Nat.lt_of_not_le hx
    have hbase := base.toNat_lt
    rw [if_neg hx]
    apply List.getElem?_eq_none
    rw [UInt32.toNat_sub]
    simp only [UInt32.size] at hfit
    omega

theorem place_before {base : UInt32} {image : List UInt8}
    (hfit : base.toNat + image.length ≤ UInt32.size) (h : (m.writeBytes base image).Agrees e) :
    (m.before e).place base image = e := by
  funext x
  rw [before_of_writeBytes (by omega) h x, getElem?_image hfit, Eager.place]
  by_cases hx : base ≤ x
  · rw [if_pos hx, if_pos hx]
  · rw [if_neg hx, if_neg hx, Option.getD_none]

theorem answer_load_of_fits {base : UInt32} {image : List UInt8}
    (hfit : base.toNat + image.length ≤ UInt32.size) (m : Memory) :
    answer (.load base image) m = (.done, m.writeBytes base image) := by
  simp only [answer, load_of_fits hfit]

theorem answer_load_of_overflow {base : UInt32} {image : List UInt8}
    (hover : UInt32.size < base.toNat + image.length) (m : Memory) :
    answer (.load base image) m = (.refused ⟨base, image.length⟩, m) := by
  simp only [answer, load, if_neg (Nat.not_le.mpr hover)]

theorem answer_load {base : UInt32} {image : List UInt8}
    (h : (answer (.load base image) m).2.Agrees e) :
    Eager.answer (.load base image) (m.before e) =
      ((answer (.load base image) m).1, e) := by
  by_cases hover : UInt32.size < base.toNat + image.length
  · rw [answer_load_of_overflow hover] at h ⊢
    rw [Eager.answer, if_pos hover, before_of_agrees h]
  · have hfit := Nat.le_of_not_lt hover
    rw [answer_load_of_fits hfit] at h ⊢
    rw [Eager.answer, if_neg hover, place_before hfit h]

/-- An access answers like one of the eager memory that the cells then untouched are taken from. -/
theorem answer_before (access : Access) (h : (answer access m).2.Agrees e) :
    Eager.answer access (m.before e) = ((answer access m).1, e) := by
  cases access with
  | read w address => exact answer_read h
  | write w address value => exact congrArg (Prod.mk _) (write_before h)
  | load base image => exact answer_load h

/-- What every cell holds before some accesses. -/
def origin : List Access → Memory → Eager
  | [], m => m.before fun _ => 0
  | access :: rest, m => m.before (origin rest (answer access m).2)

theorem agrees_origin (accesses : List Access) (m : Memory) : m.Agrees (origin accesses m) := by
  cases accesses with
  | nil => exact m.agrees_before _
  | cons access rest => exact m.agrees_before _

theorem serve_origin (accesses : List Access) (m : Memory) :
    (Access.serve Eager.answer accesses (origin accesses m)).1 =
        (Access.serve answer accesses m).1 ∧
      (Access.serve answer accesses m).2.Agrees
        (Access.serve Eager.answer accesses (origin accesses m)).2 := by
  induction accesses generalizing m with
  | nil => exact ⟨rfl, m.agrees_before _⟩
  | cons access rest ih =>
      obtain ⟨hreplies, hagrees⟩ := ih (answer access m).2
      have hfirst := answer_before access (agrees_origin rest (answer access m).2)
      simp only [Access.serve, origin, hfirst]
      exact ⟨congrArg _ hreplies, hagrees⟩

/-- Whatever the noise, a memory replies to accesses as if every cell had held a byte from the
beginning, and every cell it has touched holds what it then would.  A load changes exactly the cells
of its image, none of them around the top of the address space; where it would reach past the top it
is refused, and nothing changes. -/
theorem serve_as_eager (noise : Nat → UInt8) (accesses : List Access) :
    let (replies, m) := Access.serve answer accesses (fresh noise)
    (∃ initial : Eager,
      replies = (Access.serve Eager.answer accesses initial).1 ∧
      m.Agrees (Access.serve Eager.answer accesses initial).2) ∧
    ∀ base image,
      (UInt32.size < base.toNat + image.length ∧
        answer (.load base image) m = (.refused ⟨base, image.length⟩, m)) ∨
      (base.toNat + image.length ≤ UInt32.size ∧
        ∃ loaded, answer (.load base image) m = (.done, loaded) ∧
          ∀ x : UInt32, loaded.cells[x]? =
            (if base ≤ x then image[x.toNat - base.toNat]? else none).or m.cells[x]?) := by
  obtain ⟨hreplies, hagrees⟩ := serve_origin accesses (fresh noise)
  refine ⟨⟨origin accesses (fresh noise), hreplies.symm, hagrees⟩, ?_⟩
  intro base image
  by_cases hover : UInt32.size < base.toNat + image.length
  · exact .inl ⟨hover, answer_load_of_overflow hover _⟩
  · have hfit := Nat.le_of_not_lt hover
    refine .inr ⟨hfit, _, answer_load_of_fits hfit _, ?_⟩
    intro x
    rw [cells_writeBytes (by omega), getElem?_image hfit]

example : (Access.serve answer [.write .word 0xFFFFFFFE 0x01020304, .read .half 0]
    (fresh fun _ => 0)).1 = [.done, .value 0x0304] := by
  decide

end Memory

end Cpu32
