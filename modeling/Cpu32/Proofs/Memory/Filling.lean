import Cpu32.Proofs.Memory.PartialWord

/-!
# Filling

A history of accesses touches cells one after the other.  The noise goes to the cells that are read
before anything else has touched them, one byte each and in this order, and nowhere else.
-/

namespace Cpu32

/-- Addresses that follow each other, around the top of the address space where they reach it. -/
def consecutive (address : UInt32) (n : Nat) : List UInt32 :=
  (List.range n).map fun k => address + UInt32.ofNat k

theorem consecutive_succ (address : UInt32) (n : Nat) :
    consecutive address (n + 1) = address :: consecutive (address + 1) n := by
  rw [consecutive, List.range_succ_eq_map, List.map_cons, List.map_map, Memory.address_zero]
  exact congrArg _ (List.map_congr_left fun k _ => Memory.address_succ address k)

theorem mem_consecutive {n : Nat} (hn : n ≤ UInt32.size) (address x : UInt32) :
    x ∈ consecutive address n ↔ (x - address).toNat < n := by
  induction n generalizing address with
  | zero => simp [consecutive]
  | succ n ih =>
      rw [consecutive_succ, List.mem_cons, ih (Nat.le_of_succ_le hn),
        Memory.sub_lt_succ_iff x address hn]

/-- One use of a cell, by reading it or by writing it. -/
structure Touch where
  address : UInt32
  reads : Bool
deriving DecidableEq, Repr

/-- The cells that an access uses, lowest offset first.  A load that does not fit uses none. -/
def Access.touches : Access → List Touch
  | .read w address => (consecutive address w.size).map (Touch.mk · true)
  | .write w address _ => (consecutive address w.size).map (Touch.mk · false)
  | .load base image =>
      if base.toNat + image.length ≤ UInt32.size then
        (consecutive base image.length).map (Touch.mk · false)
      else []

/-- The cells that are read before anything else has touched them, in the order in which they are
read. -/
def firstReads (touched : List UInt32) : List Touch → List UInt32
  | [] => []
  | touch :: rest =>
      if touch.reads ∧ touch.address ∉ touched then
        touch.address :: firstReads (touch.address :: touched) rest
      else firstReads (touch.address :: touched) rest

section FirstReads

variable {touched : List UInt32}

theorem firstReads_append (first second : List Touch) :
    firstReads touched (first ++ second) =
      firstReads touched first ++
        firstReads ((first.map Touch.address).reverse ++ touched) second := by
  induction first generalizing touched with
  | nil => rfl
  | cons touch rest ih =>
      rw [List.map_cons, List.reverse_cons, List.append_assoc, List.singleton_append]
      by_cases hfirst : touch.reads ∧ touch.address ∉ touched
      · simp only [List.cons_append, firstReads, if_pos hfirst, ih]
      · simp only [List.cons_append, firstReads, if_neg hfirst, ih]

theorem not_mem_of_mem_firstReads {touches : List Touch} {x : UInt32}
    (h : x ∈ firstReads touched touches) : x ∉ touched := by
  induction touches generalizing touched with
  | nil => cases h
  | cons touch rest ih =>
      rw [firstReads] at h
      split at h
      · rename_i hfirst
        rcases List.mem_cons.mp h with rfl | hrest
        · exact hfirst.2
        · exact fun hmem => ih hrest (List.mem_cons_of_mem _ hmem)
      · exact fun hmem => ih h (List.mem_cons_of_mem _ hmem)

/-- No cell is read first twice. -/
theorem nodup_firstReads (touches : List Touch) : (firstReads touched touches).Nodup := by
  induction touches generalizing touched with
  | nil => exact List.nodup_nil
  | cons touch rest ih =>
      rw [firstReads]
      split
      · apply List.nodup_cons.mpr
        exact ⟨fun hmem => not_mem_of_mem_firstReads hmem List.mem_cons_self, ih⟩
      · exact ih

theorem firstReads_of_touched {touches : List Touch}
    (h : ∀ touch ∈ touches, touch.reads → touch.address ∈ touched) :
    firstReads touched touches = [] := by
  induction touches generalizing touched with
  | nil => rfl
  | cons touch rest ih =>
      obtain ⟨hhead, hrest⟩ := List.forall_mem_cons.mp h
      have hlater : ¬ (touch.reads ∧ touch.address ∉ touched) := fun hfirst =>
        hfirst.2 (hhead hfirst.1)
      rw [firstReads, if_neg hlater]
      exact ih fun other hother hreads => List.mem_cons_of_mem _ (hrest other hother hreads)

end FirstReads

namespace Memory

variable {m : Memory} {e : Eager} {touched : List UInt32} {address : UInt32}

/-- These are the cells touched so far. -/
def HasTouched (m : Memory) (touched : List UInt32) : Prop :=
  ∀ x, x ∈ touched ↔ x ∈ m.cells

/-- Where cells are going to be read first, the eager memory holds the noise that they are going to
draw. -/
def Foreseen (m : Memory) (touched : List UInt32) (touches : List Touch) (e : Eager) : Prop :=
  ∀ k x, (firstReads touched touches)[k]? = some x → e x = m.noise (m.drawn + k)

theorem hasTouched_keys (m : Memory) : m.HasTouched m.cells.keys :=
  fun _ => Std.ExtTreeMap.mem_keys

section ReadBytes

theorem HasTouched.readCell (h : m.HasTouched touched) (address : UInt32) :
    (m.readCell address).2.HasTouched (address :: touched) := by
  intro x
  rw [mem_cells_readCell, List.mem_cons, h x, or_comm]

theorem readCell_of_mem (h : m.HasTouched touched) (hmem : address ∈ touched) :
    (m.readCell address).2 = m := by
  have hcell := (h address).mp hmem
  rw [Std.ExtTreeMap.mem_iff_isSome_getElem?] at hcell
  obtain ⟨b, hb⟩ := Option.isSome_iff_exists.mp hcell
  rw [readCell_of_eq_some hb]

theorem readCell_of_not_mem (h : m.HasTouched touched) (hmem : address ∉ touched) :
    m.readCell address = (m.noise m.drawn,
      { m with cells := m.cells.insert address (m.noise m.drawn), drawn := m.drawn + 1 }) := by
  have hcell : address ∉ m.cells := fun hin => hmem ((h address).mpr hin)
  rw [readCell, Std.ExtTreeMap.getElem?_eq_none hcell]

theorem noise_readCell (m : Memory) (address : UInt32) :
    (m.readCell address).2.noise = m.noise := by
  rw [readCell]
  cases m.cells[address]? <;> rfl

theorem noise_readBytes (m : Memory) (address : UInt32) (n : Nat) :
    (m.readBytes address n).2.noise = m.noise := by
  induction n generalizing m address with
  | zero => rfl
  | succ n ih => exact (ih _ _).trans (m.noise_readCell address)

/-- Reading draws a byte for each cell that nothing has touched. -/
theorem drawn_readBytes (h : m.HasTouched touched) (address : UInt32) (n : Nat) :
    (m.readBytes address n).2.drawn =
      m.drawn + (firstReads touched ((consecutive address n).map (Touch.mk · true))).length := by
  induction n generalizing m address touched with
  | zero => rfl
  | succ n ih =>
      have hrest : ((m.readCell address).2.readBytes (address + 1) n).2.drawn = _ :=
        ih (h.readCell address) (address + 1)
      rw [consecutive_succ, List.map_cons, firstReads]
      by_cases hmem : address ∈ touched
      · rw [if_neg fun hfirst => hfirst.2 hmem]
        rw [readCell_of_mem h hmem] at hrest
        simp only [readBytes, readCell_of_mem h hmem, hrest]
      · rw [if_pos ⟨rfl, hmem⟩, List.length_cons]
        simp only [readCell_of_not_mem h hmem] at hrest
        simp only [readBytes, readCell_of_not_mem h hmem, hrest]
        omega

/-- What is foreseen of a read comes to be held. -/
theorem Agrees.readBytes (hagrees : m.Agrees e) (h : m.HasTouched touched) {n : Nat}
    (hforeseen : m.Foreseen touched ((consecutive address n).map (Touch.mk · true)) e) :
    (m.readBytes address n).2.Agrees e := by
  induction n generalizing m address touched with
  | zero => exact hagrees
  | succ n ih =>
      rw [consecutive_succ, List.map_cons, Foreseen, firstReads] at hforeseen
      have hrest := h.readCell address
      by_cases hmem : address ∈ touched
      · rw [if_neg fun hfirst => hfirst.2 hmem] at hforeseen
        rw [readCell_of_mem h hmem] at hrest
        simp only [Memory.readBytes, readCell_of_mem h hmem]
        exact ih hagrees hrest hforeseen
      · rw [if_pos ⟨rfl, hmem⟩] at hforeseen
        simp only [readCell_of_not_mem h hmem] at hrest
        simp only [Memory.readBytes, readCell_of_not_mem h hmem]
        apply ih _ hrest
        · intro k x hx
          have hdrawn := hforeseen (k + 1) x hx
          rwa [← Nat.add_assoc, Nat.add_right_comm] at hdrawn
        · intro x b hx
          rw [Std.ExtTreeMap.getElem?_insert] at hx
          split at hx
          · rename_i heq
            cases hx
            obtain rfl := Std.LawfulEqCmp.eq_of_compare heq
            exact hforeseen 0 _ rfl
          · exact hagrees x b hx

end ReadBytes

section Size

theorem size_le_readCell (m : Memory) (address : UInt32) :
    m.size ≤ (m.readCell address).2.size := by
  rw [readCell]
  cases m.cells[address]? with
  | some b => exact Nat.le_refl _
  | none => exact Std.ExtTreeMap.size_le_size_insert

theorem size_le_readBytes (m : Memory) (address : UInt32) (n : Nat) :
    m.size ≤ (m.readBytes address n).2.size := by
  induction n generalizing m address with
  | zero => exact Nat.le_refl _
  | succ n ih => exact Nat.le_trans (m.size_le_readCell address) (ih _ _)

theorem size_le_writeBytes (m : Memory) (address : UInt32) (bytes : List UInt8) :
    m.size ≤ (m.writeBytes address bytes).size := by
  induction bytes generalizing m address with
  | nil => exact Nat.le_refl _
  | cons b rest ih =>
      have hfirst : m.size ≤ (m.writeCell address b).size := Std.ExtTreeMap.size_le_size_insert
      exact Nat.le_trans hfirst (ih (m.writeCell address b) (address + 1))

end Size

theorem Agrees.place {base : UInt32} {image : List UInt8} (hagrees : m.Agrees e)
    (hfit : base.toNat + image.length ≤ UInt32.size) :
    (m.writeBytes base image).Agrees (e.place base image) := by
  intro x b hx
  rw [cells_writeBytes (by omega), getElem?_image hfit] at hx
  rw [Eager.place]
  by_cases hbase : base ≤ x
  · rw [if_pos hbase] at hx ⊢
    cases hbyte : image[x.toNat - base.toNat]? with
    | some c =>
        rw [hbyte, Option.some_or] at hx
        exact Option.some.inj hx
    | none =>
        rw [hbyte, Option.none_or] at hx
        exact hagrees x b hx
  · rw [if_neg hbase, Option.none_or] at hx
    rw [if_neg hbase]
    exact hagrees x b hx

end Memory

namespace Access

variable (access : Access)

/-- The cells that an access uses. -/
def cells : List UInt32 := access.touches.map Touch.address

theorem map_address (address : UInt32) (n : Nat) (reads : Bool) :
    ((consecutive address n).map (Touch.mk · reads)).map Touch.address =
      consecutive address n := by
  rw [List.map_map]
  exact List.map_id _

theorem mem_cells_of_width (w : Width) (address x : UInt32) (reads : Bool) :
    x ∈ ((consecutive address w.size).map (Touch.mk · reads)).map Touch.address ↔
      (x - address).toNat < w.size := by
  have hsize := w.size_le
  rw [map_address, mem_consecutive (by simp only [UInt32.size]; omega)]

theorem mem_cells_load {base : UInt32} {image : List UInt8}
    (hfit : base.toNat + image.length ≤ UInt32.size) (x : UInt32) :
    x ∈ (load base image).cells ↔ (x - base).toNat < image.length := by
  rw [cells, touches, if_pos hfit, map_address, mem_consecutive (by omega)]

theorem touches_load_of_overflow {base : UInt32} {image : List UInt8}
    (hover : UInt32.size < base.toNat + image.length) : (load base image).touches = [] :=
  if_neg (Nat.not_le.mpr hover)

end Access

namespace Memory

variable {m : Memory} {e : Eager} {touched : List UInt32} {access : Access}

theorem size_le_answer (access : Access) (m : Memory) : m.size ≤ (answer access m).2.size := by
  cases access with
  | read w address => exact m.size_le_readBytes address w.size
  | write w address value => exact m.size_le_writeBytes address _
  | load base image =>
      by_cases hover : UInt32.size < base.toNat + image.length
      · have hkept : (answer (.load base image) m).2 = m := by
          rw [answer_load_of_overflow hover]
        exact Nat.le_of_eq (congrArg size hkept.symm)
      · rw [answer_load_of_fits (Nat.le_of_not_lt hover)]
        exact m.size_le_writeBytes base image

theorem noise_answer (access : Access) (m : Memory) : (answer access m).2.noise = m.noise := by
  cases access with
  | read w address => exact m.noise_readBytes address w.size
  | write w address value => exact noise_writeBytes address _
  | load base image =>
      by_cases hover : UInt32.size < base.toNat + image.length
      · rw [answer_load_of_overflow hover]
      · rw [answer_load_of_fits (Nat.le_of_not_lt hover)]
        exact noise_writeBytes base image

/-- An access touches the cells that it uses and no others. -/
theorem mem_cells_answer (access : Access) (m : Memory) (x : UInt32) :
    x ∈ (answer access m).2.cells ↔ x ∈ m.cells ∨ x ∈ access.cells := by
  cases access with
  | read w address =>
      have hsize := w.size_le
      rw [Access.cells, Access.touches, Access.mem_cells_of_width]
      exact mem_cells_readBytes (by simp only [UInt32.size]; omega) x
  | write w address value =>
      have hcells : x ∈ (m.write w address value).cells ↔ _ :=
        mem_cells_writeBytes (w.length_bytes_le value) x
      rw [w.length_bytes] at hcells
      rw [Access.cells, Access.touches, Access.mem_cells_of_width]
      exact hcells
  | load base image =>
      by_cases hover : UInt32.size < base.toNat + image.length
      · rw [answer_load_of_overflow hover, Access.cells, Access.touches_load_of_overflow hover]
        simp
      · have hfit := Nat.le_of_not_lt hover
        rw [answer_load_of_fits hfit, Access.mem_cells_load hfit]
        exact mem_cells_writeBytes (by omega) x

theorem HasTouched.answer (h : m.HasTouched touched) (access : Access) :
    (answer access m).2.HasTouched (access.cells.reverse ++ touched) := by
  intro x
  rw [mem_cells_answer, List.mem_append, List.mem_reverse, h x, or_comm]

/-- Writing reads nothing first. -/
theorem firstReads_writes (touched addresses : List UInt32) :
    firstReads touched (addresses.map (Touch.mk · false)) = [] := by
  apply firstReads_of_touched
  intro touch htouch hreads
  obtain ⟨address, -, rfl⟩ := List.mem_map.mp htouch
  cases hreads

/-- An access draws a byte for each cell that it reads first. -/
theorem drawn_answer (h : m.HasTouched touched) (access : Access) :
    (answer access m).2.drawn = m.drawn + (firstReads touched access.touches).length := by
  cases access with
  | read w address => exact drawn_readBytes h address w.size
  | write w address value =>
      rw [Access.touches, firstReads_writes]
      exact drawn_writeBytes address _
  | load base image =>
      by_cases hover : UInt32.size < base.toNat + image.length
      · rw [answer_load_of_overflow hover, Access.touches_load_of_overflow hover]
        rfl
      · have hfit := Nat.le_of_not_lt hover
        rw [answer_load_of_fits hfit, Access.touches, if_pos hfit, firstReads_writes]
        exact drawn_writeBytes base image

/-- An access answers like one of an eager memory that holds what is foreseen of it. -/
theorem answer_of_foreseen (hagrees : m.Agrees e) (h : m.HasTouched touched)
    (hforeseen : m.Foreseen touched access.touches e) :
    (answer access m).1 = (Eager.answer access e).1 ∧
      (answer access m).2.Agrees (Eager.answer access e).2 := by
  cases access with
  | read w address =>
      have hafter : (answer (.read w address) m).2.Agrees e := hagrees.readBytes h hforeseen
      have hread := answer_read hafter
      rw [before_of_agrees hagrees] at hread
      rw [hread]
      exact ⟨rfl, hafter⟩
  | write w address value => exact ⟨rfl, hagrees.write w⟩
  | load base image =>
      by_cases hover : UInt32.size < base.toNat + image.length
      · rw [answer_load_of_overflow hover, Eager.answer, if_pos hover]
        exact ⟨rfl, hagrees⟩
      · have hfit := Nat.le_of_not_lt hover
        rw [answer_load_of_fits hfit, Eager.answer, if_neg hover]
        exact ⟨rfl, hagrees.place hfit⟩

end Memory

namespace Eager

/-- An access changes no cell that it does not use. -/
theorem answer_of_not_mem {access : Access} {x : UInt32} (e : Eager) (h : x ∉ access.cells) :
    (answer access e).2 x = e x := by
  cases access with
  | read w address => rfl
  | write w address value =>
      rw [Access.cells, Access.touches, Access.mem_cells_of_width] at h
      exact if_neg h
  | load base image =>
      rw [answer]
      split
      · rfl
      · have hfit := Nat.le_of_not_lt ‹_›
        have hbyte := Memory.getElem?_image hfit x
        rw [Access.mem_cells_load hfit, Nat.not_lt] at h
        rw [List.getElem?_eq_none h] at hbyte
        change e.place base image x = e x
        rw [place]
        split
        · rw [if_pos ‹_›] at hbyte
          rw [← hbyte, Option.getD_none]
        · rfl

end Eager

namespace Memory

variable {m : Memory} {e : Eager} {touched : List UInt32} {access : Access}

/-- What is foreseen of an access and of what comes after it. -/
theorem Foreseen.of_append {later : List Touch} (h : m.HasTouched touched)
    (hforeseen : m.Foreseen touched (access.touches ++ later) e) :
    m.Foreseen touched access.touches e ∧
      (answer access m).2.Foreseen (access.cells.reverse ++ touched) later
        (Eager.answer access e).2 := by
  rw [Foreseen, firstReads_append] at hforeseen
  constructor
  · intro k x hx
    have hk := (List.getElem?_eq_some_iff.mp hx).1
    exact hforeseen k x ((List.getElem?_append_left hk).trans hx)
  · intro k x hx
    have hnew := not_mem_of_mem_firstReads (List.mem_of_getElem? hx)
    have hunused : x ∉ access.cells := fun hmem =>
      hnew (List.mem_append_left _ (List.mem_reverse.mpr hmem))
    rw [Eager.answer_of_not_mem e hunused, noise_answer, drawn_answer h, Nat.add_assoc]
    apply hforeseen
    rw [List.getElem?_append_right (Nat.le_add_right ..), Nat.add_sub_cancel_left]
    exact hx

section Serve

variable {accesses : List Access}

theorem mem_cells_serve (accesses : List Access) (m : Memory) (x : UInt32) :
    x ∈ (Access.serve answer accesses m).2.cells ↔
      x ∈ m.cells ∨ ∃ access ∈ accesses, x ∈ access.cells := by
  induction accesses generalizing m with
  | nil => simp [Access.serve]
  | cons access rest ih =>
      have hrest := ih (answer access m).2
      rw [mem_cells_answer, or_assoc] at hrest
      simp only [List.mem_cons, exists_eq_or_imp]
      exact hrest

theorem drawn_serve (h : m.HasTouched touched) (accesses : List Access) :
    (Access.serve answer accesses m).2.drawn =
      m.drawn + (firstReads touched (accesses.flatMap Access.touches)).length := by
  induction accesses generalizing m touched with
  | nil => rfl
  | cons access rest ih =>
      have hrest := ih (h.answer access)
      rw [drawn_answer h, Nat.add_assoc] at hrest
      rw [List.flatMap_cons, firstReads_append, List.length_append]
      exact hrest

theorem serve_of_foreseen (hagrees : m.Agrees e) (h : m.HasTouched touched)
    (hforeseen : m.Foreseen touched (accesses.flatMap Access.touches) e) :
    (Access.serve answer accesses m).1 = (Access.serve Eager.answer accesses e).1 ∧
      (Access.serve answer accesses m).2.Agrees (Access.serve Eager.answer accesses e).2 := by
  induction accesses generalizing m e touched with
  | nil => exact ⟨rfl, hagrees⟩
  | cons access rest ih =>
      rw [List.flatMap_cons] at hforeseen
      obtain ⟨hfirst, hlater⟩ := hforeseen.of_append h
      obtain ⟨hreply, hafter⟩ := answer_of_foreseen hagrees h hfirst
      obtain ⟨hreplies, hend⟩ := ih hafter (h.answer access) hlater
      exact ⟨congr (congrArg _ hreply) hreplies, hend⟩

end Serve

/-- The fill discipline of a memory that starts with no cell touched.  The touched cells are those
that were used.  As many bytes of the noise are drawn as cells were read before anything else
touched them, and these cells held the bytes from the beginning, in the order of the reads.  An
access makes no cell untouched, and draws nothing if the cells that it reads are touched already. -/
theorem noise_fills_first_reads (noise : Nat → UInt8) (accesses : List Access) :
    let (replies, m) := Access.serve answer accesses (fresh noise)
    let reads := firstReads [] (accesses.flatMap Access.touches)
    (∀ x, x ∈ m.cells ↔ ∃ access ∈ accesses, x ∈ access.cells) ∧
      m.drawn = reads.length ∧ reads.Nodup ∧
      (∀ initial : Eager, (∀ k x, reads[k]? = some x → initial x = noise k) →
        replies = (Access.serve Eager.answer accesses initial).1 ∧
          m.Agrees (Access.serve Eager.answer accesses initial).2) ∧
      ∀ access, m.size ≤ (answer access m).2.size ∧
        ((∀ touch ∈ access.touches, touch.reads → touch.address ∈ m.cells) →
          (answer access m).2.drawn = m.drawn) := by
  have hempty (x : UInt32) : x ∉ (fresh noise).cells := Std.ExtTreeMap.not_mem_empty
  have htouched : (fresh noise).HasTouched [] := fun x =>
    iff_of_false List.not_mem_nil (hempty x)
  have hmem (x : UInt32) := mem_cells_serve accesses (fresh noise) x
  have hdrawn := drawn_serve htouched accesses
  rw [show (fresh noise).drawn = 0 from rfl, Nat.zero_add] at hdrawn
  refine ⟨fun x => (hmem x).trans (or_iff_right (hempty x)), hdrawn,
    nodup_firstReads _, ?_, ?_⟩
  · intro initial hinitial
    apply serve_of_foreseen _ htouched
    · intro k x hx
      rw [hinitial k x hx, show (fresh noise).drawn + k = k from Nat.zero_add k]
      rfl
    · intro x b hx
      exact absurd (Std.ExtTreeMap.mem_iff_isSome_getElem?.mpr (by simp [hx])) (hempty x)
  · intro access
    refine ⟨size_le_answer access _, fun hread => ?_⟩
    have hkeys : HasTouched _ _ := hasTouched_keys (Access.serve answer accesses (fresh noise)).2
    rw [drawn_answer hkeys, firstReads_of_touched, List.length_nil, Nat.add_zero]
    exact fun touch htouch hreads => (hkeys _).mpr (hread touch htouch hreads)

/-- A word around the top of the address space whose middle bytes were written before: only its two
ends draw noise, and a load that does not fit and a second read draw none. -/
theorem noise_fills_first_reads_partly :
    let noise (k : Nat) : UInt8 := 0xA0 + UInt8.ofNat k
    let (replies, m) := Access.serve answer
      [.write .half 0xFFFFFFFF 0x1122, .load 0xFFFFFFFF [3, 4], .read .word 0xFFFFFFFE,
        .read .half 0] (fresh noise)
    replies = [.done, .refused ⟨0xFFFFFFFF, 2⟩, .value 0xA01122A1, .value 0x22A1] ∧
      m.drawn = 2 ∧ 0x00000001 ∈ m.cells ∧ 0x00000002 ∉ m.cells ∧
      (answer (.write .word 7 0) m).2.drawn = m.drawn := by
  intro noise
  have hfills := noise_fills_first_reads noise
    [.write .half 0xFFFFFFFF 0x1122, .load 0xFFFFFFFF [3, 4], .read .word 0xFFFFFFFE, .read .half 0]
  generalize Access.serve answer _ (fresh noise) = served at hfills ⊢
  obtain ⟨replies, m⟩ := served
  obtain ⟨hcells, hdrawn, -, hreplies, hnext⟩ := hfills
  have hinitial (k : Nat) (x : UInt32) (h : [0xFFFFFFFE, 0x00000001][k]? = some x) :
      (if x = 0xFFFFFFFE then 0xA0 else 0xA1) = noise k := by
    match k with
    | 0 | 1 =>
        cases h
        rfl
    | k + 2 => cases h
  have hvalues := (hreplies (fun x => if x = 0xFFFFFFFE then 0xA0 else 0xA1) hinitial).1
  refine ⟨hvalues.trans (by decide), hdrawn, (hcells _).mpr (by decide), ?_,
    (hnext (.write .word 7 0)).2 (by simp [Access.touches])⟩
  rw [hcells]
  decide

end Memory

end Cpu32
