import Cpu32.Proofs.Machine.Locality

/-!
# Decoding from memory

An operand at the program counter is decoded as from the list of the bytes there.  That the bytes
of a trailing value are fetched one by one from memory, and all at once from a list, makes no
difference.
-/

namespace Cpu32

namespace SliceM

/-- Bytes are gathered from the front of a list, and what follows them is left. -/
theorem gather_append (bytes rest : List UInt8) (word : UInt32) :
    gather next bytes.length word (bytes ++ rest) =
      .ok (bytes.foldl (fun word b => (word <<< 8) ||| b.toUInt32) word) rest := by
  induction bytes generalizing word with
  | nil => rfl
  | cons b tail ih =>
      have hfirst : next (b :: (tail ++ rest)) = .ok b (tail ++ rest) := rfl
      rw [List.cons_append, List.length_cons, gather, bind_of_ok hfirst, ih, List.foldl_cons]

theorem trailing_of_le {w : Width} {bytes : List UInt8} (h : w.size ≤ bytes.length) :
    trailing w bytes = .ok (ofBigEndian (bytes.take w.size)) (bytes.drop w.size) :=
  if_neg (Nat.not_lt.mpr h)

/-- A value that is there in full is the same byte by byte and all at once. -/
theorem gather_of_le {w : Width} {bytes : List UInt8} (h : w.size ≤ bytes.length) :
    gather next w.size 0 bytes =
      .ok (ofBigEndian (bytes.take w.size)) (bytes.drop w.size) := by
  have hgather := gather_append (bytes.take w.size) (bytes.drop w.size) 0
  rw [List.take_append_drop, List.length_take_of_le h] at hgather
  exact hgather

end SliceM

namespace ModRM

/-- No operand takes more than five bytes. -/
theorem exists_decode {bytes : List UInt8} (h : 5 ≤ bytes.length) :
    ∃ d rest, (decode : SliceM ModRM) bytes = .ok d rest := by
  cases hdecode : (decode : SliceM ModRM) bytes with
  | ok d rest => exact ⟨d, rest, rfl⟩
  | error e rest =>
      rcases (decode_eq_error_iff e bytes rest).mp hdecode with
        ⟨rfl, _⟩ | ⟨_, w, _, _, hshort, _⟩
      · simp at h
      · have hsize := w.size_le
        omega

end ModRM

namespace Machine

variable (m : Machine) (n : Nat)

/-- The `n` bytes at the program counter are read, and the program counter stands after them. -/
structure MovesPast (next : Machine) : Prop where
  pc : next.pc = m.pc + UInt32.ofNat n
  registers : ∀ r, r ≠ .xx → next.registers.get r = m.registers.get r
  flag : next.registers.flag = m.registers.flag
  cells : ∀ (x : UInt32) (b : UInt8), m.memory.cells[x]? = some b → next.memory.cells[x]? = some b
  touched : ∀ x, x ∈ next.memory.cells ↔ x ∈ m.memory.cells ∨ (x - m.pc).toNat < n
  surroundings : next = m.around next

theorem movesPast_past (hn : n ≤ UInt32.size) : m.MovesPast n (m.past n) where
  pc := pc_advance _ n
  registers r hr := m.registers.get_set_of_ne .xx r _ hr.symm
  flag := m.registers.flag_set .xx _
  cells _ _ hx := Memory.cells_readBytes n hx
  touched x := Memory.mem_cells_readBytes hn x
  surroundings := rfl

/-- The bytes that are found after a move past some of them are those that were found before. -/
theorem readBytes_past {n k : Nat} (h : n ≤ k) :
    ((m.past n).memory.readBytes m.pc k).1 = (m.memory.readBytes m.pc k).1 :=
  congrArg Prod.fst (m.memory.readBytes_of_le m.pc h)

/-- Decoding an operand from memory never fails.  It returns what decoding from the five bytes at
the program counter returns, moves past the bytes of that operand, and changes nothing else.  What
is gathered byte by byte from a list is what is taken from it at once. -/
theorem decode_as_slice :
    (∃ d next, (ModRM.decode : Exec ModRM) m = .ok d next ∧ m.MovesPast d.size next ∧
      (ModRM.decode : SliceM ModRM) (next.memory.readBytes m.pc 5).1 =
        .ok d ((next.memory.readBytes m.pc 5).1.drop d.size)) ∧
    ∀ (w : Width) (bytes : List UInt8), w.size ≤ bytes.length →
      ∃ value, gather SliceM.next w.size 0 bytes = .ok value (bytes.drop w.size) ∧
        SliceM.trailing w bytes = .ok value (bytes.drop w.size) := by
  constructor
  · have hlength : (m.memory.readBytes m.pc 5).1.length = 5 := Memory.length_readBytes ..
    obtain ⟨d, rest, hslice⟩ := ModRM.exists_decode (Nat.le_of_eq hlength.symm)
    obtain ⟨hnarrowed, hbytes⟩ := (ModRM.decode_eq_ok_iff ..).mp hslice
    have hfaces : m.Faces (d.encode ++ rest) := by
      rw [← hbytes, Faces, hlength]
    have hdecode := Exec.consumes_decode d m (m.faces_append.mp hfaces).1
    rw [hnarrowed, d.length_encode] at hdecode
    have hrest : (m.memory.readBytes m.pc 5).1.drop d.size = rest := by
      rw [hbytes, ← d.length_encode, List.drop_left]
    have hshort : d.size ≤ UInt32.size := Nat.le_trans d.size_le (by decide)
    refine ⟨d, _, hdecode, m.movesPast_past d.size hshort, ?_⟩
    rw [m.readBytes_past d.size_le, hslice, hrest]
  · intro w bytes h
    exact ⟨_, SliceM.gather_of_le h, SliceM.trailing_of_le h⟩

/-- A displacement of four bytes around the top of the address space, drawn from the noise. -/
theorem decode_as_slice_wrapped :
    let noise (k : Nat) : UInt8 := [0x36, 0x01, 0x02, 0x03, 0x04].getD k 0
    let m := boot { entry := 0xFFFFFFFE } (.fresh noise)
    (∃ next, (ModRM.decode : Exec ModRM) m = .ok ⟨1, 0x16, 0x01020304⟩ next ∧ next.pc = 3 ∧
      0x00000002 ∈ next.memory.cells ∧ 0x00000003 ∉ next.memory.cells) ∧
    Width.half.size ≤ [0x12, 0x34, 0x56].length ∧
      gather SliceM.next 2 0 [0x12, 0x34, 0x56] = .ok 0x1234 [0x56] := by
  intro noise m
  have hoperand : (outcome (ModRM.decode : Exec ModRM) m).toOption =
      some ⟨1, 0x16, 0x01020304⟩ := by
    decide +kernel
  obtain ⟨⟨d, next, hdecode, hmoves, -⟩, hsources⟩ := decode_as_slice m
  rw [outcome, hdecode] at hoperand
  cases hoperand
  refine ⟨⟨next, hdecode, ?_, ?_, ?_⟩, by decide, ?_⟩
  · rw [hmoves.pc]
    decide +kernel
  · rw [hmoves.touched]
    decide +kernel
  · rw [hmoves.touched]
    decide +kernel
  · obtain ⟨value, hgather, htrailing⟩ := hsources .half [0x12, 0x34, 0x56] (by decide)
    cases htrailing
    exact hgather

end Machine

end Cpu32
