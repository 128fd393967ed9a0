import Cpu32.Proofs.Codec.Linking

/-!
# Reading images back

An image is decoded by reading an opcode and as many operands as its instruction takes, until no
byte is left.  Emission and decoding are inverse to each other on whole programs, although nothing
in an image marks where an instruction ends.
-/

namespace Cpu32

namespace Code

/-- Why a list of bytes is no sequence of instructions. -/
inductive Undecodable
  | shortage (cause : Shortage)
  | invalidOpcode (opcode : UInt8)
deriving DecidableEq, Repr

/-- Reads `n` operands in a row. -/
def decodeOperands : Nat → SliceM (List ModRM)
  | 0 => return []
  | n + 1 => do
      let first ← ModRM.decode
      let others ← decodeOperands n
      return first :: others

/-- An instruction whose operands name no labels. -/
def unlabelled (instruction : Instruction) (operands : List ModRM) : Code :=
  ⟨instruction, operands.map fun modrm => { modrm }⟩

theorem decodeOperands_eq_ok {n : Nat} {bytes rest : List UInt8} {operands : List ModRM}
    (h : decodeOperands n bytes = .ok operands rest) :
    operands.length = n ∧ bytes = operands.flatMap ModRM.encode ++ rest := by
  induction n generalizing bytes operands with
  | zero =>
      cases h
      exact ⟨rfl, rfl⟩
  | succ n ih =>
      obtain ⟨first, tail, hfirst, h⟩ := bind_eq_ok_iff.mp h
      obtain ⟨others, left, hothers, h⟩ := bind_eq_ok_iff.mp h
      cases h
      obtain ⟨hlength, htail⟩ := ih hothers
      refine ⟨by simp [hlength], ?_⟩
      rw [ModRM.decode_eq_ok hfirst, htail, List.flatMap_cons, List.append_assoc]

/-- Encoded operands read back, whatever follows them. -/
theorem decodeOperands_encode (operands : List ModRM) (rest : List UInt8) :
    decodeOperands operands.length (operands.flatMap ModRM.encode ++ rest) =
      .ok (operands.map ModRM.narrowed) rest := by
  induction operands with
  | nil => rfl
  | cons first others ih =>
      rw [List.flatMap_cons, List.append_assoc, List.length_cons, decodeOperands,
        bind_of_ok (ModRM.decode_encode first _), bind_of_ok ih]
      rfl

/-- The instructions that a list of bytes consists of. -/
def decodeAll : List UInt8 → Except Undecodable (List Code)
  | [] => .ok []
  | opcode :: tail =>
      match Instruction.ofOpcode? opcode with
      | none => .error (.invalidOpcode opcode)
      | some instruction =>
          match _ : decodeOperands instruction.arity tail with
          | .error cause _ => .error (.shortage cause)
          | .ok operands rest => (decodeAll rest).map (unlabelled instruction operands :: ·)
termination_by bytes => bytes.length
decreasing_by
  rename_i hread
  simp only [(decodeOperands_eq_ok hread).2, List.length_append, List.length_cons]
  omega

theorem decodeAll_cons (instruction : Instruction) (operands : List ModRM) (rest : List UInt8)
    (harity : operands.length = instruction.arity) :
    decodeAll (instruction.opcode :: (operands.flatMap ModRM.encode ++ rest)) =
      (decodeAll rest).map
        (unlabelled instruction (operands.map ModRM.narrowed) :: ·) := by
  have hread := decodeOperands_encode operands rest
  rw [harity] at hread
  rw [decodeAll, Instruction.ofOpcode?_opcode]
  simp only
  split
  · rename_i hfail
    simp [hread] at hfail
  · rename_i hok
    rw [hread] at hok
    cases hok
    rfl

/-- An image that is not empty begins with an instruction and its operands. -/
theorem decodeAll_cons_eq_ok {opcode : UInt8} {tail : List UInt8} {codes : List Code}
    (h : decodeAll (opcode :: tail) = .ok codes) :
    ∃ instruction operands rest others, instruction.opcode = opcode ∧
      operands.length = instruction.arity ∧
      tail = operands.flatMap ModRM.encode ++ rest ∧
      decodeAll rest = .ok others ∧ codes = unlabelled instruction operands :: others := by
  rw [decodeAll] at h
  split at h
  · cases h
  · rename_i instruction hopcode
    split at h
    · cases h
    · rename_i operands rest hread
      obtain ⟨hlength, htail⟩ := decodeOperands_eq_ok hread
      obtain ⟨others, hothers, rfl⟩ := exceptMap_eq_ok_iff.mp h
      exact ⟨instruction, operands, rest, others, Instruction.opcode_of_ofOpcode? hopcode,
        hlength, htail, hothers, rfl⟩

section Linked

variable (labels : Labels) (base : UInt32)

/-- The instruction as it reads back. -/
def linked (code : Code) : Code :=
  unlabelled code.instruction
    (code.operands.map fun p => (p.linked labels base).narrowed)

/-- Linked instructions read back one by one, whatever follows them. -/
theorem decodeAll_bytes_append {code : Code}
    (harity : code.operands.length = code.instruction.arity) (rest : List UInt8) :
    decodeAll (code.bytes labels base ++ rest) =
      (decodeAll rest).map (code.linked labels base :: ·) := by
  have hlength : (code.operands.map (Placed.linked labels base)).length =
      code.instruction.arity := by
    rw [List.length_map, harity]
  rw [bytes, List.cons_append, decodeAll_cons _ _ _ hlength, List.map_map]
  rfl

theorem decodeAll_flatMap_bytes {codes : List Code}
    (harity : ∀ code ∈ codes, code.operands.length = code.instruction.arity) :
    decodeAll (codes.flatMap (bytes labels base)) = .ok (codes.map (linked labels base)) := by
  induction codes with
  | nil =>
      rw [List.flatMap_nil, decodeAll]
      rfl
  | cons code rest ih =>
      rw [List.forall_mem_cons] at harity
      rw [List.flatMap_cons, decodeAll_bytes_append labels base harity.1, ih harity.2]
      rfl

theorem bytes_unlabelled (instruction : Instruction) (operands : List ModRM) :
    (unlabelled instruction operands).bytes labels base =
      instruction.opcode :: operands.flatMap ModRM.encode := by
  have hlinked : (operands.map fun modrm => ({ modrm } : Placed)).map (Placed.linked labels base) =
      operands := by
    rw [List.map_map]
    exact List.map_id operands
  rw [bytes, unlabelled, hlinked]

theorem isBound_unlabelled (instruction : Instruction) (operands : List ModRM) :
    (unlabelled instruction operands).IsBound labels := by
  intro p hp name hname
  simp only [unlabelled, List.mem_map] at hp
  obtain ⟨modrm, _, rfl⟩ := hp
  cases hname

theorem emit_of_decodeAll {bytes : List UInt8} {codes : List Code}
    (h : decodeAll bytes = .ok codes) : emit labels base codes = .ok bytes := by
  induction codes generalizing bytes with
  | nil =>
      cases bytes with
      | nil => rfl
      | cons opcode tail =>
          obtain ⟨_, _, _, _, _, _, _, _, hcodes⟩ := decodeAll_cons_eq_ok h
          cases hcodes
  | cons code codes ih =>
      cases bytes with
      | nil =>
          rw [decodeAll] at h
          cases h
      | cons opcode tail =>
          obtain ⟨instruction, operands, rest, others, rfl, _, rfl, hrest, hcodes⟩ :=
            decodeAll_cons_eq_ok h
          cases hcodes
          have hemit := (emit_eq_ok_iff labels base codes rest).mp (ih hrest)
          rw [emit_eq_ok_iff, List.forall_mem_cons, List.flatMap_cons, ← hemit.2,
            bytes_unlabelled]
          exact ⟨⟨isBound_unlabelled labels instruction operands, hemit.1⟩, rfl⟩

/-- Emission and decoding are inverse to each other.  What is emitted for instructions with the
right number of operands, all labels bound, reads back as those instructions with their operands
narrowed and their labels replaced, each of them standing where the sizes before it add up to.  And
what can be decoded is emitted again byte for byte. -/
theorem emit_decodeAll_inverse :
    (∀ codes : List Code,
      (∀ code ∈ codes, code.operands.length = code.instruction.arity) →
      (∀ code ∈ codes, code.IsBound labels) →
        ∃ out, emit labels base codes = .ok out ∧
          out.length = totalSize codes ∧
          decodeAll out = .ok (codes.map (linked labels base)) ∧
          ∀ k, decodeAll (out.take (totalSize (codes.take k))) =
              .ok ((codes.take k).map (linked labels base)) ∧
            decodeAll (out.drop (totalSize (codes.take k))) =
              .ok ((codes.drop k).map (linked labels base))) ∧
    ∀ bytes codes, decodeAll bytes = .ok codes → emit labels base codes = .ok bytes := by
  refine ⟨?_, fun bytes codes h => emit_of_decodeAll labels base h⟩
  intro codes harity hbound
  refine ⟨codes.flatMap (bytes labels base),
    (emit_eq_ok_iff labels base codes _).mpr ⟨hbound, rfl⟩,
    length_flatMap_bytes labels base codes, decodeAll_flatMap_bytes labels base harity, ?_⟩
  intro k
  have hsplit : codes.flatMap (bytes labels base) =
      (codes.take k).flatMap (bytes labels base) ++
        (codes.drop k).flatMap (bytes labels base) := by
    rw [← List.flatMap_append, List.take_append_drop]
  rw [hsplit, ← length_flatMap_bytes labels base (codes.take k), List.take_left, List.drop_left]
  constructor
  · apply decodeAll_flatMap_bytes
    exact fun code hcode => harity code (List.mem_of_mem_take hcode)
  · apply decodeAll_flatMap_bytes
    exact fun code hcode => harity code (List.mem_of_mem_drop hcode)

end Linked

/-- An exchange through an operand with stray bits, a copy of a label and back. -/
theorem emit_decodeAll_inverse_strayBits :
    let labels : Labels := ⟨(∅ : Std.ExtTreeMap String UInt32).insert "end" 9⟩
    let codes : List Code :=
      [⟨.inj, [{ modrm := ⟨0xFD, 0xF5, 0x12345678⟩ }, { modrm := .register .xx },
          { modrm := .indirect .f5 }]⟩,
        ⟨.krz, [{ modrm := .wideImmediate 0, label := some "end" }, { modrm := .register .xx }]⟩]
    (∀ code ∈ codes, code.operands.length = code.instruction.arity) ∧
      (∀ code ∈ codes, code.IsBound labels) ∧
      ∃ out, emit labels 0x10 codes = .ok out ∧ out.length = 13 ∧
        decodeAll out = .ok (codes.map (linked labels 0x10)) ∧
        decodeAll (out.drop 6) = .ok ((codes.drop 1).map (linked labels 0x10)) ∧
        emit labels 0x10 (codes.map (linked labels 0x10)) = .ok out := by
  intro labels codes
  have harity : ∀ code ∈ codes, code.operands.length = code.instruction.arity := by
    simp only [codes, List.forall_mem_cons]
    decide
  have hbound : ∀ code ∈ codes, code.IsBound labels := by
    simp [codes, IsBound, Placed.IsBound, Labels.find?, labels]
  obtain ⟨hemit, hback⟩ := emit_decodeAll_inverse labels 0x10
  obtain ⟨out, hout, hlength, hdecode, hsplit⟩ := hemit codes harity hbound
  exact ⟨harity, hbound, out, hout, hlength, hdecode, (hsplit 1).2, hback _ _ hdecode⟩

end Code

end Cpu32
