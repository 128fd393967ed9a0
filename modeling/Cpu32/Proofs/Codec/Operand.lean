import Cpu32.ByteSource
import Cpu32.Proofs.Codec.BigEndian
import Cpu32.Proofs.Outcome

/-!
# Reading operands back

Encoding a descriptor and decoding from a list of bytes are inverse to each other, up to the bits
that the encoding does not keep.
-/

namespace Cpu32

namespace ModRM

variable (m : ModRM)

theorem toNat_selectorBits (reg : UInt8) : (reg &&& 0x07).toNat = reg.toNat % 8 :=
  Nat.and_two_pow_sub_one_eq_mod reg.toNat 3

theorem toNat_modeBits (mode : UInt8) : (mode &&& 0x1F).toNat = mode.toNat % 32 :=
  Nat.and_two_pow_sub_one_eq_mod mode.toNat 5

/-- The selector stands above the five bits of the mode. -/
theorem toNat_code : m.code.toNat = m.reg.toNat % 8 * 32 + m.mode.toNat % 32 := by
  have hmode : m.mode.toNat % 32 < 2 ^ 5 := Nat.mod_lt _ (by decide)
  have hshift : (m.reg <<< 5).toNat = (m.reg.toNat % 8) <<< 5 := by
    simp only [UInt8.toNat_shiftLeft, Nat.shiftLeft_eq]
    change m.reg.toNat * 32 % 256 = m.reg.toNat % 8 * 32
    omega
  rw [code, UInt8.toNat_or, hshift, toNat_modeBits, ← Nat.shiftLeft_add_eq_or_of_lt hmode,
    Nat.shiftLeft_eq]

theorem toNat_upperBits (byte : UInt8) : (byte >>> 5).toNat = byte.toNat / 32 := by
  rw [UInt8.toNat_shiftRight, Nat.shiftRight_eq_div_pow]
  rfl

/-- The first byte determines the bits of the selector and of the mode that are kept. -/
theorem masked_code (value : UInt32) :
    masked (m.code >>> 5) m.code value = masked m.reg m.mode value := by
  have hcode := m.toNat_code
  simp only [masked, mk.injEq, and_true]
  constructor
  · apply UInt8.toNat_inj.mp
    rw [toNat_selectorBits, toNat_selectorBits, toNat_upperBits]
    omega
  · apply UInt8.toNat_inj.mp
    rw [toNat_modeBits, toNat_modeBits]
    omega

/-- The bits of the selector and of the mode that are kept determine the first byte. -/
theorem code_masked (byte : UInt8) (value : UInt32) :
    (masked (byte >>> 5) byte value).code = byte := by
  have hbyte : byte.toNat < 256 := byte.toNat_lt
  apply UInt8.toNat_inj.mp
  rw [toNat_code]
  simp only [masked, toNat_selectorBits, toNat_modeBits, toNat_upperBits]
  omega

@[simp] theorem width_masked (reg mode : UInt8) (value : UInt32) :
    (masked reg mode value).width = Width.ofMode? mode := by
  have hmode : (mode &&& 0x1F) &&& 0x0F = mode &&& 0x0F := by
    rw [UInt8.and_assoc]
    rfl
  simp only [width, masked, Width.ofMode?, hmode]

theorem size_le : m.size ≤ 5 := by
  rw [size]
  cases m.width with
  | none => decide
  | some w => exact Nat.add_le_add_left w.size_le 1

theorem ofMode?_code : Width.ofMode? m.code = m.width := by
  rw [← width_masked (m.code >>> 5) m.code 0, masked_code, width_masked]
  rfl

@[simp] theorem value_masked (reg mode : UInt8) (value : UInt32) :
    (masked reg mode value).value = value := rfl

end ModRM

namespace SliceM

theorem trailing_append (w : Width) (value : UInt32) (rest : List UInt8) :
    trailing w (w.bytes value ++ rest) = .ok (w.narrow value) rest := by
  have hlen : ¬ (w.bytes value ++ rest).length < w.size := by
    simp
  rw [trailing, if_neg hlen, ← Width.length_bytes w value, List.take_left, List.drop_left,
    Width.ofBigEndian_bytes]

theorem trailing_eq_ok {w : Width} {value : UInt32} {bytes rest : List UInt8}
    (h : trailing w bytes = .ok value rest) : bytes = w.bytes value ++ rest := by
  rw [trailing] at h
  split at h
  · cases h
  · rename_i hlen
    cases h
    have htake : (bytes.take w.size).length = w.size := by
      rw [List.length_take]
      omega
    rw [Width.bytes_ofBigEndian w htake, List.take_append_drop]

end SliceM

namespace ModRM

/-- The first byte decides whether a trailing value is read. -/
theorem decode_cons (byte : UInt8) (rest : List UInt8) :
    (decode : SliceM ModRM) (byte :: rest) =
      match Width.ofMode? byte with
      | some w =>
          match SliceM.trailing w rest with
          | .ok value rest => .ok (masked (byte >>> 5) byte value) rest
          | .error e rest => .error e rest
      | none => .ok (masked (byte >>> 5) byte 0) rest := by
  have hstart : (decode : SliceM ModRM) (byte :: rest) =
      (match (masked (byte >>> 5) byte 0).width with
        | some w => do
            let value ← ByteSource.trailing w
            return { masked (byte >>> 5) byte 0 with value }
        | none => return masked (byte >>> 5) byte 0 : SliceM ModRM) rest := rfl
  rw [hstart, width_masked]
  cases Width.ofMode? byte with
  | none => rfl
  | some w =>
      change EStateM.bind (SliceM.trailing w) _ rest = _
      rw [EStateM.bind]
      cases h : SliceM.trailing w rest with
      | ok value left => simp only [h]; rfl
      | error e left => simp only [h]

/-- An encoded descriptor reads back, whatever follows it. -/
theorem decode_encode (m : ModRM) (rest : List UInt8) :
    (decode : SliceM ModRM) (m.encode ++ rest) = .ok m.narrowed rest := by
  rw [encode, List.cons_append, decode_cons, ofMode?_code, narrowed]
  cases m.width with
  | none => simp only [masked_code, List.nil_append]
  | some w => simp only [masked_code, SliceM.trailing_append]

/-- A descriptor is read from exactly the bytes that it encodes to. -/
theorem decode_eq_ok {m : ModRM} {bytes rest : List UInt8}
    (h : (decode : SliceM ModRM) bytes = .ok m rest) : bytes = m.encode ++ rest := by
  cases bytes with
  | nil => cases h
  | cons byte tail =>
      rw [decode_cons] at h
      cases hw : Width.ofMode? byte with
      | none =>
          rw [hw] at h
          cases h
          simp [encode, code_masked, hw]
      | some w =>
          rw [hw] at h
          cases htrail : SliceM.trailing w tail with
          | error e left =>
              simp only [htrail] at h
              cases h
          | ok value left =>
              simp only [htrail] at h
              cases h
              simp [encode, code_masked, hw, value_masked, SliceM.trailing_eq_ok htrail]

/-- What is read is a descriptor without stray bits, and only from the bytes that it encodes to. -/
theorem decode_eq_ok_iff (m : ModRM) (bytes rest : List UInt8) :
    (decode : SliceM ModRM) bytes = .ok m rest ↔ m.narrowed = m ∧ bytes = m.encode ++ rest := by
  constructor
  · intro h
    have hbytes := decode_eq_ok h
    have hagain := decode_encode m rest
    rw [← hbytes, h] at hagain
    exact ⟨(EStateM.Result.ok.inj hagain).1.symm, hbytes⟩
  · rintro ⟨hnarrowed, rfl⟩
    rw [decode_encode, hnarrowed]

/-- A list of bytes is no descriptor exactly if it ends before the value that its first byte asks
for, or has no first byte.  What stands after the first byte is not consumed. -/
theorem decode_eq_error_iff (e : Shortage) (bytes rest : List UInt8) :
    (decode : SliceM ModRM) bytes = .error e rest ↔
      bytes = [] ∧ rest = [] ∧ e = ⟨1, 0⟩ ∨
        ∃ byte w, bytes = byte :: rest ∧ Width.ofMode? byte = some w ∧
          bytes.length < 1 + w.size ∧ e = ⟨w.size, rest.length⟩ := by
  cases bytes with
  | nil =>
      have hempty : (decode : SliceM ModRM) [] = .error ⟨1, 0⟩ [] := rfl
      rw [hempty]
      constructor
      · rintro ⟨⟩
        exact .inl ⟨rfl, rfl, rfl⟩
      · rintro (⟨_, rfl, rfl⟩ | ⟨_, _, hcons, _⟩)
        · rfl
        · cases hcons
  | cons byte tail =>
      have hcons (w : Width) : (byte :: tail).length < 1 + w.size ↔ tail.length < w.size := by
        rw [List.length_cons]
        omega
      simp only [decode_cons, reduceCtorEq, false_and, false_or, List.cons.injEq, hcons]
      cases hw : Width.ofMode? byte with
      | none =>
          constructor
          · rintro ⟨⟩
          · rintro ⟨_, _, ⟨rfl, _⟩, hsome, _⟩
            cases hw.symm.trans hsome
      | some w =>
          simp only [SliceM.trailing]
          by_cases hshort : tail.length < w.size
          · rw [if_pos hshort]
            constructor
            · rintro ⟨⟩
              exact ⟨byte, w, ⟨rfl, rfl⟩, hw, hshort, rfl⟩
            · rintro ⟨_, _, ⟨rfl, rfl⟩, hsome, _, rfl⟩
              cases hw.symm.trans hsome
              rfl
          · rw [if_neg hshort]
            constructor
            · rintro ⟨⟩
            · rintro ⟨_, _, ⟨rfl, rfl⟩, hsome, hlt, _⟩
              cases hw.symm.trans hsome
              exact absurd hlt hshort

/-- Encoding and decoding are inverse to each other over all descriptors and all lists of bytes: an
encoded descriptor reads back without its stray bits and without what follows it, what reads back
was encoded, and everything else ends too early. -/
theorem encode_decode_inverse :
    (∀ (m : ModRM) (rest : List UInt8), m.encode.length = m.size ∧
      (decode : SliceM ModRM) (m.encode ++ rest) = .ok m.narrowed rest) ∧
    (∀ (m : ModRM) (bytes rest : List UInt8), (decode : SliceM ModRM) bytes = .ok m rest ↔
      m.narrowed = m ∧ bytes = m.encode ++ rest) ∧
    ∀ (e : Shortage) (bytes rest : List UInt8), (decode : SliceM ModRM) bytes = .error e rest ↔
      bytes = [] ∧ rest = [] ∧ e = ⟨1, 0⟩ ∨
        ∃ byte w, bytes = byte :: rest ∧ Width.ofMode? byte = some w ∧
          bytes.length < 1 + w.size ∧ e = ⟨w.size, rest.length⟩ :=
  ⟨fun m rest => ⟨m.length_encode, decode_encode m rest⟩, decode_eq_ok_iff, decode_eq_error_iff⟩

example : (decode : SliceM ModRM) [0xB5, 0x12] = .error ⟨2, 1⟩ [0x12] := by
  rfl

end ModRM

end Cpu32
