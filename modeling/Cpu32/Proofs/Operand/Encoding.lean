import Cpu32.Proofs.Session.Resolution

/-!
# The encoding of an operand

What the encoding of a symbolic operand reads back as, that nothing shorter does, and that no
encoding begins with another.  Labels stand apart: their value is open, so they take a full word.
-/

namespace Cpu32

/-- The symbolic operand that has this meaning.  The width of an immediate is left open. -/
def Addressing.symbolic : Addressing → Operand
  | .register r => { shape := .register r }
  | .immediate value _ => { shape := .immediate value }
  | .memory (.indirect base) => { shape := .register base, address := true }
  | .memory (.displaced base displacement) =>
      { shape := .displaced base displacement, address := true }
  | .memory (.indexed base index) => { shape := .indexed base index, address := true }

namespace Operand

/-- The value that follows the first byte of the encoding, if one does.  That of a label is open. -/
def trailing? (o : Operand) : Option UInt32 :=
  match o.shape with
  | .immediate value | .displaced _ value => some value
  | .register _ | .indexed .. | .label _ => none

def IsLabel (o : Operand) : Prop :=
  ∃ name, o.shape = .label name

end Operand

namespace Width

variable {w : Width} {value : UInt32} {mode : UInt8}

/-- No width that keeps the value is less than the least one. -/
theorem size_ofValue_le (h : w.narrow value = value) : (ofValue value).size ≤ w.size := by
  have hbyte : value ≤ 0xFF ↔ value.toNat ≤ 255 := UInt32.le_iff_toNat_le
  have hhalf : value ≤ 0xFFFF ↔ value.toNat ≤ 65535 := UInt32.le_iff_toNat_le
  have hkept := w.toNat_narrow value
  rw [h] at hkept
  simp only [ofValue, hbyte, hhalf]
  cases w with
  | byte =>
      have hvalue : value.toNat ≤ 255 := by
        simp only at hkept
        omega
      exact Nat.le_of_eq (congrArg size (if_pos hvalue))
  | half =>
      have hvalue : value.toNat ≤ 65535 := by
        simp only at hkept
        omega
      rw [if_pos hvalue]
      split
      · decide
      · exact Nat.le_refl _
  | word => exact size_le _

theorem exists_ofMode?_displaced (h : 0x14 ≤ mode ∧ mode ≤ 0x16) : ∃ w, ofMode? mode = some w := by
  have hmode : mode = 0x14 ∨ mode = 0x15 ∨ mode = 0x16 := by
    simp only [UInt8.le_iff_toNat_le, ← UInt8.toNat_inj, UInt8.reduceToNat] at h ⊢
    omega
  rcases hmode with rfl | rfl | rfl
  · exact ⟨.byte, rfl⟩
  · exact ⟨.half, rfl⟩
  · exact ⟨.word, rfl⟩

/-- The second register of an indexed form stands where a width would, but selects none. -/
theorem ofMode?_indexed (h : 0x18 ≤ mode ∧ mode ≤ 0x1F) : ofMode? mode = none := by
  have hbits : (mode &&& 0x0F).toNat = mode.toNat % 16 :=
    Nat.and_two_pow_sub_one_eq_mod mode.toNat 4
  have hlow : 8 ≤ (mode &&& 0x0F).toNat := by
    simp only [UInt8.le_iff_toNat_le, UInt8.reduceToNat] at h
    omega
  rw [ofMode?]
  generalize mode &&& 0x0F = low at hlow
  split
  · exact absurd hlow (by decide)
  · exact absurd hlow (by decide)
  · exact absurd hlow (by decide)
  · rfl

end Width

namespace ModRM

variable {m : ModRM} {o : Operand}

/-- A descriptor carries a value exactly if the operand that it stands for has one. -/
theorem trailing?_eq (h : m.addressing.map Addressing.symbolic = some o) :
    o.trailing? = m.width.map fun _ => m.value := by
  obtain ⟨form, hform, rfl⟩ := Option.map_eq_some_iff.mp h
  obtain ⟨reg, mode, value⟩ := m
  simp only [addressing] at hform
  split at hform
  · subst mode
    cases hform
    have hwidth : Width.ofMode? 0x00 = none := rfl
    rw [width, hwidth]
    rfl
  split at hform
  · obtain ⟨w, hw, rfl⟩ := Option.map_eq_some_iff.mp hform
    rw [hw]
    rfl
  split at hform
  · subst mode
    cases hform
    have hwidth : Width.ofMode? 0x10 = none := rfl
    rw [width, hwidth]
    rfl
  split at hform
  · rename_i hmode
    cases hform
    obtain ⟨w, hw⟩ := Width.exists_ofMode?_displaced hmode
    rw [width, hw]
    rfl
  split at hform
  · rename_i hmode
    cases hform
    rw [width, Width.ofMode?_indexed hmode]
    rfl
  · cases hform

/-- A descriptor whose value fits its width is no shorter than the operand needs. -/
theorem size_least (hm : m.narrowed = m) (h : m.addressing.map Addressing.symbolic = some o)
    {m' : ModRM} (hwidth : m'.width = o.trailing?.map Width.ofValue) : m'.size ≤ m.size := by
  rw [trailing?_eq h, Option.map_map] at hwidth
  rw [size, size, hwidth]
  cases hw : m.width with
  | none => exact Nat.le_refl _
  | some w =>
      have hvalue : w.narrow m.value = m.value := by
        have hnarrowed := congrArg value hm
        rwa [narrowed, value_masked, hw] at hnarrowed
      exact Nat.add_le_add_left (Width.size_ofValue_le hvalue) 1

/-- What is read from the bytes of one descriptor is as long. -/
theorem size_of_decode {m' : ModRM} (h : (decode : SliceM ModRM) m.encode = .ok m' []) :
    m'.narrowed = m' ∧ m'.size = m.size := by
  obtain ⟨hnarrowed, hbytes⟩ := (decode_eq_ok_iff m' m.encode []).mp h
  have hlength := congrArg List.length hbytes
  rw [List.append_nil, length_encode, length_encode] at hlength
  exact ⟨hnarrowed, hlength.symm⟩

end ModRM

namespace Operand

variable {o o' : Operand} {p p' : Placed}

theorem label_eq_none (h : o.encode = .ok p) (hlabel : ¬ o.IsLabel) : p.label = none := by
  rw [Option.eq_none_iff_forall_ne_some]
  intro name hname
  exact hlabel ⟨name, (label_of_encode h name).mp hname⟩

theorem symbolic_of_form? {labels : Labels} {base : UInt32} {form : Addressing}
    (h : o.form? labels base = some form) (hlabel : ¬ o.IsLabel) : form.symbolic = o := by
  obtain ⟨shape, address⟩ := o
  cases shape with
  | label name => exact absurd ⟨name, rfl⟩ hlabel
  | immediate | register | displaced | indexed =>
      cases address <;> cases h
      all_goals rfl

/-- The value of an operand is encoded in the least width that keeps it. -/
theorem width_of_encode (h : o.encode = .ok p) (hlabel : ¬ o.IsLabel) :
    p.modrm.width = o.trailing?.map Width.ofValue := by
  obtain ⟨shape, address⟩ := o
  cases shape with
  | immediate value =>
      cases address <;> cases h
      rw [ModRM.immediate, ModRM.width_masked, ModRM.ofMode?_immediate]
      rfl
  | register r =>
      cases address <;> cases h
      · cases r <;> rfl
      · cases r <;> rfl
  | displaced base displacement =>
      cases address <;> cases h
      rw [ModRM.displaced, ModRM.width_masked, ModRM.ofMode?_displaced]
      rfl
  | indexed base index =>
      cases address <;> cases h
      cases base <;> cases index <;> rfl
  | label name => exact absurd ⟨name, rfl⟩ hlabel

/-- An operand that is no label is encoded as a descriptor without stray bits that stands for it. -/
theorem encode_spec (h : o.encode = .ok p) (hlabel : ¬ o.IsLabel) :
    p.modrm.narrowed = p.modrm ∧ p.modrm.addressing.map Addressing.symbolic = some o := by
  have hnone := label_eq_none h hlabel
  have hlinked : p.linked {} 0 = p.modrm := by
    rw [Placed.linked, hnone, Option.bind_none]
  have hbound : p.IsBound {} := by
    intro name hname
    cases hnone.symm.trans hname
  have hnarrowed := narrowed_linked {} 0 h
  have hform := addressing_linked {} 0 h hbound
  rw [hlinked] at hnarrowed hform
  obtain ⟨form, hsome⟩ := exists_form? {} 0 h hbound
  rw [hnarrowed, hsome] at hform
  refine ⟨hnarrowed, ?_⟩
  rw [hform, Option.map_some, symbolic_of_form? hsome hlabel]

/-- The operands that are accepted are the labels and those that are the meaning of some form. -/
theorem exists_encode_iff :
    (∃ p, o.encode = .ok p) ↔
      (∃ name, o = { shape := .label name }) ∨ ∃ form : Addressing, form.symbolic = o := by
  constructor
  · rintro ⟨p, hencode⟩
    by_cases hlabel : o.IsLabel
    · obtain ⟨shape, address⟩ := o
      obtain ⟨name, rfl⟩ : ∃ name, shape = .label name := hlabel
      cases address <;> cases hencode
      exact .inl ⟨name, rfl⟩
    · obtain ⟨_, hmeaning⟩ := encode_spec hencode hlabel
      obtain ⟨form, _, hform⟩ := Option.map_eq_some_iff.mp hmeaning
      exact .inr ⟨form, hform⟩
  · rintro (⟨name, rfl⟩ | ⟨form, rfl⟩)
    · exact ⟨_, rfl⟩
    · cases form with
      | register r => exact ⟨_, rfl⟩
      | immediate value w => exact ⟨_, rfl⟩
      | memory location => cases location <;> exact ⟨_, rfl⟩

/-- Whatever address a label gets, it reads back as an immediate of a full word. -/
theorem label_reads_back {name : String} (h : o.encode = .ok p) (hshape : o.shape = .label name) :
    p.label = some name ∧ ∀ (value : UInt32) (rest : List UInt8),
      let m := { p.modrm with value }
      m.size = 5 ∧ m.addressing = some (.immediate value .word) ∧
        (ModRM.decode : SliceM ModRM) (m.encode ++ rest) = .ok m rest := by
  obtain rfl := eq_of_encode_label h hshape
  refine ⟨rfl, fun value rest => ?_⟩
  change (ModRM.wideImmediate value).size = 5 ∧
    (ModRM.wideImmediate value).addressing = some (.immediate value .word) ∧
      (ModRM.decode : SliceM ModRM) ((ModRM.wideImmediate value).encode ++ rest) =
        .ok (.wideImmediate value) rest
  have hwidth : (ModRM.wideImmediate value).width = some .word := by
    rw [ModRM.wideImmediate, ModRM.width_masked, ModRM.ofMode?_immediate]
  have hnarrowed : (ModRM.wideImmediate value).narrowed = .wideImmediate value :=
    ModRM.narrowed_masked 0 _ value (ModRM.ofMode?_immediate .word) rfl
  refine ⟨?_, ModRM.addressing_immediate .word value, ?_⟩
  · rw [ModRM.size, hwidth]
    rfl
  · rw [ModRM.decode_encode, hnarrowed]

theorem reads_back (h : o.encode = .ok p) (hlabel : ¬ o.IsLabel) (rest : List UInt8) :
    (ModRM.decode : SliceM ModRM) (p.modrm.encode ++ rest) = .ok p.modrm rest := by
  rw [ModRM.decode_encode, (encode_spec h hlabel).1]

/-- Whatever else reads back as the operand is no shorter. -/
theorem size_le_of_decode (h : o.encode = .ok p) (hlabel : ¬ o.IsLabel) {m m' : ModRM}
    (hdecode : (ModRM.decode : SliceM ModRM) m.encode = .ok m' [])
    (hmeaning : m'.addressing.map Addressing.symbolic = some o) : p.modrm.size ≤ m.size := by
  obtain ⟨hnarrowed, hsize⟩ := ModRM.size_of_decode hdecode
  rw [← hsize]
  exact ModRM.size_least hnarrowed hmeaning (width_of_encode h hlabel)

/-- Operands of which one encoding begins with the other are the same. -/
theorem eq_of_begins (h : o.encode = .ok p) (hlabel : ¬ o.IsLabel) (h' : o'.encode = .ok p')
    (hlabel' : ¬ o'.IsLabel) (hbegins : p.modrm.encode <+: p'.modrm.encode) : o = o' := by
  obtain ⟨rest, hrest⟩ := hbegins
  have hlong := reads_back h' hlabel' []
  rw [List.append_nil, ← hrest, reads_back h hlabel] at hlong
  obtain ⟨hmodrm, _⟩ := EStateM.Result.ok.inj hlong
  have hmeaning := (encode_spec h hlabel).2
  have hmeaning' := (encode_spec h' hlabel').2
  rw [hmodrm, hmeaning'] at hmeaning
  exact (Option.some.inj hmeaning).symm

/-- Encoding loses nothing and wastes nothing.  It accepts the labels and the operands that some
form is the meaning of.  A label is a full word that reads back as whatever address it gets.  Any
other operand reads back as itself, no descriptor that reads back as it is shorter, and it is not
found at the beginning of the encoding of another one. -/
theorem encode_lossless_shortest :
    (∀ o : Operand, (∃ p, o.encode = .ok p) ↔
      (∃ name, o = { shape := .label name }) ∨ ∃ form : Addressing, form.symbolic = o) ∧
    (∀ (o : Operand) (p : Placed) (name : String), o.encode = .ok p → o.shape = .label name →
      p.label = some name ∧ ∀ (value : UInt32) (rest : List UInt8),
        let m := { p.modrm with value }
        m.size = 5 ∧ m.addressing = some (.immediate value .word) ∧
          (ModRM.decode : SliceM ModRM) (m.encode ++ rest) = .ok m rest) ∧
    (∀ (o : Operand) (p : Placed), o.encode = .ok p → ¬ o.IsLabel →
      p.label = none ∧ p.modrm.addressing.map Addressing.symbolic = some o ∧
        (∀ rest, (ModRM.decode : SliceM ModRM) (p.modrm.encode ++ rest) = .ok p.modrm rest) ∧
        ∀ m m' : ModRM, (ModRM.decode : SliceM ModRM) m.encode = .ok m' [] →
          m'.addressing.map Addressing.symbolic = some o → p.modrm.size ≤ m.size) ∧
    ∀ (o o' : Operand) (p p' : Placed), o.encode = .ok p → ¬ o.IsLabel → o'.encode = .ok p' →
      ¬ o'.IsLabel → o ≠ o' →
        p.modrm.encode ≠ p'.modrm.encode ∧ ¬ p.modrm.encode <+: p'.modrm.encode := by
  refine ⟨fun _ => exists_encode_iff, fun _ _ _ => label_reads_back, ?_, ?_⟩
  · intro o p h hlabel
    exact ⟨label_eq_none h hlabel, (encode_spec h hlabel).2, reads_back h hlabel,
      fun _ _ => size_le_of_decode h hlabel⟩
  · intro o o' p p' h hlabel h' hlabel' hne
    have hbegins : ¬ p.modrm.encode <+: p'.modrm.encode :=
      fun hbegins => hne (eq_of_begins h hlabel h' hlabel' hbegins)
    exact ⟨fun heq => hbegins (heq ▸ List.prefix_rfl), hbegins⟩

/-- A displacement just past one byte against the same one in a full word, an immediate of the same
value, and a label. -/
theorem encode_lossless_shortest_displaced :
    let displaced : Operand := { shape := .displaced .f5 256, address := true }
    let immediate : Operand := { shape := .immediate 256 }
    let label : Operand := { shape := .label "end" }
    let wide : ModRM := ⟨5, 0x16, 256⟩
    displaced.encode = .ok { modrm := ⟨5, 0x15, 256⟩ } ∧ ¬ displaced.IsLabel ∧
      (ModRM.decode : SliceM ModRM) wide.encode = .ok wide [] ∧
      wide.addressing.map Addressing.symbolic = some displaced ∧
      (⟨5, 0x15, 256⟩ : ModRM).size ≤ wide.size ∧
      immediate.encode = .ok { modrm := ⟨0, 0x05, 256⟩ } ∧
      ¬ [0xB5, 0x01, 0x00] <+: (⟨0, 0x05, 256⟩ : ModRM).encode ∧
      label.encode = .ok { modrm := ⟨0, 0x06, 0⟩, label := some "end" } ∧
      (ModRM.decode : SliceM ModRM) [0x06, 0x00, 0x00, 0x00, 0x07] = .ok ⟨0, 0x06, 7⟩ [] := by
  intro displaced immediate label wide
  obtain ⟨_, hlabels, hothers, hbegins⟩ := encode_lossless_shortest
  have hdisplaced : displaced.encode = .ok { modrm := ⟨5, 0x15, 256⟩ } := rfl
  have himmediate : immediate.encode = .ok { modrm := ⟨0, 0x05, 256⟩ } := rfl
  have hlabel : label.encode = .ok { modrm := ⟨0, 0x06, 0⟩, label := some "end" } := rfl
  have hplace : ¬ displaced.IsLabel := nofun
  have hvalue : ¬ immediate.IsLabel := nofun
  have hwide : (ModRM.decode : SliceM ModRM) wide.encode = .ok wide [] := by
    have hnarrowed : wide.narrowed = wide := by
      decide
    have hread := ModRM.decode_encode wide []
    rwa [List.append_nil, hnarrowed] at hread
  have hmeaning : wide.addressing.map Addressing.symbolic = some displaced := rfl
  obtain ⟨_, _, _, hshortest⟩ := hothers displaced _ hdisplaced hplace
  exact ⟨hdisplaced, hplace, hwide, hmeaning, hshortest wide wide hwide hmeaning, himmediate,
    (hbegins displaced immediate _ _ hdisplaced hplace himmediate hvalue (by decide)).2, hlabel,
    ((hlabels label _ "end" hlabel rfl).2 7 []).2.2⟩

end Operand

end Cpu32
