import Cpu32.Proofs.Operand.Text
import Cpu32.Proofs.Session.Linked

/-!
# One text for each operand

An operand is written the same way wherever it is met: in its symbolic form, as an encoded
descriptor, and as a descriptor that was read back from bytes.  That text is a normal form of all
the words that denote the operand.
-/

namespace Cpu32

/-- A descriptor with a meaning is written as what it denotes. -/
theorem ModRM.text_of_addressing {m : ModRM} {form : Addressing}
    (h : m.addressing = some form) : m.text = form.text := by
  rw [text, h]

namespace Operand

variable {cs body : List Char} {name : String} {o : Operand}

theorem eq_of_stripAt {address : Bool} (h : stripAt cs = (body, address)) :
    cs = body ++ if address then ['@'] else [] := by
  rw [stripAt] at h
  split at h
  · rename_i reversed hreverse
    cases h
    have hcs : cs.reverse.reverse = ('@' :: reversed).reverse := congrArg List.reverse hreverse
    simpa using hcs
  · cases h
    simp

namespace Shape

theorem ofSum?_ne_label (left right : List Char) : ofSum? left right ≠ some (.label name) := by
  intro h
  rw [ofSum?] at h
  split at h
  · cases h
  · obtain ⟨_, _, hshape⟩ := Option.map_eq_some_iff.mp h
    cases hshape
  · obtain ⟨_, _, hshape⟩ := Option.map_eq_some_iff.mp h
    cases hshape
  · cases h

theorem eq_of_ofSingle?_label (h : ofSingle? cs = some (.label name)) : name.toList = cs := by
  rw [ofSingle?] at h
  split at h
  · cases h
  · split at h
    · cases h
    · split at h
      · cases h
      · cases h
        exact String.toList_ofList

end Shape

/-- A word that denotes a label is the text of what it denotes. -/
theorem text_of_ofText {word : String} (h : ofText word = .ok o) (hlabel : o.shape = .label name) :
    o.text = word := by
  obtain ⟨shape, address⟩ := o
  obtain rfl : shape = .label name := hlabel
  rcases hstrip : stripAt word.toList with ⟨body, marked⟩
  simp only [ofText, hstrip] at h
  split at h
  · rename_i shape hshape
    cases h
    have hname : name.toList = body := by
      split at hshape
      · exact absurd hshape (Shape.ofSum?_ne_label _ _)
      · exact Shape.eq_of_ofSingle?_label hshape
    apply String.toList_inj.mp
    rw [toList_text, eq_of_stripAt hstrip, ← hname]
    rfl
  · cases h

/-- Whatever a word denotes, the text of the operand denotes it too. -/
theorem ofText_text_of_ofText {word : String} (h : ofText word = .ok o) :
    ofText o.text = .ok o := by
  cases hshape : o.shape with
  | label name =>
      rw [text_of_ofText h hshape]
      exact h
  | _ =>
      apply ofText_text
      rw [IsPrintable, hshape]
      trivial

theorem ofText_text_of_ne_label (h : ∀ name, o.shape ≠ .label name) : ofText o.text = .ok o := by
  apply ofText_text
  cases hshape : o.shape with
  | label name => exact absurd hshape (h name)
  | _ =>
      rw [IsPrintable, hshape]
      trivial

/-- Apart from the addresses of labels, operands keep their text when they are encoded. -/
theorem text_of_form? {labels : Labels} {base : UInt32} {form : Addressing}
    (hform : o.form? labels base = some form) (h : ∀ name, o.shape ≠ .label name) :
    form.text = o.text := by
  obtain ⟨shape, address⟩ := o
  cases shape with
  | label name => exact absurd rfl (h name)
  | _ =>
      cases address <;> cases hform
      all_goals rfl

theorem ne_label_of_encode {p : Placed} (hencode : o.encode = .ok p) (hlabel : p.label = none)
    (name : String) : o.shape ≠ .label name := by
  obtain ⟨shape, address⟩ := o
  rintro rfl
  cases address <;> cases hencode
  cases hlabel

/-- The descriptor of an operand that names no label reads back from its bytes, and is written as
the operand is. -/
theorem decode_encode_text {p : Placed} (hencode : o.encode = .ok p) (hlabel : p.label = none) :
    (ModRM.decode : SliceM ModRM) p.modrm.encode = .ok p.modrm [] ∧ p.modrm.text = o.text := by
  have hlinked : p.linked {} 0 = p.modrm := by
    rw [Placed.linked, hlabel, Option.bind_none]
  have hbound : p.IsBound {} := by
    intro name hname
    cases hlabel.symm.trans hname
  have hnarrowed := narrowed_linked {} 0 hencode
  have hform := addressing_linked {} 0 hencode hbound
  rw [hlinked] at hnarrowed hform
  rw [hnarrowed] at hform
  obtain ⟨form, hsome⟩ := exists_form? {} 0 hencode hbound
  constructor
  · have hdecode := ModRM.decode_encode p.modrm []
    rwa [List.append_nil, hnarrowed] at hdecode
  · rw [ModRM.text_of_addressing (hform.trans hsome)]
    exact text_of_form? hsome (ne_label_of_encode hencode hlabel)

/-- The text of an operand denotes the operand: of one that some word denotes, whatever the word,
and of one that is no label, wherever it comes from.  An operand that is encoded without a label
keeps its text in the descriptor, which reads back from its bytes, so that the text of what was read
is denoted and encoded as the operand was. -/
theorem text_normal_form :
    (∀ word o, ofText word = .ok o → ofText o.text = .ok o) ∧
    (∀ o : Operand, (∀ name, o.shape ≠ .label name) → ofText o.text = .ok o) ∧
    ∀ (o : Operand) (p : Placed), o.encode = .ok p → p.label = none →
      p.modrm.text = o.text ∧
      ∃ m, (ModRM.decode : SliceM ModRM) p.modrm.encode = .ok m [] ∧ m.text = o.text ∧
        ∃ o', ofText m.text = .ok o' ∧ o'.encode = .ok p := by
  refine ⟨fun _ _ => ofText_text_of_ofText, fun _ => ofText_text_of_ne_label, ?_⟩
  intro o p hencode hlabel
  obtain ⟨hdecode, htext⟩ := decode_encode_text hencode hlabel
  have hread := ofText_text_of_ne_label (ne_label_of_encode hencode hlabel)
  rw [← htext] at hread
  exact ⟨htext, p.modrm, hdecode, htext, o, hread, hencode⟩

/-- A sum written the other way round, a label that ends in the sign for a reference, and a
displacement in two bytes. -/
theorem text_normal_form_sum :
    ofText "0256+f5@" = .ok { shape := .displaced .f5 256, address := true } ∧
      ofText "F5+256@" = .ok { shape := .displaced .f5 256, address := true } ∧
      ofText "end@@" = .ok { shape := .label "end@", address := true } ∧
      ofText ({ shape := .label "end@", address := true } : Operand).text =
        .ok { shape := .label "end@", address := true } ∧
      ∃ m, (ModRM.decode : SliceM ModRM) [0xB5, 0x01, 0x00] = .ok m [] ∧ m.text = "F5+256@" := by
  obtain ⟨hword, hoperand, hencoded⟩ := text_normal_form
  have hsum : ofText "0256+f5@" = .ok { shape := .displaced .f5 256, address := true } := by
    rfl
  have hlabel : ofText "end@@" = .ok { shape := .label "end@", address := true } := by
    rfl
  obtain ⟨_, m, hdecode, htext, _⟩ :=
    hencoded { shape := .displaced .f5 256, address := true } ⟨.displaced .f5 256, none⟩ rfl rfl
  exact ⟨hsum, hword _ _ hsum, hlabel, hword _ _ hlabel, m, hdecode, htext⟩

end Operand

end Cpu32
