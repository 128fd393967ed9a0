import Cpu32.Proofs.Session.Linked

/-!
# Resolution of names

Linking needs the names that the history of a session imports and exports and those that its
operands mention, and no others.  If all of them are bound, the exported ones are the symbols of the
image, and each operand that mentions a name holds its address; if not, an unbound one is reported.
-/

namespace Cpu32

/-- Items that are laid out one after the other, from one of them on. -/
theorem drop_flatMap {α β : Type} (f : α → List β) {items : List α} {k : Nat} {item : α}
    (h : items[k]? = some item) :
    (items.flatMap f).drop ((items.take k).flatMap f).length =
      f item ++ (items.drop (k + 1)).flatMap f := by
  induction items generalizing k with
  | nil => cases h
  | cons first rest ih =>
      cases k with
      | zero =>
          cases h
          rfl
      | succ k =>
          rw [List.flatMap_cons, List.take_succ_cons, List.flatMap_cons, List.length_append,
            List.drop_length_add_append, List.drop_succ_cons]
          exact ih h

/-- Only labels are left open when an operand is encoded. -/
theorem Operand.label_of_encode {o : Operand} {p : Placed} (h : o.encode = .ok p) (name : String) :
    p.label = some name ↔ o.shape = .label name := by
  obtain ⟨shape, address⟩ := o
  cases shape <;> cases address <;> cases h <;> simp

/-- An operand that mentions a label is encoded as an immediate of full width. -/
theorem Operand.eq_of_encode_label {o : Operand} {p : Placed} (h : o.encode = .ok p)
    {name : String} (hlabel : o.shape = .label name) :
    p = { modrm := .wideImmediate 0, label := some name } := by
  obtain ⟨shape, address⟩ := o
  obtain rfl : shape = .label name := hlabel
  cases address <;> cases h
  rfl

namespace Event

/-- A history asks for a name: it imports or exports the name, or an operand mentions it. -/
inductive Needs (events : List Event) (name : String) : Prop
  | imported (h : built (.importing name) ∈ events)
  | exported (h : built (.exporting name) ∈ events)
  | mentioned {i : Instruction} {operands : List Operand} {o : Operand}
      (h : built (.instruction i operands) ∈ events) (ho : o ∈ operands)
      (hlabel : o.shape = .label name)

theorem mem_instructions_iff (events : List Event) (i : Instruction) (operands : List Operand) :
    (i, operands) ∈ instructions events ↔ built (.instruction i operands) ∈ events := by
  rw [instructions, List.mem_filterMap]
  constructor
  · rintro ⟨event, hevent, hsome⟩
    rw [instruction?.eq_def] at hsome
    split at hsome
    · cases hsome
      exact hevent
    · cases hsome
  · intro h
    exact ⟨_, h, rfl⟩

end Event

namespace Code

/-- Where an operand stands in the bytes of an instruction: behind the opcode and the operands
before it. -/
def operandPlace (code : Code) (j : Nat) : Nat :=
  ({ code with operands := code.operands.take j } : Code).size

theorem drop_bytes (labels : Labels) (base : UInt32) {code : Code} {j : Nat} {p : Placed}
    (h : code.operands[j]? = some p) :
    ∃ rest, (code.bytes labels base).drop (code.operandPlace j) =
      (p.linked labels base).encode ++ rest := by
  have hplace : code.operandPlace j =
      (((code.operands.map (Placed.linked labels base)).take j).flatMap
        ModRM.encode).length + 1 := by
    rw [operandPlace, ← length_bytes labels base, bytes, List.length_cons, List.map_take]
  have hlinked : (code.operands.map (Placed.linked labels base))[j]? =
      some (p.linked labels base) := by
    rw [List.getElem?_map, h]
    rfl
  rw [hplace, bytes, List.drop_succ_cons, drop_flatMap _ hlinked]
  exact ⟨_, rfl⟩

end Code

namespace Session

/-- Where an operand of an instruction stands in the bytes of a session. -/
def operandPlace (s : Session) (k j : Nat) : Nat :=
  Code.totalSize (s.code.toList.take k) +
    match s.code.toList[k]? with
    | some code => code.operandPlace j
    | none => 0

/-- The bytes of an image, from one of its operands on. -/
theorem drop_image (s : Session) {k j : Nat} {code : Code} {p : Placed}
    (hcode : s.code.toList[k]? = some code) (hoperand : code.operands[j]? = some p) :
    ∃ rest, s.image.bytes.drop (s.operandPlace k j) =
      (p.linked s.labels s.base).encode ++ rest := by
  obtain ⟨rest, hrest⟩ := Code.drop_bytes s.labels s.base hoperand
  rw [operandPlace, hcode, image, ← List.drop_drop, ← Code.length_flatMap_bytes s.labels s.base,
    drop_flatMap _ hcode, List.drop_append, hrest, List.append_assoc]
  exact ⟨_, rfl⟩

variable {base : UInt32} {events : List Event} {s : Session}

theorem mem_names_iff {i : Instruction} {operands : List Operand} {code : Code}
    (h : assemble i operands = .ok code) (name : String) :
    name ∈ code.names ↔ ∃ o ∈ operands, o.shape = .label name := by
  have hencode := (assemble_eq_ok h).2.2.1
  simp only [Code.names, List.mem_flatMap, Option.mem_toList]
  constructor
  · rintro ⟨p, hp, hname⟩
    have hmem : Except.ok p ∈ (code.operands.map .ok : List (Except Operand.Misfit Placed)) :=
      List.mem_map_of_mem hp
    rw [← hencode] at hmem
    obtain ⟨o, ho, hok⟩ := List.mem_map.mp hmem
    exact ⟨o, ho, (Operand.label_of_encode hok name).mp hname⟩
  · rintro ⟨o, ho, hshape⟩
    have hmem : o.encode ∈ operands.map Operand.encode := List.mem_map_of_mem ho
    rw [hencode] at hmem
    obtain ⟨p, hp, hok⟩ := List.mem_map.mp hmem
    exact ⟨p, hp, (Operand.label_of_encode hok.symm name).mpr hshape⟩

/-- What is imported and exported is what the history imports and exports. -/
theorem Builds.mem_iff (h : Builds { base } events s) (name : String) :
    (name ∈ s.imports ↔ .built (.importing name) ∈ events) ∧
      (name ∈ s.exports ↔ .built (.exporting name) ∈ events) := by
  induction h with
  | start => simp
  | step _ hstep ih =>
      obtain ⟨himports, hexports⟩ := ih
      cases hstep with
      | importing | exporting =>
          simp [addExport, addImport, himports, hexports, @eq_comm String name, or_comm]
      | _ => simp [beginFile, push, withLabel, himports, hexports]

theorem Builds.mem_flatMap_names_iff (h : Builds { base } events s) (name : String) :
    name ∈ s.code.toList.flatMap Code.names ↔
      ∃ i operands o, .built (.instruction i operands) ∈ events ∧ o ∈ operands ∧
        o.shape = .label name := by
  have hcodes := h.code_eq
  rw [List.map_nil, List.nil_append] at hcodes
  rw [List.mem_flatMap]
  constructor
  · rintro ⟨code, hcode, hname⟩
    have hmem : Except.ok code ∈ (s.code.toList.map .ok : List (Except AssemblyError Code)) :=
      List.mem_map_of_mem hcode
    rw [hcodes] at hmem
    obtain ⟨⟨i, operands⟩, hwritten, hassemble⟩ := List.mem_map.mp hmem
    obtain ⟨o, ho, hshape⟩ := (mem_names_iff hassemble name).mp hname
    exact ⟨i, operands, o, (Event.mem_instructions_iff ..).mp hwritten, ho, hshape⟩
  · rintro ⟨i, operands, o, hwritten, ho, hshape⟩
    have hmem : assemble i operands ∈
        (Event.instructions events).map fun written => assemble written.1 written.2 :=
      List.mem_map_of_mem (a := (i, operands)) ((Event.mem_instructions_iff ..).mpr hwritten)
    rw [← hcodes] at hmem
    obtain ⟨code, hcode, hassemble⟩ := List.mem_map.mp hmem
    exact ⟨code, hcode, (mem_names_iff hassemble.symm name).mpr ⟨o, ho, hshape⟩⟩

/-- Linking demands what the history asks for. -/
theorem Builds.mem_demanded_iff (h : Builds { base } events s) (name : String) :
    name ∈ s.demanded ↔ Event.Needs events name := by
  rw [demanded, List.mem_append, List.mem_append, Std.ExtTreeSet.mem_toList,
    Std.ExtTreeSet.mem_toList, (h.mem_iff name).1, (h.mem_iff name).2, h.mem_flatMap_names_iff]
  constructor
  · rintro (himported | hexported | ⟨i, operands, o, hwritten, ho, hshape⟩)
    · exact .imported himported
    · exact .exported hexported
    · exact .mentioned hwritten ho hshape
  · rintro (himported | hexported | ⟨hwritten, ho, hshape⟩)
    · exact .inl himported
    · exact .inr (.inl hexported)
    · exact .inr (.inr ⟨_, _, _, hwritten, ho, hshape⟩)

/-- An operand that mentions a bound name reads back from its place in the image as the address of
the name, in full width. -/
theorem Builds.decode_label (h : Builds { base } events s) {k j : Nat} {i : Instruction}
    {operands : List Operand} {o : Operand} {name : String} {offset : UInt32}
    (hk : (Event.instructions events)[k]? = some (i, operands)) (hj : operands[j]? = some o)
    (hshape : o.shape = .label name) (hoffset : s.labels.find? name = some offset) :
    ∃ rest, (ModRM.decode : SliceM ModRM) (s.image.bytes.drop (s.operandPlace k j)) =
      .ok ⟨0, 0x06, s.base + offset⟩ rest := by
  obtain ⟨code, hcode, hassemble⟩ := h.exists_code hk
  have hplace := congrArg (·[j]?) (assemble_eq_ok hassemble).2.2.1
  simp only [List.getElem?_map, hj, Option.map_some] at hplace
  obtain ⟨p, hp, hencode⟩ := Option.map_eq_some_iff.mp hplace.symm
  obtain rfl := Operand.eq_of_encode_label hencode.symm hshape
  obtain ⟨rest, hrest⟩ := s.drop_image hcode hp
  have hlinked : ({ modrm := .wideImmediate 0, label := some name } : Placed).linked s.labels
      s.base = .wideImmediate (s.base + offset) := by
    simp only [Placed.linked, Option.bind_some, hoffset]
    rfl
  have hnarrowed : (ModRM.wideImmediate (s.base + offset)).narrowed = _ :=
    ModRM.narrowed_masked 0 _ _ (ModRM.ofMode?_immediate .word) rfl
  rw [hrest, hlinked, ModRM.decode_encode, hnarrowed]
  exact ⟨rest, rfl⟩

/-- Linking succeeds exactly if every name is bound that the session imports, exports or mentions in
an operand, and otherwise it reports one that is not.  The symbols of the image are the exported
names with their addresses, and every operand that mentions a name holds its address in full
width. -/
theorem linking_exact (base : UInt32) (edits : List Edit) :
    let s := ({ base } : Session).after edits
    let events := ({ base } : Session).history edits
    ((∃ image, s.finish = .ok image) ↔
      ∀ name, Event.Needs events name → s.labels.find? name ≠ none) ∧
    (∀ e, s.finish = .error e → Event.Needs events e.label ∧ s.labels.find? e.label = none) ∧
    ∀ image, s.finish = .ok image →
      (∀ (name : String) (address : UInt32), image.symbols[name]? = some address ↔
        .built (.exporting name) ∈ events ∧
          ∃ offset, s.labels.find? name = some offset ∧ address = base + offset) ∧
      ∀ k j i operands o name, (Event.instructions events)[k]? = some (i, operands) →
        operands[j]? = some o → o.shape = .label name →
          ∃ offset rest, s.labels.find? name = some offset ∧
            (ModRM.decode : SliceM ModRM) (image.bytes.drop (s.operandPlace k j)) =
              .ok ⟨0, 0x06, base + offset⟩ rest := by
  intro s events
  have hbuilds : Builds { base } events s := builds_history { base } edits
  have hbase : s.base = base := hbuilds.base_eq
  refine ⟨?_, ?_, ?_⟩
  · simp only [finish_eq_demand, Labels.demand_eq_ok_iff, hbuilds.mem_demanded_iff]
    exact ⟨fun ⟨_, hbound, _⟩ => hbound, fun hbound => ⟨_, hbound, rfl⟩⟩
  · intro e he
    rw [finish_eq_demand, Labels.demand_eq_error_iff] at he
    have hfree := List.find?_some he
    exact ⟨(hbuilds.mem_demanded_iff _).mp (List.mem_of_find?_eq_some he), by simpa using hfree⟩
  · intro image himage
    rw [finish_eq_demand, Labels.demand_eq_ok_iff] at himage
    obtain ⟨hbound, rfl⟩ := himage
    simp only [hbuilds.mem_demanded_iff] at hbound
    constructor
    · intro name address
      rw [getElem?_symbols, ← (hbuilds.mem_iff name).2, hbase]
      by_cases hname : name ∈ s.exports
      · obtain ⟨offset, hoffset⟩ := Option.ne_none_iff_exists'.mp
          (hbound name (.exported ((hbuilds.mem_iff name).2.mp hname)))
        simp [hname, hoffset, eq_comm]
      · simp [hname]
    · intro k j i operands o name hk hj hshape
      have hwritten := (Event.mem_instructions_iff ..).mp (List.mem_of_getElem? hk)
      obtain ⟨offset, hoffset⟩ := Option.ne_none_iff_exists'.mp
        (hbound name (.mentioned hwritten (List.mem_of_getElem? hj) hshape))
      obtain ⟨rest, hrest⟩ := hbuilds.decode_label hk hj hshape hoffset
      rw [hbase] at hrest
      exact ⟨offset, rest, hoffset, hrest⟩

/-- A first operand and the second one of a comparison mention names that are bound behind them.
Without the last of the calls one of the names is not bound. -/
theorem linking_exact_forward :
    let edits : List Edit := [.append .krz [{ shape := .label "f" }, { shape := .register .f0 }],
      .append .clo [{ shape := .register .f0 }, { shape := .label "g" }],
      .addExport "g", .bindNext "g"]
    let s := ({ base := 0xFFFFFFF8 } : Session).after edits
    let t := ({ base := 0xFFFFFFF8 } : Session).after (edits ++ [.bindPrevious "f"])
    (∃ e, s.finish = .error e ∧ s.labels.find? e.label = none) ∧
      ∃ image, t.finish = .ok image ∧ image.symbols["g"]? = some 6 ∧
        ∃ rest, (ModRM.decode : SliceM ModRM) (image.bytes.drop 9) = .ok ⟨0, 0x06, 6⟩ rest := by
  intro edits s t
  obtain ⟨hunlinked, hfree, _⟩ := linking_exact 0xFFFFFFF8 edits
  obtain ⟨hlinked, _, himage⟩ := linking_exact 0xFFFFFFF8 (edits ++ [.bindPrevious "f"])
  have hbefore := builds_history { base := 0xFFFFFFF8 } edits
  have hafter := builds_history { base := 0xFFFFFFF8 } (edits ++ [.bindPrevious "f"])
  constructor
  · rcases hfinish : s.finish with e | image
    · exact ⟨e, rfl, (hfree e hfinish).2⟩
    · have hdemanded : "f" ∈ s.demanded ∧ s.labels.find? "f" = none := by decide +kernel
      have hneeds := (hbefore.mem_demanded_iff "f").mp hdemanded.1
      exact absurd hdemanded.2 (hunlinked.mp ⟨image, hfinish⟩ "f" hneeds)
  · have hbound : ∀ name ∈ t.demanded, t.labels.find? name ≠ none := by decide +kernel
    obtain ⟨image, hfinish⟩ := hlinked.mpr fun name hname =>
      hbound name ((hafter.mem_demanded_iff name).mpr hname)
    obtain ⟨hsymbols, hplaces⟩ := himage image hfinish
    have hlabel : t.labels.find? "g" = some 14 ∧ t.operandPlace 1 1 = 9 := by decide +kernel
    have hexported := (hafter.mem_iff "g").2.mp (by decide +kernel)
    obtain ⟨offset, rest, hoffset, hrest⟩ := hplaces 1 1 .clo
      [{ shape := .register .f0 }, { shape := .label "g" }] _ "g" (by decide +kernel) rfl rfl
    obtain rfl : 14 = offset := Option.some.inj (hlabel.1.symm.trans hoffset)
    rw [hlabel.2] at hrest
    exact ⟨image, hfinish, (hsymbols "g" 6).mpr ⟨hexported, 14, hlabel.1, rfl⟩, rest, hrest⟩

end Session

end Cpu32
