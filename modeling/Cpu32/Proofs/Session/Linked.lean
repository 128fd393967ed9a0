import Cpu32.Proofs.Codec.Image
import Cpu32.Proofs.Session.History

/-!
# Linked instructions

What the operands of a linked instruction denote when they are read back, and how the code of a
session and the bytes of its image follow from the instructions that were written.
-/

namespace Cpu32

/-- The narrowest width keeps the value. -/
theorem Width.narrow_ofValue (value : UInt32) : (Width.ofValue value).narrow value = value := by
  have hbyte : value ≤ 0xFF ↔ value.toNat ≤ 255 := UInt32.le_iff_toNat_le
  have hhalf : value ≤ 0xFFFF ↔ value.toNat ≤ 65535 := UInt32.le_iff_toNat_le
  apply UInt32.toNat_inj.mp
  rw [toNat_narrow, ofValue]
  simp only [hbyte, hhalf]
  by_cases h₁ : value.toNat ≤ 255
  · rw [if_pos h₁]
    exact Nat.mod_eq_of_lt (Nat.lt_succ_of_le h₁)
  · rw [if_neg h₁]
    by_cases h₂ : value.toNat ≤ 65535
    · rw [if_pos h₂]
      exact Nat.mod_eq_of_lt (Nat.lt_succ_of_le h₂)
    · rw [if_neg h₂]

namespace ModRM

/-- Narrowing cuts only the value of a descriptor that is cut already. -/
theorem narrowed_masked (reg mode : UInt8) (value : UInt32) {w : Width}
    (hmode : Width.ofMode? mode = some w) (hvalue : w.narrow value = value) :
    (masked reg mode value).narrowed = masked reg mode value := by
  rw [narrowed, width_masked, hmode]
  simp only [masked, UInt8.and_assoc, UInt8.and_self, hvalue]

theorem narrowed_register (r : Register) : (register r).narrowed = register r := by
  cases r <;> rfl

theorem narrowed_indirect (base : Register) : (indirect base).narrowed = indirect base := by
  cases base <;> rfl

theorem narrowed_indexed (base index : Register) :
    (indexed base index).narrowed = indexed base index := by
  cases base <;> cases index <;> rfl

theorem ofMode?_immediate (w : Width) : Width.ofMode? (0x04 ||| w.modeBits) = some w := by
  cases w <;> rfl

theorem ofMode?_displaced (w : Width) : Width.ofMode? (0x14 ||| w.modeBits) = some w := by
  cases w <;> rfl

theorem addressing_immediate (w : Width) (value : UInt32) :
    (masked 0 (0x04 ||| w.modeBits) value).addressing = some (.immediate value w) := by
  have hregister : ¬ (0x04 ||| w.modeBits) &&& 0x1F = 0x00 := by
    cases w <;> decide
  have himmediate : 0x04 ≤ (0x04 ||| w.modeBits) &&& 0x1F ∧
      (0x04 ||| w.modeBits) &&& 0x1F ≤ 0x06 := by
    cases w <;> decide
  rw [addressing, width_masked, ofMode?_immediate]
  exact (if_neg hregister).trans (if_pos himmediate)

theorem addressing_displaced (base : Register) (w : Width) (value : UInt32) :
    (masked base.code (0x14 ||| w.modeBits) value).addressing =
      some (.memory (.displaced base value)) := by
  have hbase : Register.select (base.code &&& 0x07) = base := by
    cases base <;> rfl
  have hbits : (0x14 ||| w.modeBits) &&& 0x1F = 0x10 ||| w.modeBits := by
    cases w <;> rfl
  simp only [addressing, masked, hbits, hbase]
  cases w <;> rfl

theorem addressing_register (r : Register) : (register r).addressing = some (.register r) := by
  cases r <;> rfl

theorem addressing_indirect (base : Register) :
    (indirect base).addressing = some (.memory (.indirect base)) := by
  cases base <;> rfl

theorem addressing_indexed (base index : Register) :
    (indexed base index).addressing = some (.memory (.indexed base index)) := by
  cases base <;> cases index <;> rfl

end ModRM

/-- Whatever the address of a label is, it is encoded in full width. -/
theorem Placed.linked_label (labels : Labels) (base : UInt32) (name : String) :
    ∃ value, ({ modrm := .wideImmediate 0, label := some name } : Placed).linked labels base =
      .wideImmediate value := by
  rw [linked, Option.bind_some]
  cases labels.find? name with
  | none => exact ⟨0, rfl⟩
  | some offset => exact ⟨base + offset, rfl⟩

namespace Operand

variable (labels : Labels) (base : UInt32)

/-- What an operand of a linked instruction denotes, if it can be encoded and its label is bound.
An immediate is as wide as its value asks for, and a label is a full word. -/
def form? (o : Operand) : Option Addressing :=
  match o.shape, o.address with
  | .immediate value, false => some (.immediate value (Width.ofValue value))
  | .register r, false => some (.register r)
  | .register r, true => some (.memory (.indirect r))
  | .displaced r displacement, true => some (.memory (.displaced r displacement))
  | .indexed r index, true => some (.memory (.indexed r index))
  | .label name, false =>
      (labels.find? name).map fun offset => .immediate (base + offset) .word
  | _, _ => none

/-- The descriptor of an encoded operand has no bits that its encoding drops. -/
theorem narrowed_linked {o : Operand} {p : Placed} (hencode : o.encode = .ok p) :
    (p.linked labels base).narrowed = p.linked labels base := by
  obtain ⟨shape, address⟩ := o
  cases shape with
  | immediate value =>
      cases address <;> cases hencode
      exact ModRM.narrowed_masked _ _ _ (ModRM.ofMode?_immediate _) (Width.narrow_ofValue value)
  | register r =>
      cases address <;> cases hencode
      · exact ModRM.narrowed_register r
      · exact ModRM.narrowed_indirect r
  | displaced r displacement =>
      cases address <;> cases hencode
      exact ModRM.narrowed_masked _ _ _ (ModRM.ofMode?_displaced _)
        (Width.narrow_ofValue displacement)
  | indexed r index =>
      cases address <;> cases hencode
      exact ModRM.narrowed_indexed r index
  | label name =>
      cases address <;> cases hencode
      obtain ⟨value, hvalue⟩ := Placed.linked_label labels base name
      rw [hvalue]
      exact ModRM.narrowed_masked _ _ _ (ModRM.ofMode?_immediate .word) rfl

/-- An encoded operand denotes, once it is linked and read back, what the operand says. -/
theorem addressing_linked {o : Operand} {p : Placed} (hencode : o.encode = .ok p)
    (hbound : p.IsBound labels) :
    (p.linked labels base).narrowed.addressing = o.form? labels base := by
  rw [narrowed_linked labels base hencode]
  obtain ⟨shape, address⟩ := o
  cases shape with
  | immediate value =>
      cases address <;> cases hencode
      exact ModRM.addressing_immediate _ value
  | register r =>
      cases address <;> cases hencode
      · exact ModRM.addressing_register r
      · exact ModRM.addressing_indirect r
  | displaced r displacement =>
      cases address <;> cases hencode
      exact ModRM.addressing_displaced r _ displacement
  | indexed r index =>
      cases address <;> cases hencode
      exact ModRM.addressing_indexed r index
  | label name =>
      cases address <;> cases hencode
      obtain ⟨offset, hoffset⟩ := Option.ne_none_iff_exists'.mp (hbound name rfl)
      have hlinked : ({ modrm := .wideImmediate 0, label := some name } : Placed).linked labels base
          = ModRM.wideImmediate (base + offset) := by
        simp only [Placed.linked, Option.bind_some, hoffset]
        rfl
      rw [hlinked]
      simp only [form?, hoffset, Option.map_some]
      exact ModRM.addressing_immediate .word _

theorem exists_form? {o : Operand} {p : Placed} (hencode : o.encode = .ok p)
    (hbound : p.IsBound labels) : ∃ form, o.form? labels base = some form := by
  obtain ⟨shape, address⟩ := o
  cases shape <;> cases address <;> cases hencode
  case label name =>
    obtain ⟨offset, hoffset⟩ := Option.ne_none_iff_exists'.mp (hbound name rfl)
    simp only [form?, hoffset]
    exact ⟨_, rfl⟩
  all_goals exact ⟨_, rfl⟩

/-- Only values have no place to store to. -/
theorem isWritable_of_form? {o : Operand} {form : Addressing}
    (hform : o.form? labels base = some form) (hvalue : ¬ o.isValueOnly) : form.isWritable := by
  obtain ⟨shape, address⟩ := o
  cases shape with
  | immediate value => exact absurd rfl hvalue
  | label name => exact absurd rfl hvalue
  | _ =>
      cases address <;> cases hform
      all_goals rfl

/-- The operands of an accepted instruction denote something each. -/
theorem exists_forms {operands : List Operand} {placed : List Placed}
    (hencode : operands.map encode = placed.map .ok) (hbound : ∀ p ∈ placed, p.IsBound labels) :
    ∃ forms : List Addressing, operands.map (form? labels base) = forms.map some ∧
      (placed.map (Placed.linked labels base)).map (fun d => d.narrowed.addressing) =
        forms.map some := by
  induction operands generalizing placed with
  | nil =>
      cases placed with
      | nil => exact ⟨[], rfl, rfl⟩
      | cons p rest => cases hencode
  | cons o others ih =>
      cases placed with
      | nil => cases hencode
      | cons p rest =>
          rw [List.map_cons, List.map_cons, List.cons.injEq] at hencode
          rw [List.forall_mem_cons] at hbound
          obtain ⟨forms, hforms, hread⟩ := ih hencode.2 hbound.2
          obtain ⟨form, hform⟩ := exists_form? labels base hencode.1 hbound.1
          have hfirst := addressing_linked labels base hencode.1 hbound.1
          refine ⟨form :: forms, by rw [List.map_cons, List.map_cons, hform, hforms], ?_⟩
          rw [List.map_cons, List.map_cons, List.map_cons, hfirst, hform, hread]

theorem isWritable_of_forms {operands : List Operand} {forms : List Addressing}
    (hforms : operands.map (form? labels base) = forms.map some)
    (hplaces : ∀ o ∈ operands, ¬ o.isValueOnly) : ∀ form ∈ forms, form.isWritable := by
  intro form hform
  have hmem : some form ∈ operands.map (form? labels base) := by
    rw [hforms]
    exact List.mem_map_of_mem hform
  obtain ⟨o, ho, hsome⟩ := List.mem_map.mp hmem
  exact isWritable_of_form? labels base hsome (hplaces o ho)

end Operand

namespace Session

theorem place_eq_ok {i : Instruction} {position : Nat} {operand : Operand} {placed : Placed}
    (h : place i position operand = .ok placed) :
    operand.encode = .ok placed ∧
      (1 < position → ¬ i.isComparison → ¬ operand.isValueOnly) := by
  rw [place] at h
  split at h
  · cases h
  · rename_i hallowed
    split at h
    · rename_i hencode
      cases h
      exact ⟨hencode, fun hposition hcompare hvalue => hallowed ⟨hposition, hcompare, hvalue⟩⟩
    · cases h

theorem placeFrom_eq_ok {i : Instruction} {position : Nat} {operands : List Operand}
    {placed : List Placed} (h : placeFrom i position operands = .ok placed) :
    operands.map Operand.encode = placed.map .ok ∧
      (1 < position → ¬ i.isComparison → ∀ o ∈ operands, ¬ o.isValueOnly) := by
  induction operands generalizing position placed with
  | nil =>
      cases h
      exact ⟨rfl, fun _ _ o ho => by cases ho⟩
  | cons operand rest ih =>
      obtain ⟨first, hfirst, h⟩ := exceptBind_eq_ok_iff.mp h
      obtain ⟨others, hothers, h⟩ := exceptBind_eq_ok_iff.mp h
      cases h
      obtain ⟨hencode, hallowed⟩ := place_eq_ok hfirst
      obtain ⟨hrest, hplaces⟩ := ih hothers
      refine ⟨by rw [List.map_cons, List.map_cons, hencode, hrest], ?_⟩
      intro hposition hcompare o ho
      rcases List.mem_cons.mp ho with rfl | ho
      · exact hallowed hposition hcompare
      · exact hplaces (by omega) hcompare o ho

/-- What is known of an instruction that was accepted. -/
theorem assemble_eq_ok {i : Instruction} {operands : List Operand} {code : Code}
    (h : assemble i operands = .ok code) :
    code.instruction = i ∧ operands.length = i.arity ∧
      operands.map Operand.encode = code.operands.map .ok ∧
      (¬ i.isComparison → ∀ o ∈ operands.tail, ¬ o.isValueOnly) := by
  rw [assemble] at h
  split at h
  · cases h
  · rename_i harity
    obtain ⟨placed, hplaced, rfl⟩ := exceptMap_eq_ok_iff.mp h
    refine ⟨rfl, Decidable.not_not.mp harity, (placeFrom_eq_ok hplaced).1, ?_⟩
    cases operands with
    | nil => exact fun _ o ho => by cases ho
    | cons first rest =>
        obtain ⟨_, _, hplaced⟩ := exceptBind_eq_ok_iff.mp hplaced
        obtain ⟨others, hothers, _⟩ := exceptBind_eq_ok_iff.mp hplaced
        exact (placeFrom_eq_ok hothers).2 (by decide)

theorem Step.base_eq {s t : Session} {event : Event} (h : Step s event t) : t.base = s.base := by
  cases h <;> rfl

/-- The code of a session is what its instructions are encoded to, in order. -/
theorem Builds.code_eq {s t : Session} {events : List Event} (h : Builds s events t) :
    t.code.toList.map .ok = s.code.toList.map .ok ++
      (Event.instructions events).map fun written => assemble written.1 written.2 := by
  induction h with
  | start => exact (List.append_nil _).symm
  | step hbuilds hstep ih =>
      rw [Event.instructions, List.filterMap_append, List.map_append, ← List.append_assoc]
      rw [← Event.instructions, ← ih]
      cases hstep with
      | instruction hcode =>
          simp [push, Event.instruction?, hcode]
      | _ => simp [Event.instruction?, beginFile, withLabel, addExport, addImport]

/-- Every written instruction has its place in the code. -/
theorem Builds.exists_code {base : UInt32} {events : List Event} {t : Session}
    (h : Builds { base } events t) {k : Nat} {i : Instruction} {operands : List Operand}
    (hk : (Event.instructions events)[k]? = some (i, operands)) :
    ∃ code, t.code.toList[k]? = some code ∧ assemble i operands = .ok code := by
  have hplace := congrArg (fun codes => codes[k]?) h.code_eq
  simp only [List.map_nil, List.nil_append, List.getElem?_map, hk, Option.map_some] at hplace
  obtain ⟨code, hcode, hassemble⟩ := Option.map_eq_some_iff.mp hplace
  exact ⟨code, hcode, hassemble.symm⟩

/-- Each instruction of a session was accepted. -/
theorem Builds.exists_assemble {base : UInt32} {events : List Event} {t : Session}
    (h : Builds { base } events t) {code : Code} (hcode : code ∈ t.code.toList) :
    ∃ i operands, assemble i operands = .ok code := by
  have hmem : Except.ok code ∈ (t.code.toList.map .ok : List (Except AssemblyError Code)) :=
    List.mem_map_of_mem hcode
  rw [h.code_eq, List.map_nil, List.nil_append] at hmem
  obtain ⟨⟨i, operands⟩, _, hassemble⟩ := List.mem_map.mp hmem
  exact ⟨i, operands, hassemble⟩

theorem Builds.base_eq {s t : Session} {events : List Event} (h : Builds s events t) :
    t.base = s.base := by
  induction h with
  | start => rfl
  | step _ hstep ih => rw [hstep.base_eq, ih]

/-- The names that linking needs, in order. -/
def demanded (s : Session) : List String :=
  s.imports.toList ++ (s.exports.toList ++ s.code.toList.flatMap Code.names)

/-- The image of a session in which all names are bound that linking needs. -/
def image (s : Session) : Image where
  base := s.base
  bytes := s.code.toList.flatMap (Code.bytes s.labels s.base)
  symbols := .ofList <| s.exports.toList.map fun name =>
    (name, s.base + (s.labels.find? name).getD 0)

theorem addressOf_eq_demand (s : Session) (name : String) :
    s.addressOf name =
      s.labels.demand [name] (s.base + (s.labels.find? name).getD 0) := by
  cases h : s.labels.find? name <;>
    simp [addressOf, Labels.resolve, Labels.demand, h, Except.map]

theorem forM_addressOf (s : Session) (names : List String) :
    (names.forM fun name => discard (s.addressOf name)) = s.labels.demand names () := by
  induction names with
  | nil => rfl
  | cons name rest ih =>
      have hfirst : discard (s.addressOf name) = s.labels.demand [name] () := by
        rw [addressOf_eq_demand]
        exact s.labels.demand_map ..
      rw [List.forM, hfirst]
      exact s.labels.demand_bind ih

/-- Linking fails at the first name that is needed and not bound. -/
theorem finish_eq_demand (s : Session) : s.finish = s.labels.demand s.demanded s.image := by
  have hsymbol (name : String) :
      (do return (name, ← s.addressOf name) : Except UndefinedLabel (String × UInt32)) =
        s.labels.demand [name] (name, s.base + (s.labels.find? name).getD 0) := by
    rw [addressOf_eq_demand]
    exact s.labels.demand_bind_pure ..
  rw [finish, forM_addressOf, s.labels.demand_mapM hsymbol, Code.emit_eq_demand]
  apply s.labels.demand_bind
  rw [List.flatMap_singleton']
  exact s.labels.demand_bind (s.labels.demand_bind_pure ..)

/-- An image consists of the bytes of the code with all labels bound. -/
theorem finish_eq_ok {s : Session} {image : Image} (h : s.finish = .ok image) :
    image.base = s.base ∧ (∀ code ∈ s.code.toList, code.IsBound s.labels) ∧
      image.bytes = s.code.toList.flatMap (Code.bytes s.labels s.base) := by
  rw [finish_eq_demand, Labels.demand_eq_ok_iff] at h
  obtain ⟨hbound, rfl⟩ := h
  refine ⟨rfl, fun code hcode => (code.isBound_iff s.labels).mpr fun name hname => ?_, rfl⟩
  apply hbound
  simp only [demanded, List.mem_append, List.mem_flatMap]
  exact .inr (.inr ⟨code, hcode, hname⟩)

/-- The symbols of an image are the exported names. -/
theorem getElem?_symbols (s : Session) (name : String) :
    s.image.symbols[name]? =
      if name ∈ s.exports then some (s.base + (s.labels.find? name).getD 0) else none := by
  split
  · rename_i hname
    apply Std.ExtTreeMap.getElem?_ofList_of_mem (Std.ReflCmp.compare_self (a := name))
    · simpa [List.pairwise_map] using Std.ExtTreeSet.distinct_toList (t := s.exports)
    · exact List.mem_map_of_mem (Std.ExtTreeSet.mem_toList.mpr hname)
  · rename_i hname
    apply Std.ExtTreeMap.getElem?_ofList_of_contains_eq_false
    simpa using hname

end Session

end Cpu32
