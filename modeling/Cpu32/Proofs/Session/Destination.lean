import Cpu32.Proofs.Machine.Perform
import Cpu32.Proofs.Session.Linked

/-!
# Destinations

Of the instructions whose operands can be encoded the assembler accepts those that no state of the
machine refuses.  What it looks at are the positions of values among the operands, and what the
machine comes upon is a store to one of them.
-/

namespace Cpu32

namespace Operand

variable (labels : Labels) (base : UInt32)

/-- An encoded operand has a meaning, and is a place unless the operand is a value.  The address of
a label does not matter. -/
theorem exists_addressing {o : Operand} {p : Placed} (hencode : o.encode = .ok p) :
    ∃ form, (p.linked labels base).addressing = some form ∧ form.isWritable = !o.isValueOnly := by
  obtain ⟨shape, address⟩ := o
  cases shape with
  | immediate value =>
      cases address <;> cases hencode
      exact ⟨_, ModRM.addressing_immediate _ value, rfl⟩
  | register r =>
      cases address <;> cases hencode
      · exact ⟨_, ModRM.addressing_register r, rfl⟩
      · exact ⟨_, ModRM.addressing_indirect r, rfl⟩
  | displaced r displacement =>
      cases address <;> cases hencode
      exact ⟨_, ModRM.addressing_displaced r _ displacement, rfl⟩
  | indexed r index =>
      cases address <;> cases hencode
      exact ⟨_, ModRM.addressing_indexed r index, rfl⟩
  | label name =>
      cases address <;> cases hencode
      obtain ⟨value, hlinked⟩ := Placed.linked_label labels base name
      rw [hlinked]
      exact ⟨_, ModRM.addressing_immediate .word value, rfl⟩

/-- Encoded operands have a meaning each, and the values among them are no places. -/
theorem exists_addressings {operands : List Operand} {placed : List Placed}
    (hencode : operands.map encode = placed.map .ok) :
    ∃ forms : List Addressing,
      placed.map (fun p => (p.linked labels base).addressing) = forms.map some ∧
        forms.map Addressing.isWritable = operands.map fun o => !o.isValueOnly := by
  induction operands generalizing placed with
  | nil =>
      obtain rfl : placed = [] := List.map_eq_nil_iff.mp hencode.symm
      exact ⟨[], rfl, rfl⟩
  | cons o others ih =>
      obtain ⟨p, rest, rfl, hfirst, hothers⟩ := List.map_eq_cons_iff.mp hencode.symm
      obtain ⟨form, hform, hplace⟩ := exists_addressing labels base hfirst.symm
      obtain ⟨forms, hforms, hplaces⟩ := ih hothers.symm
      refine ⟨form :: forms, ?_, ?_⟩
      · rw [List.map_cons, List.map_cons, hform, hforms]
      · rw [List.map_cons, List.map_cons, hplace, hplaces]

end Operand

namespace Instruction

/-- No operand that the instruction stores to is a value. -/
def StoresToPlaces (i : Instruction) (operands : List Operand) : Prop :=
  ¬ i.isComparison → ∀ o ∈ operands.tail, ¬ o.isValueOnly

theorem isStorable_iff_storesToPlaces {i : Instruction} {operands : List Operand}
    {forms : List Addressing} {action : Action} (haction : i.action? forms = some action)
    (hwritable : forms.map Addressing.isWritable = operands.map fun o => !o.isValueOnly) :
    action.IsStorable ↔ i.StoresToPlaces operands := by
  have htail : forms.tail.map Addressing.isWritable =
      operands.tail.map fun o => !o.isValueOnly := by
    rw [List.map_tail, List.map_tail, hwritable]
  have hplaces : (∀ form ∈ forms.tail, form.isWritable) ↔
      ∀ o ∈ operands.tail, ¬ o.isValueOnly := by
    rw [← List.forall_mem_map (P := (· = true)), htail, List.forall_mem_map]
    simp
  rw [isStorable_iff haction, hplaces, StoresToPlaces]

end Instruction

namespace Session

variable {i : Instruction} {operands : List Operand} {placed : List Placed}

/-- Operands that can be encoded are placed unless there is a value in place of a destination, and
then the first such value is named. -/
theorem placeFrom_cases (i : Instruction) (position : Nat)
    (hencode : operands.map Operand.encode = placed.map .ok) :
    placeFrom i position operands = .ok placed ∨
      ∃ k operand, operands[k]? = some operand ∧ 1 < position + k ∧ ¬ i.isComparison ∧
        operand.isValueOnly ∧ placeFrom i position operands =
          .error (.invalidOperand i (position + k) operand.text .notWritable) := by
  induction operands generalizing position placed with
  | nil =>
      obtain rfl : placed = [] := List.map_eq_nil_iff.mp hencode.symm
      exact .inl rfl
  | cons o others ih =>
      obtain ⟨p, rest, rfl, hfirst, hothers⟩ := List.map_eq_cons_iff.mp hencode.symm
      by_cases hvalue : 1 < position ∧ ¬ i.isComparison ∧ o.isValueOnly
      · refine .inr ⟨0, o, rfl, hvalue.1, hvalue.2.1, hvalue.2.2, ?_⟩
        rw [placeFrom, place, if_pos hvalue]
        rfl
      · have hplace : place i position o = .ok p := by
          rw [place, if_neg hvalue, ← hfirst]
        rw [placeFrom, exceptBind_of_ok hplace]
        rcases ih (position + 1) hothers.symm with
          hok | ⟨k, operand, hget, hk, hcompare, hvalue', herror⟩
        · left
          rw [hok]
          rfl
        · right
          refine ⟨k + 1, operand, hget, by omega, hcompare, hvalue', ?_⟩
          rw [herror, Nat.add_right_comm]
          rfl

/-- An instruction with operands that can be encoded is appended, or refused for a value in place of
a destination. -/
theorem append_cases (s : Session) (harity : operands.length = i.arity)
    (hencode : operands.map Operand.encode = placed.map .ok) :
    s.append i operands = .ok () (s.push ⟨i, placed⟩) ∧ i.StoresToPlaces operands ∨
      (∃ k operand, 0 < k ∧ operands[k]? = some operand ∧ operand.isValueOnly ∧
        s.append i operands = .error (.invalidOperand i (k + 1) operand.text .notWritable) s) ∧
        ¬ i.StoresToPlaces operands := by
  have hassemble : assemble i operands = (placeFrom i 1 operands).map fun placed => ⟨i, placed⟩ :=
    if_neg (not_not_intro harity)
  rcases placeFrom_cases i 1 hencode with hok | ⟨k, operand, hget, hk, hcompare, hvalue, herror⟩
  · rw [hok] at hassemble
    refine .inl ⟨(append_eq_ok_iff i operands).mpr ⟨_, hassemble, rfl⟩, ?_⟩
    exact (assemble_eq_ok hassemble).2.2.2
  · rw [herror, Nat.add_comm] at hassemble
    have hlater : operands.tail[k - 1]? = some operand := by
      rw [List.getElem?_tail, Nat.sub_add_cancel (by omega), hget]
    refine .inr ⟨⟨k, operand, by omega, hget, hvalue, append_of_refused hassemble s⟩, ?_⟩
    intro hplaces
    exact hplaces hcompare operand (List.mem_of_getElem? hlater) hvalue

/-- An instruction whose operands can all be encoded is accepted exactly if it can be performed in
every state of the machine, whatever the addresses of its labels.  If it is refused, a value is
named that stands in place of a destination, and in some state the machine refuses it for such a
value too. -/
theorem append_iff_performs (s : Session) (labels : Labels) (base : UInt32) (i : Instruction)
    (operands : List Operand) (placed : List Placed) (harity : operands.length = i.arity)
    (hencode : operands.map Operand.encode = placed.map .ok) :
    ∃ (forms : List Addressing) (action : Action),
      placed.map (fun p => (p.linked labels base).addressing) = forms.map some ∧
      i.action? forms = some action ∧
      ((∃ t, s.append i operands = .ok () t) ↔ ∀ pc m, Succeeds (action.perform ⟨i, pc⟩) m) ∧
      ∀ cause t, s.append i operands = .error cause t →
        (∃ k operand, 0 < k ∧ operands[k]? = some operand ∧ operand.isValueOnly ∧
          cause = .invalidOperand i (k + 1) operand.text .notWritable) ∧
        ∃ m, ∀ pc, ∃ mode next,
          action.perform ⟨i, pc⟩ m = .error (.invalidDestination i mode pc) next := by
  obtain ⟨forms, hforms, hwritable⟩ := Operand.exists_addressings labels base hencode
  have hcount : forms.length = i.arity := by
    rw [← harity, ← List.length_map Addressing.isWritable, hwritable, List.length_map]
  obtain ⟨action, haction⟩ := i.exists_action? hcount
  have hstorable : action.IsStorable ↔ i.StoresToPlaces operands :=
    Instruction.isStorable_iff_storesToPlaces haction hwritable
  obtain ⟨flagged, hflag⟩ := Machine.exists_flag
  refine ⟨forms, action, hforms, haction, ?_, ?_⟩
  · constructor
    · rintro ⟨t, hok⟩ pc m
      rcases append_cases s harity hencode with ⟨_, hplaces⟩ | ⟨⟨_, _, _, _, _, herror⟩, _⟩
      · exact Action.succeeds_perform (hstorable.mpr hplaces) ⟨i, pc⟩ m
      · cases hok.symm.trans herror
    · intro hperforms
      rcases append_cases s harity hencode with ⟨hok, _⟩ | ⟨_, hplaces⟩
      · exact ⟨_, hok⟩
      · have hrefuses := Action.refuses_perform (mt hstorable.mp hplaces) ⟨i, 0⟩ hflag
        exact absurd (hperforms 0 flagged) hrefuses.not_succeeds
  · intro cause t hcause
    rcases append_cases s harity hencode with
      ⟨hok, _⟩ | ⟨⟨k, operand, hk, hget, hvalue, herror⟩, hplaces⟩
    · cases hok.symm.trans hcause
    · cases herror.symm.trans hcause
      refine ⟨⟨k, operand, hk, hget, hvalue, rfl⟩, flagged, fun pc => ?_⟩
      exact Action.refuses_perform (mt hstorable.mp hplaces) ⟨i, pc⟩ hflag

/-- A conditional copy to a label is refused, though it does no harm while the flag is clear. -/
theorem append_iff_performs_conditional :
    let operands : List Operand := [{ shape := .immediate 1 }, { shape := .label "end" }]
    let action : Action := .binary .copyIfFlag (.immediate 1 .byte) (.immediate 0 .word)
    ({} : Session).append .malkrz operands =
        .error (.invalidOperand .malkrz 2 "end" .notWritable) {} ∧
      (∃ m mode next, action.perform ⟨.malkrz, 8⟩ m =
        .error (.invalidDestination .malkrz mode 8) next) ∧
      ∃ m, Succeeds (action.perform ⟨.malkrz, 8⟩) m := by
  intro operands action
  have hencode : operands.map Operand.encode =
      [⟨.immediate 1, none⟩, ⟨.wideImmediate 0, some "end"⟩].map .ok := rfl
  obtain ⟨forms, other, hforms, haction, _, hrefused⟩ :=
    append_iff_performs {} {} 0 .malkrz operands _ rfl hencode
  have hread : [.immediate 1 .byte, .immediate 0 .word].map some = forms.map some := hforms
  rw [List.map_inj_right fun _ _ => Option.some.inj] at hread
  rw [← hread] at haction
  cases haction
  obtain ⟨_, m, hfails⟩ := hrefused _ _ rfl
  obtain ⟨mode, next, hfails⟩ := hfails 8
  exact ⟨rfl, ⟨m, mode, next, hfails⟩, .boot {} (.fresh fun _ => 0), _, _, rfl⟩

end Session

end Cpu32
