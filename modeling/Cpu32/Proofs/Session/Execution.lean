import Cpu32.Proofs.Machine.Fetch
import Cpu32.Proofs.Session.Linked

/-!
# Written instructions are executed

The machine executes, at each place of an image, the instruction that was written there.
-/

namespace Cpu32

namespace Memory.Holds

/-- Held bytes include those of every instruction, at the place where the sizes add up to. -/
theorem instruction {memory : Memory} {labels : Labels} {base : UInt32} {codes : List Code}
    {k : Nat} {code : Code} (h : memory.Holds base (codes.flatMap (Code.bytes labels base)))
    (hcode : codes[k]? = some code) :
    memory.Holds (base + UInt32.ofNat (Code.totalSize (codes.take k)))
      (code.bytes labels base) := by
  have hsplit : codes = codes.take k ++ code :: codes.drop (k + 1) := by
    obtain ⟨hk, hget⟩ := List.getElem?_eq_some_iff.mp hcode
    rw [← hget, List.getElem_cons_drop, List.take_append_drop]
  rw [hsplit, List.flatMap_append, holds_append, List.flatMap_cons, holds_append,
    Code.length_flatMap_bytes] at h
  exact h.2.1

end Memory.Holds

namespace Session

/-- An accepted instruction whose labels are bound has an action, which finds a place wherever it
stores. -/
theorem exists_action {labels : Labels} (base : UInt32) {i : Instruction}
    {operands : List Operand} {code : Code} (hassemble : assemble i operands = .ok code)
    (hbound : code.IsBound labels) :
    ∃ (forms : List Addressing) (action : Action),
      operands.map (Operand.form? labels base) = forms.map some ∧
      (code.operands.map (Placed.linked labels base)).map (fun d => d.narrowed.addressing) =
        forms.map some ∧
      i.action? forms = some action ∧ action.IsStorable := by
  obtain ⟨_, harity, hencode, hplaces⟩ := assemble_eq_ok hassemble
  obtain ⟨forms, hforms, hread⟩ := Operand.exists_forms labels base hencode hbound
  have hcount : forms.length = i.arity := by
    rw [← harity, ← List.length_map some, ← hforms, List.length_map]
  obtain ⟨action, haction⟩ := i.exists_action? hcount
  refine ⟨forms, action, hforms, hread, haction, ?_⟩
  apply (Instruction.isStorable_iff haction).mpr
  intro hcompare
  have htail : operands.tail.map (Operand.form? labels base) = forms.tail.map some := by
    rw [List.map_tail, List.map_tail, hforms]
  exact Operand.isWritable_of_forms labels base htail (hplaces hcompare)

end Session

namespace Exec

/-- The code at the program counter is fetched, moved past and performed. -/
theorem step_of_code {m : Machine} {labels : Labels} {base : UInt32} {code : Code}
    {forms : List Addressing} {action : Action}
    (hbytes : m.memory.Holds m.pc (code.bytes labels base)) (hbudget : m.HasBudget)
    (hread : (code.operands.map (Placed.linked labels base)).map
      (fun d => d.narrowed.addressing) = forms.map some)
    (haction : code.instruction.action? forms = some action) (hstorable : action.IsStorable) :
    let ready :=
      ({ m with profile := m.profile.record code.instruction.category } : Machine).advance code.size
    fetch m = .ok (⟨code.instruction, m.pc⟩, action) ready ∧
      step m = action.perform ⟨code.instruction, m.pc⟩ ready ∧ Succeeds step m := by
  intro ready
  have hsize : 1 + ((code.operands.map (Placed.linked labels base)).flatMap ModRM.encode).length =
      code.size := by
    rw [← Code.length_bytes labels base, Code.bytes, List.length_cons, Nat.add_comm]
  have hfetch := fetch_of_holds hbytes haction hread
  rw [hsize] at hfetch
  have hstep := step_of_fetch hbudget hfetch
  obtain ⟨_, after, hperform⟩ :=
    action.succeeds_perform hstorable ⟨code.instruction, m.pc⟩ ready
  exact ⟨hfetch, hstep, _, after, hstep.trans hperform⟩

end Exec

namespace Session

/-- A loaded image is held in memory, and as long as it is, a step of the machine at the place of a
written instruction performs that instruction.  The operands denote what was written, the program
counter already is at the place of the next instruction, and nothing fails. -/
theorem executes_as_written (base : UInt32) (edits : List Edit) {image : Image}
    (hlink : (({ base } : Session).after edits).finish = .ok image) :
    let s := ({ base } : Session).after edits
    let written := Event.instructions (({ base } : Session).history edits)
    s.code.toList.map .ok = written.map (fun entry => assemble entry.1 entry.2) ∧
      (∀ m₀ m : Machine, m₀.load image.base image.bytes = .ok m →
        m.memory.Holds image.base image.bytes) ∧
      ∀ k i operands, written[k]? = some (i, operands) →
        ∀ m : Machine, m.memory.Holds image.base image.bytes → m.HasBudget →
          m.pc = image.base + UInt32.ofNat (Code.totalSize (s.code.toList.take k)) →
            ∃ (forms : List Addressing) (action : Action) (ready : Machine),
              operands.map (Operand.form? s.labels image.base) = forms.map some ∧
              i.action? forms = some action ∧
              Exec.fetch m = .ok (⟨i, m.pc⟩, action) ready ∧
              ready = ({ m with profile := m.profile.record i.category } : Machine).setRegister .xx
                (image.base + UInt32.ofNat (Code.totalSize (s.code.toList.take (k + 1)))) ∧
              Exec.step m = action.perform ⟨i, m.pc⟩ ready ∧
              Succeeds Exec.step m := by
  intro s written
  have hbuilds : Builds { base } (({ base } : Session).history edits) s :=
    builds_history { base } edits
  obtain ⟨hbase, hbound, hbytes⟩ := finish_eq_ok hlink
  refine ⟨hbuilds.code_eq, ?_, ?_⟩
  · intro m₀ m hload
    obtain ⟨memory, hmemory, rfl⟩ := exceptMap_eq_ok_iff.mp hload
    exact Memory.holds_of_load hmemory
  · intro k i operands hk m hheld hbudget hpc
    obtain ⟨code, hcode, hassemble⟩ := hbuilds.exists_code hk
    have hlabels := hbound code (List.mem_of_getElem? hcode)
    obtain ⟨forms, action, hforms, hread, haction, hstorable⟩ :=
      exists_action image.base hassemble hlabels
    obtain ⟨rfl, _, _, _⟩ := assemble_eq_ok hassemble
    rw [hbytes, ← hbase] at hheld
    have hcell := hheld.instruction hcode
    rw [← hpc] at hcell
    obtain ⟨hfetch, hstep, hok⟩ := Exec.step_of_code hcell hbudget hread haction hstorable
    have hnext : m.pc + UInt32.ofNat code.size =
        image.base + UInt32.ofNat (Code.totalSize (s.code.toList.take (k + 1))) := by
      rw [Code.totalSize_take_succ hcode, UInt32.ofNat_add, ← UInt32.add_assoc, hpc]
    refine ⟨forms, action, _, hforms, haction, hfetch, ?_, hstep, hok⟩
    rw [← hnext]
    rfl

/-- A jump to a label behind an instruction that was refused and before the label is bound. -/
theorem executes_as_written_jump :
    let jump : List Operand := [{ shape := .label "end" }, { shape := .register .xx }]
    let edits : List Edit :=
      [.append .krz [{ shape := .register .f0 }, { shape := .register .f1 }],
        .append .krz [{ shape := .register .f0 }, { shape := .immediate 1 }],
        .append .krz jump, .bindNext "end"]
    let config : Config := { entry := 0x13, maxSteps := some 1 }
    ∃ image m, (({ base := 0x10 } : Session).after edits).finish = .ok image ∧
      (Machine.boot config (.fresh fun _ => 0)).load image.base image.bytes = .ok m ∧
      ∃ action ready, Exec.fetch m = .ok (⟨.krz, 0x13⟩, action) ready ∧
        action = .binary .copy (.immediate 0x1A .word) (.register .xx) ∧
        ready.pc = 0x1A ∧ Succeeds Exec.step m := by
  intro jump edits config
  obtain ⟨image, hlink, hbase, hbytes⟩ :
      ∃ image, (({ base := 0x10 } : Session).after edits).finish = .ok image ∧
        image.base = 0x10 ∧
        image.bytes = [0x08, 0x00, 0x20, 0x08, 0x06, 0x00, 0x00, 0x00, 0x1A, 0xE0] :=
    ⟨_, rfl, rfl, by decide⟩
  have hfit : image.base.toNat + image.bytes.length ≤ UInt32.size := by
    rw [hbase, hbytes]
    decide
  have hload : (Machine.boot config (.fresh fun _ => 0)).load image.base image.bytes = .ok _ :=
    congrArg (Except.map _) (Memory.load_of_fits hfit)
  have hbudget (m : Machine) (hconfig : m.config = config) (hprofile : m.profile = {}) :
      m.HasBudget := by
    intro limit hlimit
    rw [hconfig] at hlimit
    cases hlimit
    rw [hprofile]
    decide
  obtain ⟨_, hheld, hstep⟩ := executes_as_written 0x10 edits hlink
  obtain ⟨forms, action, ready, hforms, haction, hfetch, hready, _, hok⟩ :=
    hstep 1 .krz jump rfl _ (hheld _ _ hload) (hbudget _ rfl rfl) (by rw [hbase]; rfl)
  have hwritten : jump.map
      (Operand.form? (({ base := 0x10 } : Session).after edits).labels image.base) =
        [.immediate 0x1A .word, .register .xx].map some := by
    rw [hbase]
    rfl
  have hforms' : forms = [.immediate 0x1A .word, .register .xx] :=
    (List.map_inj_right fun _ _ => Option.some.inj).mp (hforms.symm.trans hwritten)
  rw [hforms'] at haction
  cases haction
  refine ⟨image, _, hlink, hload, _, ready, hfetch, rfl, ?_, hok⟩
  rw [hready, hbase]
  rfl

end Session

end Cpu32
