import Cpu32.Proofs.Machine.Accounting
import Cpu32.Proofs.Machine.History

/-!
# The flag

Every instruction that succeeds decides the flag: a comparison sets it if its relation holds, and
all others clear it.  Nothing else ever sets it, so a set flag tells of the last step that
succeeded.
-/

namespace Cpu32

/-- The number that a word stands for when its highest bit counts negatively. -/
def twosComplement (word : UInt32) : Int :=
  if word.toNat < UInt32.size / 2 then word.toNat else word.toNat - UInt32.size

theorem toInt_toInt32 (word : UInt32) : word.toInt32.toInt = twosComplement word := by
  have hint : word.toInt32.toInt = word.toBitVec.toInt := rfl
  rw [hint, BitVec.toInt_eq_toNat_cond, twosComplement, UInt32.toNat_toBitVec]
  simp only [UInt32.size]
  split <;> split <;> omega

theorem twosComplement_bounds (word : UInt32) :
    -2147483648 ≤ twosComplement word ∧ twosComplement word < 2147483648 := by
  have hword : word.toNat < 4294967296 := word.toNat_lt
  rw [twosComplement]
  simp only [UInt32.size]
  split <;> omega

namespace Instruction

/-- The instruction is a comparison, and its relation holds between two values. -/
def Relates (a b : UInt32) : Instruction → Prop
  | .llonys => a.toNat > b.toNat
  | .xtlonys => a.toNat ≤ b.toNat
  | .xolonys => a.toNat ≥ b.toNat
  | .xylonys => a.toNat < b.toNat
  | .clo => a = b
  | .niv => a ≠ b
  | .llo => twosComplement a > twosComplement b
  | .xtlo => twosComplement a ≤ twosComplement b
  | .xolo => twosComplement a ≥ twosComplement b
  | .xylo => twosComplement a < twosComplement b
  | _ => False

theorem relates_iff (i : Instruction) (a b : UInt32) :
    i.Relates a b ↔
      ∃ relation, i.operation = .binary (.compare relation) ∧ relation a b = true := by
  cases i <;> simp [Relates, operation, UInt32.lt_iff_toNat_lt, UInt32.le_iff_toNat_le,
    Int32.lt_iff_toInt_lt, Int32.le_iff_toInt_le, toInt_toInt32]

end Instruction

namespace Machine

def FlagIs (flag : Bool) (m : Machine) : Prop :=
  m.registers.flag = flag

/-- The machine is at a comparison, and its relation holds between the values of its operands. -/
def ComparisonHolds (m : Machine) : Prop :=
  ∃ site operation a b ready va second vb last,
    Exec.fetch m = .ok (site, .binary operation a b) ready ∧
      Exec.load .word a ready = .ok va second ∧ Exec.load .word b second = .ok vb last ∧
      site.instruction.Relates va vb

/-- The last of these steps is a comparison that holds. -/
def EndsInComparison (steps : List Machine) : Prop :=
  ∃ last, steps.getLast? = some last ∧ last.ComparisonHolds

end Machine

namespace Exec

open Machine (FlagIs)

variable {α β : Type}

theorem keeps_get {P : Machine → Prop} : Keeps P (get : Exec Machine) :=
  fun _ h => h

theorem keeps_flag_fetch (flag : Bool) : Keeps (FlagIs flag) fetch := by
  have hnext : Keeps (FlagIs flag) next := fun _ h => h
  have hinstruction : Keeps (FlagIs flag) fetchInstruction := by
    refine Keeps.bind keeps_get fun m => Keeps.bind hnext fun opcode => ?_
    cases Instruction.ofOpcode? opcode with
    | none => exact keeps_throw _ _
    | some i => exact fun _ h => h
  apply hinstruction.bind
  intro site
  apply ((inherited_keeps (FlagIs flag)).fetchAction hnext site).bind
  intro action
  exact keeps_pure _ _

theorem keeps_flag_load (flag : Bool) (w : Width) (operand : Addressing) :
    Keeps (FlagIs flag) (load w operand) := by
  cases operand with
  | register r => exact fun _ h => h
  | immediate value width => exact fun _ h => h
  | memory location => exact fun _ h => h

/-- The computation never sets the flag, and clears it if it succeeds. -/
def Clears (x : Exec α) : Prop :=
  Keeps (FlagIs false) x ∧ Ensures (FlagIs false) x

theorem Clears.after {x : Exec α} {f : α → Exec β} (hx : Keeps (FlagIs false) x)
    (hf : ∀ a, Clears (f a)) : Clears (x >>= f) :=
  ⟨hx.bind fun a => (hf a).1, Ensures.bind fun a => (hf a).2⟩

theorem clears_modify {f : Machine → Machine} (hf : ∀ m, (f m).registers.flag = false) :
    Clears (modify f : Exec Unit) := by
  constructor
  · exact fun m _ => hf m
  · intro m a m' h
    cases h
    exact hf m

theorem clears_store (site : Site) (w : Width) (operand : Addressing) (value : UInt32) :
    Clears (store site w operand value) := by
  cases operand with
  | register r => exact clears_modify fun _ => rfl
  | memory location => exact clears_modify fun _ => rfl
  | immediate old width =>
      constructor
      · exact keeps_throw _ _
      · intro m a m' h
        cases h

theorem clears_binary (site : Site) (a b : Addressing) {operation : Binary}
    (h : ∀ relation, operation ≠ .compare relation) : Clears (binary site a b operation) := by
  have hload := keeps_flag_load false
  cases operation with
  | combine f =>
      exact .after (hload .word b) fun _ => .after (hload .word a) fun _ => clears_store ..
  | copy => exact .after (hload .word a) fun _ => clears_store ..
  | copyIfFlag =>
      apply Clears.after keeps_get
      intro m
      have hend : Clears (modify (·.setFlag false) : Exec Unit) := clears_modify fun _ => rfl
      by_cases hflag : m.registers.flag
      · simp only [if_pos hflag]
        exact .after (hload .word a) fun _ => .after (clears_store ..).1 fun _ => hend
      · simp only [if_neg hflag]
        exact hend
  | widen w => exact .after (hload w a) fun _ => clears_store ..
  | insert w => exact .after (hload .word a) fun _ => clears_store ..
  | compare relation => exact absurd rfl (h relation)

theorem clears_ternary (site : Site) (a b c : Addressing) (operation : Ternary) :
    Clears (ternary site a b c operation) := by
  have hload := keeps_flag_load false
  cases operation with
  | exchange =>
      exact .after (hload .word a) fun _ => .after (hload .word b) fun _ =>
        .after (clears_store ..).1 fun _ => clears_store ..
  | multiply product =>
      exact .after (hload .word b) fun _ => .after (hload .word a) fun _ =>
        .after (clears_store ..).1 fun _ => clears_store ..

/-- Every action but a comparison clears the flag. -/
theorem clears_perform (site : Site) {action : Action}
    (h : ∀ relation, action.operation ≠ .binary (.compare relation)) :
    Clears (action.perform site) := by
  cases action with
  | binary operation a b =>
      apply clears_binary
      rintro relation rfl
      exact h relation rfl
  | ternary operation a b c => exact clears_ternary ..

/-- A comparison succeeds, with the flag as its relation says. -/
theorem perform_compare (site : Site) (relation : UInt32 → UInt32 → Bool) (a b : Addressing)
    (m : Machine) :
    ∃ va second vb last, load .word a m = .ok va second ∧ load .word b second = .ok vb last ∧
      (Action.binary (.compare relation) a b).perform site m =
        .ok () (last.setFlag (relation va vb)) := by
  obtain ⟨va, second, ha⟩ := succeeds_load .word a m
  obtain ⟨vb, last, hb⟩ := succeeds_load .word b second
  refine ⟨va, second, vb, last, ha, hb, ?_⟩
  rw [Action.perform, binary, bind_of_ok ha, bind_of_ok hb]
  rfl

/-- A conditional copy with the flag clear stores nothing. -/
theorem perform_copyIfFlag {m : Machine} (site : Site) (a b : Addressing)
    (hflag : m.registers.flag = false) :
    (Action.binary .copyIfFlag a b).perform site m = .ok () (m.setFlag false) := by
  have hget : (get : Exec Machine) m = .ok m m := rfl
  rw [Action.perform, binary, bind_of_ok hget]
  simp only [hflag, Bool.false_eq_true, if_false]
  rfl

end Exec

namespace Machine

variable {m ready next : Machine} {site : Site} {action : Action}

/-- Only an action that is a comparison makes one hold. -/
theorem ComparisonHolds.exists_relation (h : m.ComparisonHolds)
    (hfetch : Exec.fetch m = .ok (site, action) ready) :
    ∃ relation, action.operation = .binary (.compare relation) := by
  obtain ⟨_, _, _, _, _, _, _, _, _, hfetch', _, _, hrelates⟩ := h
  cases hfetch.symm.trans hfetch'
  obtain ⟨relation, hrelation, _⟩ := (Instruction.relates_iff ..).mp hrelates
  exact ⟨relation, (Exec.operation_of_fetch hfetch).trans hrelation⟩

/-- A comparison holds if its relation does. -/
theorem comparisonHolds_iff {relation : UInt32 → UInt32 → Bool} {a b : Addressing}
    (hfetch : Exec.fetch m = .ok (site, .binary (.compare relation) a b) ready)
    {va vb : UInt32} {second last : Machine} (ha : Exec.load .word a ready = .ok va second)
    (hb : Exec.load .word b second = .ok vb last) :
    m.ComparisonHolds ↔ relation va vb = true := by
  have hoperation : _ = site.instruction.operation := Exec.operation_of_fetch hfetch
  constructor
  · rintro ⟨_, _, _, _, _, _, _, _, _, hfetch', ha', hb', hrelates⟩
    cases hfetch.symm.trans hfetch'
    cases ha.symm.trans ha'
    cases hb.symm.trans hb'
    obtain ⟨relation', hrelation, hholds⟩ := (Instruction.relates_iff ..).mp hrelates
    cases hoperation.trans hrelation
    exact hholds
  · intro hholds
    have hrelates := (Instruction.relates_iff ..).mpr ⟨relation, hoperation.symm, hholds⟩
    exact ⟨site, _, a, b, ready, va, second, vb, last, hfetch, ha, hb, hrelates⟩

/-- After a step that succeeds the flag tells whether the step was a comparison that holds. -/
theorem flag_of_step_ok (h : Exec.step m = .ok () next) :
    next.registers.flag = true ↔ m.ComparisonHolds := by
  obtain ⟨site, action, ready, hfetch, hperform⟩ := Exec.exists_fetch_of_step_ok h
  by_cases hcompare : ∃ relation, action.operation = .binary (.compare relation)
  · obtain ⟨relation, hrelation⟩ := hcompare
    obtain ⟨a, b, rfl⟩ := Action.eq_of_operation hrelation
    obtain ⟨va, second, vb, last, ha, hb, hend⟩ := Exec.perform_compare site relation a b ready
    cases hend.symm.trans hperform
    exact (comparisonHolds_iff hfetch ha hb).symm
  · have hcleared : next.registers.flag = false :=
      (Exec.clears_perform site (not_exists.mp hcompare)).2 _ _ _ hperform
    have hnone : ¬ m.ComparisonHolds := fun hholds => hcompare (hholds.exists_relation hfetch)
    simp [hcleared, hnone]

/-- A step that fails does not set the flag. -/
theorem flag_of_step_error {fault : Fault} (h : Exec.step m = .error fault next)
    (hflag : m.registers.flag = false) : next.registers.flag = false := by
  have hkept := Exec.keeps_flag_fetch false
  rcases Exec.step_error_cases h with rfl | hfetch | ⟨site, action, ready, hfetch, hperform⟩
  · exact hflag
  · exact hkept.of_error hflag hfetch
  · by_cases hcompare : ∃ relation, action.operation = .binary (.compare relation)
    · obtain ⟨relation, hrelation⟩ := hcompare
      obtain ⟨a, b, rfl⟩ := Action.eq_of_operation hrelation
      obtain ⟨_, _, _, _, _, _, hend⟩ := Exec.perform_compare site relation a b ready
      cases hend.symm.trans hperform
    · have hready : ready.registers.flag = false := hkept.of_ok hflag hfetch
      exact (Exec.clears_perform site (not_exists.mp hcompare)).1.of_error hready hperform

theorem flag_trap (m : Machine) : m.trap.registers.flag = m.registers.flag := by
  rw [trap_eq]
  exact m.registers.flag_set .xx _

/-- Wherever the flag is set, the last step that succeeded was a comparison that holds. -/
theorem Leads.comparisonHolds {start : Machine} {steps : List Machine} (h : Leads start steps m)
    (hstart : start.registers.flag = false) (hflag : m.registers.flag = true) :
    EndsInComparison steps := by
  induction h with
  | start => simp [hstart] at hflag
  | loaded _ hload ih =>
      obtain ⟨memory, _, rfl⟩ := exceptMap_eq_ok_iff.mp hload
      exact ih hflag
  | @stepped steps m next _ hstep ih =>
      exact ⟨m, by simp, (flag_of_step_ok hstep).mp hflag⟩
  | @failed steps m next fault _ hstep ih =>
      -- The flag was set before the failure, by the step that is still the last to have succeeded.
      apply ih
      cases hbefore : m.registers.flag with
      | true => rfl
      | false => simp [flag_of_step_error hstep hbefore] at hflag
  | trapped _ _ htrap ih =>
      rw [← htrap, flag_trap] at hflag
      exact ih hflag

/-- The flag in every state that a machine reaches.  A step that succeeds sets it exactly if the
step is a comparison that holds, and neither a step that fails nor a debug trap sets it.  So a set
flag says that the last step that succeeded was such a comparison, and after any other a conditional
copy leaves its destination alone. -/
theorem flag_records_comparison (config : Config) (memory : Memory) (calls : List Call) :
    let m := (boot config memory).after calls
    let steps := (boot config memory).steps calls
    (∀ next, Exec.step m = .ok () next → (next.registers.flag = true ↔ m.ComparisonHolds)) ∧
      (∀ fault next, Exec.step m = .error fault next → m.registers.flag = false →
        next.registers.flag = false) ∧
      m.trap.registers.flag = m.registers.flag ∧
      (m.registers.flag = true → EndsInComparison steps) ∧
      ∀ site action ready, Exec.fetch m = .ok (site, action) ready → site.instruction = .malkrz →
        EndsInComparison steps ∨ action.perform site ready = .ok () (ready.setFlag false) := by
  intro m steps
  -- Only the last two parts depend on how the machine was reached.
  have hleads : Leads (boot config memory) steps m := leads_after _ calls
  refine ⟨fun _ => flag_of_step_ok, fun _ _ => flag_of_step_error, flag_trap m,
    hleads.comparisonHolds rfl, ?_⟩
  intro site action ready hfetch hmalkrz
  cases hflag : m.registers.flag with
  | true => exact .inl (hleads.comparisonHolds rfl hflag)
  | false =>
      have hready : ready.registers.flag = false :=
        (Exec.keeps_flag_fetch false).of_ok hflag hfetch
      have hoperation := Exec.operation_of_fetch hfetch
      rw [hmalkrz] at hoperation
      obtain ⟨a, b, rfl⟩ := Action.eq_of_operation hoperation
      exact .inr (Exec.perform_copyIfFlag site a b hready)

/-- A comparison that holds, and a conditional copy after it. -/
theorem flag_records_comparison_copied :
    let calls : List Call :=
      [.load defaultEntry [0x16, 0x04, 0x01, 0x04, 0x01, 0x09, 0x04, 0x05, 0x00], .step]
    EndsInComparison ((boot {} (.fresh fun _ => 0)).steps calls) ∧
      ∃ m next, (boot {} (.fresh fun _ => 0)).after calls = m ∧ Exec.step m = .ok () next ∧
        next.registers.get .f0 = 5 ∧ ¬ m.ComparisonHolds := by
  intro calls
  have hrecords := flag_records_comparison {} (.fresh fun _ => 0) calls
  have hset : ((boot {} (.fresh fun _ => 0)).after calls).registers.flag = true := by
    decide +kernel
  have hone : (((boot {} (.fresh fun _ => 0)).after calls).stepsOf .step).length = 1 := by
    decide +kernel
  have hregisters :
      let next := ((boot {} (.fresh fun _ => 0)).after calls).answer .step
      next.registers.get .f0 = 5 ∧ next.registers.flag = false := by
    decide +kernel
  generalize (boot {} (.fresh fun _ => 0)).after calls = m at hrecords hset hone hregisters ⊢
  obtain ⟨hstep, _, _, hends, _⟩ := hrecords
  cases hnext : Exec.step m with
  | error fault next => simp [stepsOf, hnext] at hone
  | ok _ next =>
      simp only [answer, stateAfter, hnext] at hregisters
      obtain ⟨hvalue, hcleared⟩ := hregisters
      refine ⟨hends hset, m, next, rfl, hnext, hvalue, ?_⟩
      rw [← hstep next hnext, hcleared]
      exact Bool.false_ne_true

end Machine

end Cpu32
