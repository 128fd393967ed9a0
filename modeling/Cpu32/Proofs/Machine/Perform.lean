import Cpu32.Machine.Step
import Cpu32.Proofs.Outcome

/-!
# Performing actions

Reading an operand never fails, and a store fails only where there is no place to store to.  So an
action whose destinations are places is performed in every state of the machine, and any other is
refused wherever the flag is set.
-/

namespace Cpu32

/-- The action of an instruction on operands, if there are as many as it takes. -/
def Instruction.action? (i : Instruction) (forms : List Addressing) : Option Action :=
  match i.operation, forms with
  | .binary operation, [a, b] => some (.binary operation a b)
  | .ternary operation, [a, b, c] => some (.ternary operation a b c)
  | _, _ => none

/-- The operation of an action, without its operands. -/
def Action.operation : Action → Operation
  | .binary operation _ _ => .binary operation
  | .ternary operation _ _ _ => .ternary operation

theorem Action.eq_of_operation {action : Action} {operation : Binary}
    (h : action.operation = .binary operation) : ∃ a b, action = .binary operation a b := by
  cases action with
  | binary operation' a b =>
      cases h
      exact ⟨a, b, rfl⟩
  | ternary operation' a b c => cases h

/-- Every operand that may be stored to is a place. -/
def Action.IsStorable : Action → Prop
  | .binary (.compare _) _ _ => True
  | .binary _ _ b => b.isWritable
  | .ternary _ _ b c => b.isWritable ∧ c.isWritable

namespace Exec

theorem succeeds_load (w : Width) (operand : Addressing) (m : Machine) :
    Succeeds (load w operand) m := by
  cases operand <;> exact ⟨_, _, rfl⟩

theorem succeeds_store (site : Site) (w : Width) {operand : Addressing} (value : UInt32)
    (h : operand.isWritable) (m : Machine) : Succeeds (store site w operand value) m := by
  cases operand with
  | immediate value width => cases h
  | register r => exact ⟨_, _, rfl⟩
  | memory location => exact ⟨_, _, rfl⟩

theorem succeeds_get (m : Machine) : Succeeds (get : Exec Machine) m :=
  ⟨_, _, rfl⟩

theorem succeeds_modify (f : Machine → Machine) (m : Machine) :
    Succeeds (modify f : Exec Unit) m :=
  ⟨_, _, rfl⟩

theorem succeeds_binary (site : Site) (operation : Binary) (a b : Addressing)
    (h : (Action.binary operation a b).IsStorable) (m : Machine) :
    Succeeds (binary site a b operation) m := by
  cases operation with
  | combine f =>
      apply succeeds_bind (succeeds_load .word b)
      intro vb
      apply succeeds_bind (succeeds_load .word a)
      intro va
      exact succeeds_store site .word _ h
  | copy =>
      apply succeeds_bind (succeeds_load .word a)
      intro va
      exact succeeds_store site .word _ h
  | copyIfFlag =>
      apply succeeds_bind succeeds_get
      intro before
      by_cases hflag : before.registers.flag
      · simp only [if_pos hflag]
        apply succeeds_bind (succeeds_load .word a)
        intro va
        apply succeeds_bind (succeeds_store site .word va h)
        intro _
        exact succeeds_modify _
      · simp only [if_neg hflag]
        exact succeeds_modify _
  | widen w =>
      apply succeeds_bind (succeeds_load w a)
      intro va
      exact succeeds_store site .word _ h
  | insert w =>
      apply succeeds_bind (succeeds_load .word a)
      intro va
      exact succeeds_store site w _ h
  | compare relation =>
      apply succeeds_bind (succeeds_load .word a)
      intro va
      apply succeeds_bind (succeeds_load .word b)
      intro vb
      exact succeeds_modify _

theorem succeeds_ternary (site : Site) (operation : Ternary) (a b c : Addressing)
    (h : (Action.ternary operation a b c).IsStorable) (m : Machine) :
    Succeeds (ternary site a b c operation) m := by
  obtain ⟨hb, hc⟩ := h
  cases operation with
  | exchange =>
      apply succeeds_bind (succeeds_load .word a)
      intro va
      apply succeeds_bind (succeeds_load .word b)
      intro vb
      apply succeeds_bind (succeeds_store site .word va hb)
      intro _
      exact succeeds_store site .word vb hc
  | multiply product =>
      apply succeeds_bind (succeeds_load .word b)
      intro vb
      apply succeeds_bind (succeeds_load .word a)
      intro va
      apply succeeds_bind (succeeds_store site .word _ hc)
      intro _
      exact succeeds_store site .word _ hb

end Exec

theorem Action.succeeds_perform {action : Action} (h : action.IsStorable) (site : Site)
    (m : Machine) : Succeeds (action.perform site) m := by
  cases action with
  | binary operation a b => exact Exec.succeeds_binary site operation a b h m
  | ternary operation a b c => exact Exec.succeeds_ternary site operation a b c h m

namespace Exec

variable {α β : Type}

/-- The computation fails because a destination of the instruction is no place. -/
def Refuses (site : Site) (x : Exec α) (m : Machine) : Prop :=
  ∃ mode next, x m = .error (.invalidDestination site.instruction mode site.pc) next

section Refuses

variable {site : Site} {x : Exec α} {m : Machine}

theorem Refuses.not_succeeds (h : Refuses site x m) : ¬ Succeeds x m := by
  obtain ⟨mode, next, hfails⟩ := h
  rintro ⟨a, m', hok⟩
  cases hfails.symm.trans hok

theorem Refuses.bind (h : Refuses site x m) (f : α → Exec β) : Refuses site (x >>= f) m := by
  obtain ⟨mode, next, hfails⟩ := h
  exact ⟨mode, next, bind_of_error hfails f⟩

theorem refuses_bind {f : α → Exec β} (hx : Succeeds x m) (hf : ∀ a m', Refuses site (f a) m') :
    Refuses site (x >>= f) m := by
  obtain ⟨a, m', hok⟩ := hx
  rw [Refuses, bind_of_ok hok]
  exact hf a m'

theorem refuses_store (site : Site) (w : Width) {operand : Addressing} (value : UInt32)
    (h : ¬ operand.isWritable) (m : Machine) : Refuses site (store site w operand value) m := by
  cases operand with
  | immediate old width => exact ⟨_, _, rfl⟩
  | register r => exact absurd rfl h
  | memory location => exact absurd rfl h

theorem refuses_binary (site : Site) {operation : Binary} {a b : Addressing}
    (h : ¬ (Action.binary operation a b).IsStorable) (hflag : m.registers.flag = true) :
    Refuses site (binary site a b operation) m := by
  cases operation with
  | combine f =>
      refine refuses_bind (succeeds_load .word b m) fun vb m => ?_
      refine refuses_bind (succeeds_load .word a m) fun va m => ?_
      exact refuses_store site .word _ h m
  | copy =>
      refine refuses_bind (succeeds_load .word a m) fun va m => ?_
      exact refuses_store site .word _ h m
  | copyIfFlag =>
      have hget : (get : Exec Machine) m = .ok m m := rfl
      rw [Refuses, binary, bind_of_ok hget]
      simp only [if_pos hflag]
      refine refuses_bind (succeeds_load .word a m) fun va m => ?_
      exact (refuses_store site .word va h m).bind _
  | widen w =>
      refine refuses_bind (succeeds_load w a m) fun va m => ?_
      exact refuses_store site .word _ h m
  | insert w =>
      refine refuses_bind (succeeds_load .word a m) fun va m => ?_
      exact refuses_store site w _ h m
  | compare relation => exact absurd trivial h

/-- The destinations are written one after the other, and the first that is no place is refused. -/
theorem refuses_both {first second : Addressing} (h : ¬ (first.isWritable ∧ second.isWritable))
    (site : Site) (x y : UInt32) (m : Machine) :
    Refuses site (do store site .word first x; store site .word second y) m := by
  by_cases hfirst : first.isWritable
  · have hsecond : ¬ second.isWritable := fun hsecond => h ⟨hfirst, hsecond⟩
    exact refuses_bind (succeeds_store site .word x hfirst m) fun _ =>
      refuses_store site .word y hsecond
  · exact (refuses_store site .word x hfirst m).bind _

theorem refuses_ternary (site : Site) {operation : Ternary} {a b c : Addressing}
    (h : ¬ (Action.ternary operation a b c).IsStorable) (m : Machine) :
    Refuses site (ternary site a b c operation) m := by
  cases operation with
  | exchange =>
      refine refuses_bind (succeeds_load .word a m) fun va m => ?_
      refine refuses_bind (succeeds_load .word b m) fun vb m => ?_
      exact refuses_both h site va vb m
  | multiply product =>
      have hcb : ¬ (c.isWritable ∧ b.isWritable) := fun hcb => h hcb.symm
      refine refuses_bind (succeeds_load .word b m) fun vb m => ?_
      refine refuses_bind (succeeds_load .word a m) fun va m => ?_
      exact refuses_both hcb site _ _ m

end Refuses

end Exec

namespace Action

/-- An action with a destination that is no place is refused, unless it depends on the flag and the
flag is clear. -/
theorem refuses_perform {action : Action} (h : ¬ action.IsStorable) (site : Site) {m : Machine}
    (hflag : m.registers.flag = true) : Exec.Refuses site (action.perform site) m := by
  cases action with
  | binary operation a b => exact Exec.refuses_binary site h hflag
  | ternary operation a b c => exact Exec.refuses_ternary site h m

end Action

namespace Machine

theorem exists_flag : ∃ m : Machine, m.registers.flag = true :=
  ⟨(boot {} (.fresh fun _ => 0)).setFlag true, rfl⟩

end Machine

namespace Instruction

theorem arity_eq (i : Instruction) :
    i.arity = match i.operation with
      | .binary _ => 2
      | .ternary _ => 3 := by
  cases i <;> rfl

theorem isComparison_eq (i : Instruction) :
    i.isComparison = match i.operation with
      | .binary (.compare _) => true
      | _ => false := by
  cases i <;> rfl

theorem exists_action? (i : Instruction) {forms : List Addressing}
    (h : forms.length = i.arity) : ∃ action, i.action? forms = some action := by
  rw [arity_eq] at h
  unfold action?
  cases hoperation : i.operation with
  | binary operation =>
      rw [hoperation] at h
      match forms, h with
      | [a, b], _ => exact ⟨_, rfl⟩
  | ternary operation =>
      rw [hoperation] at h
      match forms, h with
      | [a, b, c], _ => exact ⟨_, rfl⟩

/-- Only comparisons take a value where others store. -/
theorem isStorable_iff {i : Instruction} {forms : List Addressing} {action : Action}
    (haction : i.action? forms = some action) :
    action.IsStorable ↔ (¬ i.isComparison → ∀ form ∈ forms.tail, form.isWritable) := by
  unfold action? at haction
  split at haction
  · rename_i operation a b hoperation
    cases haction
    rw [isComparison_eq, hoperation]
    cases operation with
    | compare relation => simp [Action.IsStorable]
    | _ => simp [Action.IsStorable]
  · rename_i operation a b c hoperation
    cases haction
    rw [isComparison_eq, hoperation]
    simp [Action.IsStorable]
  · cases haction

end Instruction

end Cpu32
