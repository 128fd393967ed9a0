import Cpu32.Proofs.Machine.Fetch

/-!
# Locality

Decoding and carrying out an instruction reads and changes registers and memory only.  Whatever else
a machine consists of can be exchanged beforehand, and comes out unchanged.
-/

namespace Cpu32

namespace Exec

variable {α β : Type}

/-- A property of computations that chains have when their links do. -/
structure Inherited (C : {α : Type} → Exec α → Prop) : Prop where
  pure {α : Type} (a : α) : C (pure a : Exec α)
  throw {α : Type} (fault : Fault) : C (throw fault : Exec α)
  bind {α β : Type} {x : Exec α} {f : α → Exec β} : C x → (∀ a, C (f a)) → C (x >>= f)

namespace Inherited

variable {C : {α : Type} → Exec α → Prop} (hC : Inherited C) (hnext : C next)

include hC hnext

theorem gather (n : Nat) (word : UInt32) : C (gather next n word) := by
  induction n generalizing word with
  | zero => exact hC.pure word
  | succ n ih => exact hC.bind hnext fun _ => ih _

theorem decode : C (ModRM.decode : Exec ModRM) := by
  apply hC.bind hnext
  intro code
  generalize ModRM.masked (code >>> 5) code 0 = head
  dsimp only
  cases head.width with
  | none => exact hC.pure head
  | some w => exact hC.bind (hC.gather hnext w.size 0) fun _ => hC.pure _

theorem fetchOperand (site : Site) : C (fetchOperand site) := by
  apply hC.bind (hC.decode hnext)
  intro modrm
  cases modrm.addressing with
  | none => exact hC.throw _
  | some operand => exact hC.pure operand

/-- What reading one byte has, fetching operands has. -/
theorem fetchAction (site : Site) : C (fetchAction site) := by
  have hoperand := hC.fetchOperand hnext site
  rw [Exec.fetchAction]
  cases site.instruction.operation with
  | binary operation =>
      exact hC.bind hoperand fun _ => hC.bind hoperand fun _ => hC.pure _
  | ternary operation =>
      exact hC.bind hoperand fun _ => hC.bind hoperand fun _ => hC.bind hoperand fun _ =>
        hC.pure _

end Inherited

theorem inherited_keeps (P : Machine → Prop) : Inherited (Keeps P) where
  pure := keeps_pure P
  throw := keeps_throw P
  bind := Keeps.bind

/-- An inherited property that everything has of which fetching and performing consist. -/
structure Pervasive (C : {α : Type} → Exec α → Prop) : Prop extends Inherited C where
  next : C next
  load (w : Width) (operand : Addressing) : C (load w operand)
  store (site : Site) (w : Width) (operand : Addressing) (value : UInt32) :
    C (store site w operand value)
  setFlag (flag : Bool) : C (modify (·.setFlag flag) : Exec Unit)
  branch {α : Type} {f : Bool → Exec α} :
    (∀ flag, C (f flag)) → C (get >>= fun m : Machine => f m.registers.flag)

namespace Pervasive

variable {C : {α : Type} → Exec α → Prop} (hC : Pervasive C)

include hC

theorem binary (site : Site) (a b : Addressing) (operation : Binary) :
    C (binary site a b operation) := by
  cases operation with
  | combine f =>
      exact hC.bind (hC.load .word b) fun _ => hC.bind (hC.load .word a) fun _ =>
        hC.store site .word b _
  | copy => exact hC.bind (hC.load .word a) fun _ => hC.store site .word b _
  | copyIfFlag =>
      refine hC.branch (f := fun flag => if flag then _ else _) fun flag => ?_
      cases flag with
      | true =>
          exact hC.bind (hC.load .word a) fun _ => hC.bind (hC.store site .word b _) fun _ =>
            hC.setFlag false
      | false => exact hC.setFlag false
  | widen w => exact hC.bind (hC.load w a) fun _ => hC.store site .word b _
  | insert w => exact hC.bind (hC.load .word a) fun _ => hC.store site w b _
  | compare relation =>
      exact hC.bind (hC.load .word a) fun _ => hC.bind (hC.load .word b) fun _ => hC.setFlag _

theorem ternary (site : Site) (a b c : Addressing) (operation : Ternary) :
    C (ternary site a b c operation) := by
  cases operation with
  | exchange =>
      exact hC.bind (hC.load .word a) fun _ => hC.bind (hC.load .word b) fun _ =>
        hC.bind (hC.store site .word b _) fun _ => hC.store site .word c _
  | multiply product =>
      exact hC.bind (hC.load .word b) fun _ => hC.bind (hC.load .word a) fun _ =>
        hC.bind (hC.store site .word c _) fun _ => hC.store site .word b _

theorem perform (action : Action) (site : Site) : C (action.perform site) := by
  cases action with
  | binary operation a b => exact hC.binary site a b operation
  | ternary operation a b c => exact hC.ternary site a b c operation

end Pervasive

end Exec

namespace Machine

/-- The registers and the memory of a machine in the surroundings of another. -/
def around (outer m : Machine) : Machine :=
  { outer with registers := m.registers, memory := m.memory }

end Machine

namespace Exec

variable {α β : Type}

/-- The computation acts alike in all surroundings, and leaves them as they are. -/
def Local (x : Exec α) : Prop :=
  ∀ outer m : Machine, x (outer.around m) = mapState outer.around (x m)

theorem local_modify (f : Machine → Machine)
    (hf : ∀ outer m : Machine, f (outer.around m) = outer.around (f m)) :
    Local (modify f : Exec Unit) := by
  intro outer m
  exact congrArg (EStateM.Result.ok ()) (hf outer m)

theorem local_load (w : Width) (operand : Addressing) : Local (load w operand) := by
  cases operand with
  | register r => exact fun _ _ => rfl
  | immediate value width => exact fun _ _ => rfl
  | memory location => exact fun _ _ => rfl

theorem local_store (site : Site) (w : Width) (operand : Addressing) (value : UInt32) :
    Local (store site w operand value) := by
  cases operand with
  | register r => exact local_modify _ fun _ _ => rfl
  | immediate old width => exact fun _ _ => rfl
  | memory location => exact local_modify _ fun _ _ => rfl

theorem local_branch {f : Bool → Exec α} (hf : ∀ flag, Local (f flag)) :
    Local (get >>= fun m : Machine => f m.registers.flag) := by
  intro outer m
  have hget (m : Machine) : (get : Exec Machine) m = .ok m m := rfl
  rw [bind_of_ok (hget _), bind_of_ok (hget _)]
  exact hf m.registers.flag outer m

theorem pervasive_local : Pervasive Local where
  pure _ := fun _ _ => rfl
  throw _ := fun _ _ => rfl
  bind hx hf := fun outer m => bind_mapState (hx outer m) fun a m' => hf a outer m'
  next := fun _ _ => rfl
  load := local_load
  store := local_store
  setFlag _ := local_modify _ fun _ _ => rfl
  branch := local_branch

section Surroundings

variable {x : Exec α} {m m' : Machine}

theorem Local.eq_around_of_ok (hx : Local x) {a : α} (h : x m = .ok a m') : m' = m.around m' := by
  have hself : x m = mapState m.around (x m) := hx m m
  rw [h] at hself
  exact (EStateM.Result.ok.inj hself).2

theorem Local.eq_around_of_error (hx : Local x) {fault : Fault} (h : x m = .error fault m') :
    m' = m.around m' := by
  have hself : x m = mapState m.around (x m) := hx m m
  rw [h] at hself
  exact (EStateM.Result.error.inj hself).2

end Surroundings

end Exec

end Cpu32
