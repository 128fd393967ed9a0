import Cpu32.Proofs.Machine.Accounting
import Cpu32.Proofs.Machine.History

/-!
# Noise does not show

Noise is drawn only where an untouched cell is read.  As long as none is drawn, nothing that a
machine does depends on it: a run over any other noise goes the same way, through the same states.
-/

namespace Cpu32

namespace Memory

/-- The memory over other noise, of which some was drawn. -/
def overNoise (m : Memory) (noise : Nat → UInt8) (drawn : Nat) : Memory :=
  { m with noise, drawn }

variable {m : Memory}

/-- Reading a cell draws a byte exactly if the cell is untouched. -/
theorem drawn_readCell (m : Memory) (address : UInt32) :
    (m.readCell address).2.drawn =
      if m.cells[address]? = none then m.drawn + 1 else m.drawn := by
  rw [readCell]
  cases m.cells[address]? with
  | none => rfl
  | some b => rfl

theorem le_drawn_readCell (m : Memory) (address : UInt32) :
    m.drawn ≤ (m.readCell address).2.drawn := by
  rw [drawn_readCell]
  split <;> omega

theorem le_drawn_readBytes (m : Memory) (address : UInt32) (n : Nat) :
    m.drawn ≤ (m.readBytes address n).2.drawn := by
  induction n generalizing m address with
  | zero => exact Nat.le_refl _
  | succ n ih => exact Nat.le_trans (m.le_drawn_readCell address) (ih _ _)

theorem readCell_overNoise {address : UInt32} (h : (m.readCell address).2.drawn = m.drawn)
    (noise : Nat → UInt8) (drawn : Nat) :
    (m.overNoise noise drawn).readCell address =
      ((m.readCell address).1, (m.readCell address).2.overNoise noise drawn) := by
  rw [drawn_readCell] at h
  cases hcell : m.cells[address]? with
  | none =>
      rw [hcell, if_pos rfl] at h
      omega
  | some b =>
      rw [readCell_of_eq_some hcell]
      exact readCell_of_eq_some hcell

theorem readBytes_overNoise {address : UInt32} {n : Nat}
    (h : (m.readBytes address n).2.drawn = m.drawn) (noise : Nat → UInt8) (drawn : Nat) :
    (m.overNoise noise drawn).readBytes address n =
      ((m.readBytes address n).1, (m.readBytes address n).2.overNoise noise drawn) := by
  induction n generalizing m address with
  | zero => rfl
  | succ n ih =>
      have hfirst := m.le_drawn_readCell address
      have hrest := (m.readCell address).2.le_drawn_readBytes (address + 1) n
      have hend : ((m.readCell address).2.readBytes (address + 1) n).2.drawn = m.drawn := h
      simp only [readBytes, readCell_overNoise (Nat.le_antisymm (hend ▸ hrest) hfirst),
        ih (hend.trans (Nat.le_antisymm hfirst (hend ▸ hrest)))]

theorem le_drawn_read (m : Memory) (w : Width) (address : UInt32) :
    m.drawn ≤ (m.read w address).2.drawn :=
  m.le_drawn_readBytes address w.size

theorem read_overNoise {w : Width} {address : UInt32} (h : (m.read w address).2.drawn = m.drawn)
    (noise : Nat → UInt8) (drawn : Nat) :
    (m.overNoise noise drawn).read w address =
      ((m.read w address).1, (m.read w address).2.overNoise noise drawn) :=
  congrArg (fun bytes : List UInt8 × Memory => (ofBigEndian bytes.1, bytes.2))
    (readBytes_overNoise h noise drawn)

theorem writeBytes_overNoise (address : UInt32) (bytes : List UInt8) (noise : Nat → UInt8)
    (drawn : Nat) :
    (m.overNoise noise drawn).writeBytes address bytes =
      (m.writeBytes address bytes).overNoise noise drawn := by
  induction bytes generalizing m address with
  | nil => rfl
  | cons b rest ih => exact ih (m := m.writeCell address b) (address + 1)

end Memory

namespace Machine

def overNoise (m : Machine) (noise : Nat → UInt8) (drawn : Nat) : Machine :=
  { m with memory := m.memory.overNoise noise drawn }

end Machine

namespace Exec

variable {α β : Type}

/-- No noise is given back, and over other noise the computation does the same unless it draws
some. -/
def Blind (x : Exec α) : Prop :=
  ∀ m : Machine, m.memory.drawn ≤ (stateAfter x m).memory.drawn ∧
    ((stateAfter x m).memory.drawn = m.memory.drawn →
      ∀ noise drawn, x (m.overNoise noise drawn) = mapState (·.overNoise noise drawn) (x m))

theorem Blind.bind {x : Exec α} {f : α → Exec β} (hx : Blind x) (hf : ∀ a, Blind (f a)) :
    Blind (x >>= f) := by
  intro m
  obtain ⟨hle, hsame⟩ := hx m
  rcases hfirst : x m with ⟨a, m'⟩ | ⟨fault, m'⟩
  · rw [stateAfter_of_ok hfirst] at hle hsame
    obtain ⟨hle', hsame'⟩ := hf a m'
    rw [stateAfter_bind_of_ok hfirst, bind_of_ok hfirst]
    refine ⟨Nat.le_trans hle hle', fun hquiet noise drawn => ?_⟩
    -- Nothing was drawn in all, so nothing was drawn by either link.
    have hnone : m'.memory.drawn = m.memory.drawn := by
      omega
    have hother := hsame hnone noise drawn
    rw [hfirst] at hother
    rw [bind_of_ok hother]
    exact hsame' (hquiet.trans hnone.symm) noise drawn
  · rw [stateAfter_of_error hfirst] at hle hsame
    rw [stateAfter_of_error (bind_of_error hfirst f), bind_of_error hfirst]
    refine ⟨hle, fun hquiet noise drawn => ?_⟩
    have hother := hsame hquiet noise drawn
    rw [hfirst] at hother
    exact bind_of_error hother f

theorem blind_modify {f : Machine → Machine} (hdrawn : ∀ m, (f m).memory.drawn = m.memory.drawn)
    (hsame : ∀ m noise drawn,
      f (Machine.overNoise m noise drawn) = (f m).overNoise noise drawn) :
    Blind (modify f : Exec Unit) := by
  intro m
  refine ⟨Nat.le_of_eq (hdrawn m).symm, fun _ noise drawn => ?_⟩
  exact congrArg (EStateM.Result.ok ()) (hsame m noise drawn)

/-- Looking at a machine shows no noise where the noise is not looked at. -/
theorem blind_get_bind {f : Machine → Exec α}
    (hlook : ∀ m noise drawn, f (Machine.overNoise m noise drawn) = f m) (hf : ∀ m, Blind (f m)) :
    Blind (get >>= f) := by
  intro m
  have hget (m : Machine) : (get : Exec Machine) m = .ok m m := rfl
  rw [stateAfter_bind_of_ok (hget m), bind_of_ok (hget m)]
  obtain ⟨hle, hsame⟩ := hf m m
  refine ⟨hle, fun hquiet noise drawn => ?_⟩
  rw [bind_of_ok (hget _), hlook]
  exact hsame hquiet noise drawn

theorem blind_next : Blind next := by
  intro m
  refine ⟨m.memory.le_drawn_readCell m.pc, fun hquiet noise drawn => ?_⟩
  exact congrArg
    (fun cell : UInt8 × Memory =>
      EStateM.Result.ok cell.1 (({ m with memory := cell.2 } : Machine).setRegister .xx (m.pc + 1)))
    (Memory.readCell_overNoise hquiet noise drawn)

theorem blind_readMemory (w : Width) (location : Location) : Blind (readMemory w location) := by
  intro m
  refine ⟨m.memory.le_drawn_read w _, fun hquiet noise drawn => ?_⟩
  exact congrArg
    (fun word : UInt32 × Memory => EStateM.Result.ok word.1 { m with memory := word.2 })
    (Memory.read_overNoise hquiet noise drawn)

theorem blind_load (w : Width) (operand : Addressing) : Blind (load w operand) := by
  cases operand with
  | register r => exact fun m => ⟨Nat.le_refl _, fun _ _ _ => rfl⟩
  | immediate value width => exact fun m => ⟨Nat.le_refl _, fun _ _ _ => rfl⟩
  | memory location => exact blind_readMemory w location

theorem blind_store (site : Site) (w : Width) (operand : Addressing) (value : UInt32) :
    Blind (store site w operand value) := by
  cases operand with
  | register r => exact blind_modify (fun _ => rfl) fun _ _ _ => rfl
  | immediate old width => exact fun m => ⟨Nat.le_refl _, fun _ _ _ => rfl⟩
  | memory location =>
      apply blind_modify
      · exact fun m => Memory.drawn_writeBytes _ _
      · intro m noise drawn
        exact congrArg (fun memory => { m with registers := m.registers.setFlag false, memory })
          (Memory.writeBytes_overNoise _ _ noise drawn)

theorem pervasive_blind : Pervasive Blind where
  pure _ := fun _ => ⟨Nat.le_refl _, fun _ _ _ => rfl⟩
  throw _ := fun _ => ⟨Nat.le_refl _, fun _ _ _ => rfl⟩
  bind := Blind.bind
  next := blind_next
  load := blind_load
  store := blind_store
  setFlag _ := blind_modify (fun _ => rfl) fun _ _ _ => rfl
  branch hf := blind_get_bind (fun _ _ _ => rfl) fun m => hf m.registers.flag

theorem blind_checkBudget : Blind checkBudget := by
  apply blind_get_bind
  · exact fun _ _ _ => rfl
  · intro m
    cases m.config.maxSteps with
    | none => exact pervasive_blind.pure ()
    | some limit =>
        by_cases hspent : limit.toNat ≤ m.profile.instructions
        · simp only [if_pos hspent]
          exact pervasive_blind.throw _
        · simp only [if_neg hspent]
          exact pervasive_blind.pure ()

theorem blind_fetchInstruction : Blind fetchInstruction := by
  apply blind_get_bind
  · exact fun _ _ _ => rfl
  · intro m
    refine blind_next.bind fun opcode => ?_
    cases Instruction.ofOpcode? opcode with
    | none => exact pervasive_blind.throw _
    | some i =>
        have hcount : Blind (modify fun m =>
            { m with profile := m.profile.record i.category } : Exec Unit) :=
          blind_modify (fun _ => rfl) fun _ _ _ => rfl
        exact hcount.bind fun _ => pervasive_blind.pure _

theorem blind_step : Blind step :=
  blind_checkBudget.bind fun _ => blind_fetchInstruction.bind fun site =>
    pervasive_blind.complete site

/-- A debug trap as a computation: two words are read at the frame, which stays where it is. -/
def trap : Exec Unit := do
  let resume ← readMemory .word (.indirect .f5)
  let value ← readMemory .word (.displaced .f5 4)
  modify fun m => { m.setRegister .xx resume with
    emitted := m.emitted.push value
    profile := m.profile.recordTrap }

theorem trap_eq_ok (m : Machine) : trap m = .ok () m.trap := by
  have hread (m : Machine) (location : Location) : readMemory .word location m =
      .ok (m.memory.read .word (location.address m.registers)).1
        { m with memory := (m.memory.read .word (location.address m.registers)).2 } := rfl
  have hmodify (f : Machine → Machine) (m : Machine) : (modify f : Exec Unit) m = .ok () (f m) :=
    rfl
  rw [trap, bind_of_ok (hread ..), bind_of_ok (hread ..), hmodify, Machine.trap_eq]
  simp only [Location.address, Machine.setRegister]

theorem stateAfter_trap (m : Machine) : stateAfter trap m = m.trap :=
  stateAfter_of_ok (trap_eq_ok m)

theorem blind_trap : Blind trap :=
  (blind_readMemory .word _).bind fun _ => (blind_readMemory .word _).bind fun _ =>
    blind_modify (fun _ => rfl) fun _ _ _ => rfl

end Exec

namespace Machine

variable {m m' : Machine} {n : Nat}

theorem le_drawn_tick (m : Machine) : m.memory.drawn ≤ m.tick.2.memory.drawn := by
  rcases htick : m.tick with ⟨status, next⟩
  rcases round_of_tick htick with _ | ⟨_, rfl⟩ | ⟨_, hstep⟩ | ⟨_, hstep⟩
  · exact Nat.le_refl _
  · exact Exec.stateAfter_trap m ▸ (Exec.blind_trap m).1
  · exact stateAfter_of_ok hstep ▸ (Exec.blind_step m).1
  · exact stateAfter_of_error hstep ▸ (Exec.blind_step m).1

/-- A round that draws nothing is the same over other noise. -/
theorem tick_overNoise (m : Machine) (noise : Nat → UInt8) (drawn : Nat)
    (h : m.tick.2.memory.drawn = m.memory.drawn) :
    (m.overNoise noise drawn).tick = (m.tick.1, m.tick.2.overNoise noise drawn) := by
  rcases htick : m.tick with ⟨status, next⟩
  rw [htick] at h
  rcases round_of_tick htick with hpc | ⟨hpc, rfl⟩ | ⟨hpc, hstep⟩ | ⟨hpc, hstep⟩
  · exact tick_of_returnAddress hpc
  · have hquiet := (Exec.blind_trap m).2
    rw [Exec.stateAfter_trap] at hquiet
    have hother := hquiet h noise drawn
    rw [Exec.trap_eq_ok, Exec.trap_eq_ok] at hother
    exact tick_of_atTrap (m := m.overNoise noise drawn) hpc (EStateM.Result.ok.inj hother).2
  · have hquiet := (Exec.blind_step m).2
    rw [stateAfter_of_ok hstep, hstep] at hquiet
    exact tick_of_step_ok (m := m.overNoise noise drawn) hpc (hquiet h noise drawn)
  · have hquiet := (Exec.blind_step m).2
    rw [stateAfter_of_error hstep, hstep] at hquiet
    exact tick_of_step_error (m := m.overNoise noise drawn) hpc (hquiet h noise drawn)

theorem le_drawn_runFor (m : Machine) (n : Nat) :
    m.memory.drawn ≤ (m.runFor n).2.memory.drawn := by
  induction n generalizing m with
  | zero => exact Nat.le_refl _
  | succ n ih =>
      have hfirst := m.le_drawn_tick
      rcases htick : m.tick with ⟨status, next⟩
      simp only [htick] at hfirst
      by_cases hrunning : status = .running
      · rw [hrunning] at htick
        rw [runFor_succ_of_running htick]
        exact Nat.le_trans hfirst (ih next)
      · rw [runFor_succ_of_ended htick hrunning]
        exact hfirst

theorem le_drawn_runFor_of_le (m : Machine) {k n : Nat} (hle : k ≤ n) :
    (m.runFor k).2.memory.drawn ≤ (m.runFor n).2.memory.drawn := by
  obtain ⟨more, rfl⟩ := Nat.exists_eq_add_of_le hle
  by_cases hrunning : (m.runFor k).1 = .running
  · rw [runFor_add hrunning]
    exact le_drawn_runFor _ more
  · have hended := runFor_of_ended (Prod.eta (m.runFor k)).symm hrunning more
    exact Nat.le_of_eq (congrArg (·.2.memory.drawn) hended.symm)

/-- No byte that is read within some rounds of a run is in an untouched cell, for every such byte is
drawn from the noise. -/
def ReadsTouched (m : Machine) (rounds : Nat) : Prop :=
  (m.runFor rounds).2.memory.drawn = m.memory.drawn

instance (m : Machine) (rounds : Nat) : Decidable (m.ReadsTouched rounds) :=
  inferInstanceAs (Decidable (_ = _))

theorem ReadsTouched.of_le (h : m.ReadsTouched n) {k : Nat} (hle : k ≤ n) :
    m.ReadsTouched k := by
  have hbefore := m.le_drawn_runFor k
  have hafter := m.le_drawn_runFor_of_le hle
  rw [ReadsTouched] at h ⊢
  omega

/-- Rounds that draw nothing are the same over other noise. -/
theorem runFor_overNoise (h : m.ReadsTouched n)
    (noise : Nat → UInt8) (drawn : Nat) :
    (m.overNoise noise drawn).runFor n =
      ((m.runFor n).1, (m.runFor n).2.overNoise noise drawn) := by
  induction n generalizing m with
  | zero => rfl
  | succ n ih =>
      rw [ReadsTouched] at h
      have hfirst := m.le_drawn_tick
      have hother := m.tick_overNoise noise drawn
      rcases htick : m.tick with ⟨status, next⟩
      simp only [htick] at hfirst hother
      by_cases hrunning : status = .running
      · rw [hrunning] at htick hother
        rw [runFor_succ_of_running htick] at h ⊢
        have hrest := next.le_drawn_runFor n
        have hnone : next.memory.drawn = m.memory.drawn := by
          omega
        rw [runFor_succ_of_running (hother hnone), ih (h.trans hnone.symm)]
      · rw [runFor_succ_of_ended htick hrunning] at h ⊢
        rw [runFor_succ_of_ended (hother h) hrunning]

/-- The machines differ at most in the noise of their memories. -/
structure SameButNoise (m m' : Machine) : Prop where
  config : m'.config = m.config
  registers : m'.registers = m.registers
  cells : m'.memory.cells = m.memory.cells
  emitted : m'.emitted = m.emitted
  profile : m'.profile = m.profile

theorem sameButNoise_overNoise (m : Machine) (noise : Nat → UInt8) (drawn : Nat) :
    m.SameButNoise (m.overNoise noise drawn) :=
  ⟨rfl, rfl, rfl, rfl, rfl⟩

theorem SameButNoise.eq_overNoise (h : m.SameButNoise m') :
    m' = m.overNoise m'.memory.noise m'.memory.drawn := by
  obtain ⟨config, registers, ⟨cells, noise, drawn⟩, emitted, profile⟩ := m'
  obtain ⟨rfl, rfl, rfl, rfl, rfl⟩ := h
  rfl

/-- As long as a run reads no untouched cell, it does not depend on what untouched cells would hold:
over other noise it goes on, returns and fails alike, through the same states, and reads no
untouched cell either. -/
theorem run_independent_of_noise (m m' : Machine) (hsame : m.SameButNoise m') (rounds : Nat)
    (htouched : m.ReadsTouched rounds) :
    ∀ k ≤ rounds, (m'.runFor k).1 = (m.runFor k).1 ∧
      (m.runFor k).2.SameButNoise (m'.runFor k).2 ∧ m'.ReadsTouched k := by
  intro k hk
  have hrun := runFor_overNoise (htouched.of_le hk) m'.memory.noise m'.memory.drawn
  rw [← hsame.eq_overNoise] at hrun
  rw [ReadsTouched, hrun]
  exact ⟨rfl, sameButNoise_overNoise .., rfl⟩

/-- A program that ends by the jump over its frame, beside cells that nobody has touched. -/
theorem run_independent_of_noise_returned :
    let start (noise : Nat → UInt8) : Machine := boot { entry := 0, frame := 0x100 }
      ((Memory.fresh noise).writeBytes 0 [0x08, 0x04, 0x05, 0x00, 0x08, 0xB0, 0xE0])
    ∀ noise, ((start noise).runFor 3).1 = .returned ∧
      ((start noise).runFor 3).2.registers.get .f0 = 5 ∧ (start noise).ReadsTouched 3 := by
  intro start noise
  have hsame : (start fun _ => 0).SameButNoise (start noise) := ⟨rfl, rfl, rfl, rfl, rfl⟩
  have htouched : (start fun _ => 0).ReadsTouched 3 := by
    decide +kernel
  have hvalue : ((start fun _ => 0).runFor 3).1 = .returned ∧
      ((start fun _ => 0).runFor 3).2.registers.get .f0 = 5 := by
    decide +kernel
  obtain ⟨hstatus, hend, hquiet⟩ :=
    run_independent_of_noise _ _ hsame 3 htouched 3 (Nat.le_refl 3)
  rw [hstatus, hend.registers]
  exact ⟨hvalue.1, hvalue.2, hquiet⟩

end Machine

end Cpu32
