/-!
# Outcomes of computations with a state

A computation that may fail ends in a state either way.  Chains of computations are opened at their
first link.
-/

namespace Cpu32

universe u

variable {ε σ α β : Type u}

/-- The state in which a computation ends, whether it fails or not. -/
def stateAfter (x : EStateM ε σ α) (s : σ) : σ :=
  match x s with
  | .ok _ s => s
  | .error _ s => s

/-- How a computation ends, without the state. -/
def outcome (x : EStateM ε σ α) (s : σ) : Except ε α :=
  match x s with
  | .ok a _ => .ok a
  | .error e _ => .error e

/-- The computation does not fail. -/
def Succeeds (x : EStateM ε σ α) (s : σ) : Prop :=
  ∃ a s', x s = .ok a s'

theorem Succeeds.ne_error {x : EStateM ε σ α} {s : σ} (h : Succeeds x s) (e : ε) (s' : σ) :
    x s ≠ .error e s' := by
  obtain ⟨a, t, hok⟩ := h
  rw [hok]
  nofun

instance (x : EStateM ε σ α) (s : σ) : Decidable (Succeeds x s) :=
  match h : x s with
  | .ok a s' => .isTrue ⟨a, s', h⟩
  | .error _ _ => .isFalse fun ⟨_, _, hok⟩ => nomatch h.symm.trans hok

/-- Both computations fail or neither does, and they end in the same state. -/
def EndsAlike {ε' : Type u} (x : EStateM ε σ α) (y : EStateM ε' σ β) (s : σ) : Prop :=
  (Succeeds x s ↔ Succeeds y s) ∧ stateAfter x s = stateAfter y s

section EndsAlike

variable {ε' : Type u} {x x' : EStateM ε σ α} {y y' : EStateM ε' σ β} {s t : σ}

theorem endsAlike_of_ok {a : α} {b : β} (hx : x s = .ok a t) (hy : y s = .ok b t) :
    EndsAlike x y s := by
  constructor
  · exact ⟨fun _ => ⟨b, t, hy⟩, fun _ => ⟨a, t, hx⟩⟩
  · rw [stateAfter, stateAfter, hx, hy]

theorem endsAlike_of_error {e : ε} {e' : ε'} (hx : x s = .error e t) (hy : y s = .error e' t) :
    EndsAlike x y s := by
  constructor
  · simp [Succeeds, hx, hy]
  · rw [stateAfter, stateAfter, hx, hy]

/-- Only the two outcomes count. -/
theorem EndsAlike.congr (h : EndsAlike x' y' t) (hx : x s = x' t) (hy : y s = y' t) :
    EndsAlike x y s := by
  rw [EndsAlike, Succeeds, Succeeds, stateAfter, stateAfter, hx, hy]
  exact h

end EndsAlike

/-- Renaming failures does not change where a computation ends. -/
@[simp] theorem stateAfter_adaptExcept {ε' : Type u} (f : ε → ε') (x : EStateM ε σ α) (s : σ) :
    stateAfter (EStateM.adaptExcept f x) s = stateAfter x s := by
  simp only [stateAfter, EStateM.adaptExcept]
  cases x s <;> rfl

theorem adaptExcept_eq_ok_iff {ε' : Type u} {f : ε → ε'} {x : EStateM ε σ α} {s s' : σ} {a : α} :
    EStateM.adaptExcept f x s = .ok a s' ↔ x s = .ok a s' := by
  rw [EStateM.adaptExcept]
  cases x s <;> simp

theorem adaptExcept_eq_error_iff {ε' : Type u} {f : ε → ε'} {x : EStateM ε σ α} {s s' : σ}
    {e' : ε'} : EStateM.adaptExcept f x s = .error e' s' ↔ ∃ e, x s = .error e s' ∧ f e = e' := by
  rw [EStateM.adaptExcept]
  cases x s with
  | ok a t => simp
  | error e t =>
      constructor
      · rintro ⟨⟩
        exact ⟨e, rfl, rfl⟩
      · rintro ⟨_, ⟨⟩, rfl⟩
        rfl

theorem ofExcept_of_ok {x : Except ε α} {a : α} (h : x = .ok a) (s : σ) :
    (ofExcept x : EStateM ε σ α) s = .ok a s := by
  rw [h]
  rfl

theorem ofExcept_eq_ok_iff {x : Except ε α} {s s' : σ} {a : α} :
    (ofExcept x : EStateM ε σ α) s = .ok a s' ↔ x = .ok a ∧ s = s' := by
  constructor
  · intro h
    cases x with
    | ok b =>
        cases h
        exact ⟨rfl, rfl⟩
    | error e => cases h
  · rintro ⟨hx, rfl⟩
    exact ofExcept_of_ok hx s

theorem ofExcept_of_error {x : Except ε α} {e : ε} (h : x = .error e) (s : σ) :
    (ofExcept x : EStateM ε σ α) s = .error e s := by
  rw [h]
  rfl

theorem bind_of_ok {x : EStateM ε σ α} {s s' : σ} {a : α} (h : x s = .ok a s')
    (f : α → EStateM ε σ β) : (x >>= f) s = f a s' := by
  change EStateM.bind x f s = f a s'
  simp only [EStateM.bind, h]

theorem bind_of_error {x : EStateM ε σ α} {s s' : σ} {e : ε} (h : x s = .error e s')
    (f : α → EStateM ε σ β) : (x >>= f) s = .error e s' := by
  change EStateM.bind x f s = _
  simp only [EStateM.bind, h]

theorem stateAfter_of_ok {x : EStateM ε σ α} {s s' : σ} {a : α} (h : x s = .ok a s') :
    stateAfter x s = s' := by
  rw [stateAfter, h]

theorem stateAfter_of_error {x : EStateM ε σ α} {s s' : σ} {e : ε} (h : x s = .error e s') :
    stateAfter x s = s' := by
  rw [stateAfter, h]

theorem stateAfter_bind_of_ok {x : EStateM ε σ α} {s s' : σ} {a : α} (h : x s = .ok a s')
    (f : α → EStateM ε σ β) : stateAfter (x >>= f) s = stateAfter (f a) s' := by
  rw [stateAfter, bind_of_ok h, stateAfter]

theorem get_bind (f : σ → EStateM ε σ β) (s : σ) : (get >>= f) s = f s s :=
  bind_of_ok rfl f

/-- A chain succeeds when both of its links do. -/
theorem bind_eq_ok_iff {x : EStateM ε σ α} {f : α → EStateM ε σ β} {s s'' : σ} {b : β} :
    (x >>= f) s = .ok b s'' ↔ ∃ a s', x s = .ok a s' ∧ f a s' = .ok b s'' := by
  cases h : x s with
  | ok a s' =>
      rw [bind_of_ok h]
      constructor
      · intro hf
        exact ⟨a, s', rfl, hf⟩
      · rintro ⟨a', s'', hx, hf⟩
        cases hx
        exact hf
  | error e s' =>
      rw [bind_of_error h]
      constructor
      · intro hf
        cases hf
      · rintro ⟨a', s'', hx, _⟩
        cases hx

/-- A chain fails at one of its links. -/
theorem bind_eq_error_iff {x : EStateM ε σ α} {f : α → EStateM ε σ β} {s s'' : σ} {e : ε} :
    (x >>= f) s = .error e s'' ↔
      x s = .error e s'' ∨ ∃ a s', x s = .ok a s' ∧ f a s' = .error e s'' := by
  cases h : x s with
  | ok a s' =>
      rw [bind_of_ok h]
      constructor
      · intro hf
        exact .inr ⟨a, s', rfl, hf⟩
      · rintro (hx | ⟨a', s'', hx, hf⟩)
        · cases hx
        · cases hx
          exact hf
  | error e' s' =>
      rw [bind_of_error h]
      simp

/-- A chain of computations that never fail never fails. -/
theorem succeeds_bind {x : EStateM ε σ α} {f : α → EStateM ε σ β} (hx : ∀ s, Succeeds x s)
    (hf : ∀ a s, Succeeds (f a) s) (s : σ) : Succeeds (x >>= f) s := by
  obtain ⟨a, s', hfirst⟩ := hx s
  obtain ⟨b, s'', hsecond⟩ := hf a s'
  exact ⟨b, s'', bind_eq_ok_iff.mpr ⟨a, s', hfirst, hsecond⟩⟩

/-- The same outcome in another state. -/
def mapState (f : σ → σ) : EStateM.Result ε σ α → EStateM.Result ε σ α
  | .ok a s => .ok a (f s)
  | .error e s => .error e (f s)

/-- A chain commutes with a change of the state when its links do. -/
theorem bind_mapState {x : EStateM ε σ α} {y : α → EStateM ε σ β} {f : σ → σ} {s : σ}
    (hx : x (f s) = mapState f (x s)) (hy : ∀ a s', y a (f s') = mapState f (y a s')) :
    (x >>= y) (f s) = mapState f ((x >>= y) s) := by
  cases h : x s with
  | ok a s' =>
      rw [h] at hx
      rw [bind_of_ok h, bind_of_ok hx]
      exact hy a s'
  | error e s' =>
      rw [h] at hx
      rw [bind_of_error h, bind_of_error hx]
      rfl

theorem outcome_of_mapState {x : EStateM ε σ α} {f : σ → σ} {s : σ}
    (h : x (f s) = mapState f (x s)) : outcome x (f s) = outcome x s := by
  rw [outcome, outcome, h]
  cases x s <;> rfl

theorem stateAfter_of_mapState {x : EStateM ε σ α} {f : σ → σ} {s : σ}
    (h : x (f s) = mapState f (x s)) : stateAfter x (f s) = f (stateAfter x s) := by
  rw [stateAfter, stateAfter, h]
  cases x s <;> rfl

/-- Renaming failures does not get in the way of a change of the state. -/
theorem adaptExcept_mapState {ε' : Type u} (g : ε → ε') {x : EStateM ε σ α} {f : σ → σ} {s : σ}
    (h : x (f s) = mapState f (x s)) :
    EStateM.adaptExcept g x (f s) = mapState f (EStateM.adaptExcept g x s) := by
  simp only [EStateM.adaptExcept, h]
  cases x s <;> rfl

/-- However the computation ends, it leaves the property true. -/
def Keeps (P : σ → Prop) (x : EStateM ε σ α) : Prop :=
  ∀ s, P s → P (stateAfter x s)

/-- If the computation succeeds, the property holds then. -/
def Ensures (Q : σ → Prop) (x : EStateM ε σ α) : Prop :=
  ∀ s a s', x s = .ok a s' → Q s'

section Keeps

variable {P Q : σ → Prop} {x : EStateM ε σ α} {f : α → EStateM ε σ β}

theorem keeps_pure (P : σ → Prop) (a : α) : Keeps P (pure a : EStateM ε σ α) :=
  fun _ h => h

theorem keeps_throw (P : σ → Prop) (e : ε) : Keeps P (throw e : EStateM ε σ α) :=
  fun _ h => h

theorem Keeps.bind (hx : Keeps P x) (hf : ∀ a, Keeps P (f a)) : Keeps P (x >>= f) := by
  intro s hs
  have hfirst := hx s hs
  cases h : x s with
  | ok a s' =>
      rw [stateAfter_of_ok h] at hfirst
      rw [stateAfter_bind_of_ok h]
      exact hf a s' hfirst
  | error e s' =>
      rw [stateAfter_of_error h] at hfirst
      rw [stateAfter_of_error (bind_of_error h f)]
      exact hfirst

theorem Keeps.of_ok (hx : Keeps P x) {s s' : σ} {a : α} (hs : P s) (h : x s = .ok a s') :
    P s' := by
  have hafter := hx s hs
  rwa [stateAfter_of_ok h] at hafter

theorem Keeps.of_error (hx : Keeps P x) {s s' : σ} {e : ε} (hs : P s) (h : x s = .error e s') :
    P s' := by
  have hafter := hx s hs
  rwa [stateAfter_of_error h] at hafter

theorem Ensures.bind (hf : ∀ a, Ensures Q (f a)) : Ensures Q (x >>= f) := by
  intro s b s'' h
  obtain ⟨a, s', _, hlast⟩ := bind_eq_ok_iff.mp h
  exact hf a s' b s'' hlast

end Keeps

/-- A computation that fails leaves the state as it was. -/
def IsAtomic (x : EStateM ε σ α) : Prop :=
  ∀ s e s', x s = .error e s' → s' = s

/-- The computation never changes the state. -/
def OnlyChecks (x : EStateM ε σ α) : Prop :=
  ∀ s, stateAfter x s = s

section IsAtomic

variable {x : EStateM ε σ α} {f : α → EStateM ε σ β}

theorem onlyChecks_get : OnlyChecks (get : EStateM ε σ σ) :=
  fun _ => rfl

theorem onlyChecks_throw (e : ε) : OnlyChecks (throw e : EStateM ε σ α) :=
  fun _ => rfl

theorem onlyChecks_ofExcept (x : Except ε α) : OnlyChecks (ofExcept x : EStateM ε σ α) := by
  cases x with
  | ok a => exact fun _ => rfl
  | error e => exact onlyChecks_throw e

theorem OnlyChecks.isAtomic (h : OnlyChecks x) : IsAtomic x := by
  intro s e s' hx
  rw [← stateAfter_of_error hx, h]

/-- What is checked first is no obstacle. -/
theorem OnlyChecks.bind (hx : OnlyChecks x) (hf : ∀ a, IsAtomic (f a)) : IsAtomic (x >>= f) := by
  intro s e s'' h
  rcases bind_eq_error_iff.mp h with hfirst | ⟨a, s', hfirst, hlast⟩
  · exact hx.isAtomic s e s'' hfirst
  · have hsame := hx s
    rw [stateAfter_of_ok hfirst] at hsame
    rw [← hsame]
    exact hf a s' e s'' hlast

theorem isAtomic_of_succeeds (h : ∀ s, Succeeds x s) : IsAtomic x :=
  fun s e s' hx => absurd hx ((h s).ne_error e s')

/-- Nor is what comes after it and never fails. -/
theorem IsAtomic.bind (hx : IsAtomic x) (hf : ∀ a s, Succeeds (f a) s) : IsAtomic (x >>= f) := by
  intro s e s'' h
  rcases bind_eq_error_iff.mp h with hfirst | ⟨a, s', _, hlast⟩
  · exact hx s e s'' hfirst
  · exact absurd hlast ((hf a s').ne_error e s'')

theorem IsAtomic.adaptExcept {ε' : Type u} (hx : IsAtomic x) (g : ε → ε') :
    IsAtomic (EStateM.adaptExcept g x) := by
  intro s e s' h
  obtain ⟨cause, hcause, _⟩ := adaptExcept_eq_error_iff.mp h
  exact hx s cause s' hcause

end IsAtomic

theorem exceptBind_of_ok {x : Except ε α} {a : α} (h : x = .ok a) (f : α → Except ε β) :
    (x >>= f) = f a := by
  rw [h]
  rfl

theorem exceptBind_eq_ok_iff {x : Except ε α} {f : α → Except ε β} {b : β} :
    (x >>= f) = .ok b ↔ ∃ a, x = .ok a ∧ f a = .ok b := by
  cases x with
  | ok a =>
      constructor
      · intro hf
        exact ⟨a, rfl, hf⟩
      · rintro ⟨a', hx, hf⟩
        cases hx
        exact hf
  | error e =>
      constructor
      · intro hf
        cases hf
      · rintro ⟨a', hx, _⟩
        cases hx

theorem exceptMap_eq_ok_iff {x : Except ε α} {f : α → β} {b : β} :
    x.map f = .ok b ↔ ∃ a, x = .ok a ∧ f a = b := by
  cases x <;> simp [Except.map]

end Cpu32
