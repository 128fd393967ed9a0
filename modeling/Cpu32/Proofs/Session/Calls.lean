import Cpu32.Proofs.Outcome
import Cpu32.Source.File

/-!
# Calls on sessions

A call first looks at the session and at what it is given, and then changes the session by steps
that do not fail.  So it is carried out as a whole or not at all, although nothing takes back what
a call has done when it fails.
-/

namespace Cpu32

namespace Labels

variable (name : String) (offset : UInt32)

theorem define_eq_ok_iff (labels labels' : Labels) :
    define name offset labels = .ok () labels' ↔
      labels.find? name = none ∧ labels' = labels.insert name offset := by
  rw [define, get_bind]
  cases labels.find? name with
  | none =>
      constructor
      · rintro ⟨⟩
        exact ⟨rfl, rfl⟩
      · rintro ⟨_, rfl⟩
        rfl
  | some old =>
      constructor
      · rintro ⟨⟩
      · rintro ⟨⟨⟩, _⟩

/-- A name that is bound already is found out before any is bound. -/
theorem isAtomic_define : IsAtomic (define name offset) := by
  refine onlyChecks_get.bind fun labels => ?_
  cases labels.find? name with
  | none => exact isAtomic_of_succeeds fun labels => ⟨(), _, rfl⟩
  | some old => exact (onlyChecks_throw _).isAtomic

end Labels

open Source (Order Statement Token)

namespace Session

theorem onLabels_eq_ok_iff (x : EStateM DuplicateLabel Labels Unit) (s t : Session) :
    onLabels x s = .ok () t ↔ ∃ labels, x s.labels = .ok () labels ∧ t = { s with labels } := by
  rw [onLabels]
  cases x s.labels with
  | ok a labels => simp [eq_comm]
  | error e labels => simp

theorem isAtomic_onLabels {x : EStateM DuplicateLabel Labels Unit} (hx : IsAtomic x) :
    IsAtomic (onLabels x) := by
  intro s e t h
  rcases hresult : x s.labels with ⟨_, labels⟩ | ⟨cause, labels⟩
  · simp only [onLabels, hresult] at h
    cases h
  · simp only [onLabels, hresult] at h
    cases h
    rw [hx s.labels cause labels hresult]

/-- The session with a name bound in addition. -/
def withLabel (s : Session) (name : String) (offset : UInt32) : Session :=
  { s with labels := s.labels.insert name offset }

@[simp] theorem find?_withLabel (s : Session) (name other : String) (offset : UInt32) :
    (s.withLabel name offset).labels.find? other =
      if name = other then some offset else s.labels.find? other := by
  simp [withLabel, Labels.insert, Labels.find?, Std.ExtTreeMap.getElem?_insert]

variable {s t : Session} {name : String}

theorem define_eq_ok_iff (offset : UInt32) :
    onLabels (Labels.define name offset) s = .ok () t ↔
      s.labels.find? name = none ∧ t = s.withLabel name offset := by
  simp only [onLabels_eq_ok_iff, Labels.define_eq_ok_iff, withLabel]
  constructor
  · rintro ⟨_, ⟨hfree, rfl⟩, rfl⟩
    exact ⟨hfree, rfl⟩
  · rintro ⟨hfree, rfl⟩
    exact ⟨_, ⟨hfree, rfl⟩, rfl⟩

theorem append_eq_ok_iff (instruction : Instruction) (operands : List Operand) :
    append instruction operands s = .ok () t ↔
      ∃ code, assemble instruction operands = .ok code ∧ t = s.push code := by
  constructor
  · intro h
    obtain ⟨code, s', hcode, hpush⟩ := bind_eq_ok_iff.mp h
    obtain ⟨hassemble, rfl⟩ := ofExcept_eq_ok_iff.mp hcode
    cases hpush
    exact ⟨code, hassemble, rfl⟩
  · rintro ⟨code, hassemble, rfl⟩
    exact bind_of_ok (ofExcept_of_ok hassemble s) _

theorem bindNext_eq_ok_iff :
    bindNext name s = .ok () t ↔
      s.labels.find? name = none ∧ t = s.withLabel name s.offset :=
  define_eq_ok_iff s.offset

theorem bindPrevious_eq_ok_iff :
    bindPrevious name s = .ok () t ↔
      ∃ code, s.previous? = some code ∧ s.labels.find? name = none ∧
        t = s.withLabel name (s.offset - UInt32.ofNat code.size) := by
  rw [bindPrevious, get_bind]
  cases s.previous? with
  | none =>
      constructor
      · rintro ⟨⟩
      · rintro ⟨_, ⟨⟩, _⟩
  | some code =>
      constructor
      · intro h
        exact ⟨code, rfl, (define_eq_ok_iff _).mp h⟩
      · rintro ⟨_, ⟨⟩, h⟩
        exact (define_eq_ok_iff _).mpr h

theorem append_of_refused {instruction : Instruction} {operands : List Operand}
    {cause : AssemblyError} (h : assemble instruction operands = .error cause) (s : Session) :
    append instruction operands s = .error cause s :=
  bind_of_error (ofExcept_of_error h s) _

/-- All operands are encoded before the instruction is appended. -/
theorem isAtomic_append (instruction : Instruction) (operands : List Operand) :
    IsAtomic (append instruction operands) := by
  refine (onlyChecks_ofExcept _).bind fun code => ?_
  exact isAtomic_of_succeeds fun s => ⟨(), s.push code, rfl⟩

theorem isAtomic_appendComparison (a b : Operand) (relation : Instruction) :
    IsAtomic (appendComparison a b relation) := by
  rw [appendComparison]
  split
  · exact isAtomic_append relation [a, b]
  · exact (onlyChecks_throw _).isAtomic

theorem isAtomic_bindNext (name : String) : IsAtomic (bindNext name) :=
  onlyChecks_get.bind fun s => isAtomic_onLabels (Labels.isAtomic_define name s.offset)

theorem isAtomic_bindPrevious (name : String) : IsAtomic (bindPrevious name) := by
  refine onlyChecks_get.bind fun s => ?_
  cases s.previous? with
  | none => exact (onlyChecks_throw _).isAtomic
  | some code => exact isAtomic_onLabels (Labels.isAtomic_define name _)

theorem isAtomic_apply (statement : Statement) : IsAtomic (apply statement) := by
  cases statement with
  | instruction instruction operands => exact isAtomic_append instruction operands
  | bindNext name => exact isAtomic_bindNext name
  | bindPrevious name => exact isAtomic_bindPrevious name
  | exporting name => exact isAtomic_of_succeeds fun s => ⟨(), s.addExport name, rfl⟩
  | importing name => exact isAtomic_of_succeeds fun s => ⟨(), s.addImport name, rfl⟩
  | order order => exact isAtomic_of_succeeds fun s => ⟨(), s, rfl⟩

end Session

/-- A statement is read as a whole before it is carried out. -/
theorem Source.isAtomic_buildFirst (order : Order) (head : Token) (rest : List Token) :
    IsAtomic (buildFirst order head rest) := by
  refine (onlyChecks_ofExcept _).bind fun ⟨statement, taken⟩ => ?_
  refine (Session.isAtomic_apply statement).bind fun _ s => ?_
  exact ⟨(statement.orderAfter order, taken), s, rfl⟩

end Cpu32
