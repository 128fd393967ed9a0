import Cpu32.Proofs.Codec.Image
import Cpu32.Proofs.Session.History

/-!
# Labels on instruction boundaries

The offset of a session is kept up to date beside its code and wraps.  It always is the size of the
code, and every label lies where some instruction begins or the last one ends.  A label is never
moved, however the calls that follow turn out.
-/

namespace Cpu32

namespace Event

@[simp] theorem inFile_append_began (events : List Event) : inFile (events ++ [.began]) = 0 := by
  simp [inFile]

theorem inFile_append_built (events : List Event) (statement : Source.Statement) :
    inFile (events ++ [.built statement]) =
      inFile events + (instructions [.built statement]).length := by
  cases statement <;> simp [inFile, instructions, instruction?]

end Event

namespace Session

/-- What holds of a session with a given history. -/
structure Aligned (events : List Event) (s : Session) : Prop where
  offset_eq : s.offset = UInt32.ofNat (Code.totalSize s.code.toList)
  label_eq : ∀ name offset, s.labels.find? name = some offset →
    ∃ k ≤ s.code.size, offset = UInt32.ofNat (Code.totalSize (s.code.toList.take k))
  fileStart_add : s.fileStart + Event.inFile events = s.code.size

namespace Aligned

variable {events : List Event} {s t : Session}

theorem start (base : UInt32) : Aligned [] { base } where
  offset_eq := rfl
  label_eq := by
    intro name offset h
    simp [Labels.find?] at h
  fileStart_add := rfl

theorem push (h : Aligned events s) {instruction : Instruction} {operands : List Operand}
    (code : Code) :
    Aligned (events ++ [.built (.instruction instruction operands)]) (s.push code) where
  offset_eq := by
    simp only [Session.push, Array.toList_push, Code.totalSize_append, Code.totalSize_cons,
      Code.totalSize_nil, Nat.add_zero, UInt32.ofNat_add, h.offset_eq]
  label_eq := by
    intro name offset hname
    obtain ⟨k, hk, hoffset⟩ := h.label_eq name offset hname
    refine ⟨k, by simp [Session.push]; omega, ?_⟩
    rw [Session.push, Array.toList_push, List.take_append_of_le_length (by simpa using hk)]
    exact hoffset
  fileStart_add := by
    have hfile := h.fileStart_add
    rw [Event.inFile_append_built]
    simp [Session.push, Event.instructions, Event.instruction?]
    omega

/-- Only the history of files and instructions counts. -/
theorem of_code_eq (h : Aligned events s) {statement : Source.Statement}
    (hstatement : Event.instructions [.built statement] = [])
    (hoffset : t.offset = s.offset) (hcode : t.code = s.code) (hfile : t.fileStart = s.fileStart)
    (hlabels : ∀ name offset, t.labels.find? name = some offset →
      s.labels.find? name = some offset ∨
        ∃ k ≤ s.code.size, offset = UInt32.ofNat (Code.totalSize (s.code.toList.take k))) :
    Aligned (events ++ [.built statement]) t where
  offset_eq := by
    rw [hoffset, hcode, h.offset_eq]
  label_eq := by
    intro name offset hname
    rw [hcode]
    rcases hlabels name offset hname with hold | hnew
    · exact h.label_eq name offset hold
    · exact hnew
  fileStart_add := by
    rw [Event.inFile_append_built, hstatement, hfile, hcode]
    exact h.fileStart_add

theorem withLabel (h : Aligned events s) {statement : Source.Statement}
    (hstatement : Event.instructions [.built statement] = []) (name : String) {offset : UInt32}
    {k : Nat} (hk : k ≤ s.code.size)
    (hoffset : offset = UInt32.ofNat (Code.totalSize (s.code.toList.take k))) :
    Aligned (events ++ [.built statement]) (s.withLabel name offset) := by
  refine h.of_code_eq hstatement rfl rfl rfl ?_
  intro other value hother
  rw [find?_withLabel] at hother
  split at hother
  · cases hother
    exact Or.inr ⟨k, hk, hoffset⟩
  · exact Or.inl hother

/-- The whole code ends where the next instruction begins. -/
theorem offset_eq_take (h : Aligned events s) :
    s.offset = UInt32.ofNat (Code.totalSize (s.code.toList.take s.code.size)) := by
  rw [h.offset_eq, ← Array.length_toList, List.take_length]

/-- The last instruction begins where the code before it ends. -/
theorem offset_sub_previous (h : Aligned events s) {code : Code} (hcode : s.previous? = some code) :
    s.offset - UInt32.ofNat code.size =
      UInt32.ofNat (Code.totalSize (s.code.toList.take (s.code.size - 1))) := by
  rw [previous?] at hcode
  split at hcode
  · obtain ⟨earlier, hpush⟩ := Array.back?_eq_some_iff.mp hcode
    have htake : s.code.toList.take (s.code.size - 1) = earlier.toList := by
      rw [hpush, Array.size_push, Nat.add_sub_cancel, Array.toList_push]
      exact List.take_left
    have hsize : Code.totalSize s.code.toList =
        Code.totalSize earlier.toList + code.size := by
      simp [hpush]
    rw [h.offset_eq, htake, hsize, UInt32.ofNat_add, UInt32.add_sub_cancel]
  · cases hcode

theorem step (h : Aligned events s) {event : Event} (hstep : Step s event t) :
    Aligned (events ++ [event]) t := by
  cases hstep with
  | began =>
      refine ⟨h.offset_eq, h.label_eq, ?_⟩
      rw [Event.inFile_append_began]
      rfl
  | instruction hcode => exact h.push _
  | bindNext hfree => exact h.withLabel rfl _ (Nat.le_refl _) h.offset_eq_take
  | bindPrevious hcode hfree =>
      exact h.withLabel rfl _ (Nat.sub_le _ 1) (h.offset_sub_previous hcode)
  | exporting name => exact h.of_code_eq rfl rfl rfl rfl fun _ _ => Or.inl
  | importing name => exact h.of_code_eq rfl rfl rfl rfl fun _ _ => Or.inl
  | order order => exact h.of_code_eq rfl rfl rfl rfl fun _ _ => Or.inl

theorem of_builds {base : UInt32} (h : Builds { base } events s) : Aligned events s := by
  induction h with
  | start => exact .start base
  | step _ hstep ih => exact ih.step hstep

/-- There is an instruction to label exactly if the file has one. -/
theorem exists_previous?_iff (h : Aligned events s) :
    (∃ code, s.previous? = some code) ↔ 0 < Event.inFile events := by
  have hfile := h.fileStart_add
  by_cases hlt : s.fileStart < s.code.size
  · have hne : s.code.back? ≠ none := by
      intro hnone
      rw [Array.back?_eq_none_iff] at hnone
      simp [hnone] at hlt
    rw [previous?, if_pos hlt, ← Option.ne_none_iff_exists']
    exact ⟨fun _ => by omega, fun _ => hne⟩
  · rw [previous?, if_neg hlt]
    constructor
    · intro hcode
      obtain ⟨code, hcode⟩ := hcode
      cases hcode
    · intro hpos
      omega

end Aligned

/-- A step never takes away code or labels. -/
theorem Step.grows {s t : Session} {event : Event} (h : Step s event t) :
    s.code.toList <+: t.code.toList ∧
      ∀ name offset, s.labels.find? name = some offset → t.labels.find? name = some offset := by
  have hkept {name : String} (hfree : s.labels.find? name = none) (new : UInt32) :
      ∀ other offset, s.labels.find? other = some offset →
        (s.withLabel name new).labels.find? other = some offset := by
    intro other offset hother
    have hne : name ≠ other := by
      intro heq
      rw [heq, hother] at hfree
      cases hfree
    rw [find?_withLabel, if_neg hne, hother]
  cases h with
  | instruction hcode =>
      refine ⟨?_, fun _ _ h => h⟩
      rw [push, Array.toList_push]
      exact List.prefix_append _ _
  | bindNext hfree => exact ⟨List.prefix_refl _, hkept hfree _⟩
  | bindPrevious hcode hfree => exact ⟨List.prefix_refl _, hkept hfree _⟩
  | began | exporting | importing | order => exact ⟨List.prefix_refl _, fun _ _ h => h⟩

theorem Builds.grows {s t : Session} {events : List Event} (h : Builds s events t) :
    s.code.toList <+: t.code.toList ∧
      ∀ name offset, s.labels.find? name = some offset → t.labels.find? name = some offset := by
  induction h with
  | start => exact ⟨List.prefix_refl _, fun _ _ h => h⟩
  | step _ hstep ih =>
      obtain ⟨hcode, hlabels⟩ := hstep.grows
      exact ⟨ih.1.trans hcode, fun name offset h => hlabels name offset (ih.2 name offset h)⟩

end Session

namespace Edit

theorem perform_bindNext_eq_ok_iff (name : String) (s t : Session) :
    (bindNext name).perform s = .ok () t ↔
      s.labels.find? name = none ∧ t = s.withLabel name s.offset := by
  rw [perform, adaptExcept_eq_ok_iff, Session.bindNext_eq_ok_iff]

theorem perform_bindPrevious_eq_ok_iff (name : String) (s t : Session) :
    (bindPrevious name).perform s = .ok () t ↔
      s.labels.find? name = none ∧ ∃ code, s.previous? = some code ∧
        t = s.withLabel name (s.offset - UInt32.ofNat code.size) := by
  rw [perform, adaptExcept_eq_ok_iff, Session.bindPrevious_eq_ok_iff]
  constructor
  · rintro ⟨code, hcode, hfree, rfl⟩
    exact ⟨hfree, code, hcode, rfl⟩
  · rintro ⟨hfree, code, hcode, rfl⟩
    exact ⟨code, hcode, hfree, rfl⟩

end Edit

namespace Session

/-- Whatever calls a session has seen, its offset is the size of its code, its labels lie on
boundaries of instructions, the two kinds of labels are bound where they should be and when they
should be, and nothing that is called later moves a label or the code before it. -/
theorem labels_on_boundaries (base : UInt32) (edits : List Edit) :
    let s := ({ base } : Session).after edits
    s.offset = UInt32.ofNat (Code.totalSize s.code.toList) ∧
      (∀ name offset, s.labels.find? name = some offset →
        ∃ k ≤ s.code.size, offset = UInt32.ofNat (Code.totalSize (s.code.toList.take k))) ∧
      (∀ name t, (Edit.bindNext name).perform s = .ok () t ↔
        s.labels.find? name = none ∧
          t = s.withLabel name (UInt32.ofNat (Code.totalSize s.code.toList))) ∧
      (∀ name t, (Edit.bindPrevious name).perform s = .ok () t ↔
        (s.labels.find? name = none ∧
          0 < Event.inFile (({ base } : Session).history edits)) ∧
          t = s.withLabel name (UInt32.ofNat (Code.totalSize s.code.toList.dropLast))) ∧
      ∀ later, s.code.toList <+: (s.after later).code.toList ∧
        ∀ name offset, s.labels.find? name = some offset →
          (s.after later).labels.find? name = some offset := by
  intro s
  have h := Aligned.of_builds (builds_history { base } edits)
  refine ⟨h.offset_eq, h.label_eq, ?_, ?_, fun later => (builds_history s later).grows⟩
  · intro name t
    rw [Edit.perform_bindNext_eq_ok_iff, h.offset_eq]
  · intro name t
    rw [Edit.perform_bindPrevious_eq_ok_iff, ← h.exists_previous?_iff, List.dropLast_eq_take,
      Array.length_toList]
    constructor
    · intro hbind
      obtain ⟨hfree, code, hcode, rfl⟩ := hbind
      exact ⟨⟨hfree, code, hcode⟩, by rw [h.offset_sub_previous hcode]⟩
    · intro hbind
      obtain ⟨⟨hfree, code, hcode⟩, rfl⟩ := hbind
      exact ⟨hfree, code, hcode, by rw [h.offset_sub_previous hcode]⟩

/-- A name that is bound twice keeps its first place, also through a source file. -/
theorem labels_on_boundaries_rebound :
    let s := ({ base := 0 } : Session).after
      [.append .krz [{ shape := .immediate 1 }, { shape := .register .f0 }],
        .bindPrevious "first", .bindNext "second", .bindNext "first"]
    s.labels.find? "second" = some 4 ∧
      (∃ k ≤ s.code.size, 4 = UInt32.ofNat (Code.totalSize (s.code.toList.take k))) ∧
      (s.after [.feed "nac f0 nll second", .bindPrevious "second"]).labels.find? "second" =
        some 4 := by
  intro s
  obtain ⟨_, hboundary, _, _, hlater⟩ := labels_on_boundaries 0
    [.append .krz [{ shape := .immediate 1 }, { shape := .register .f0 }],
      .bindPrevious "first", .bindNext "second", .bindNext "first"]
  exact ⟨rfl, hboundary "second" 4 rfl, (hlater _).2 "second" 4 rfl⟩

end Session

end Cpu32
