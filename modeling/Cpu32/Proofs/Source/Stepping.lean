import Cpu32.Proofs.Source.Scanning

/-!
# Steps of the scan

What reading one character does to a scan, as a relation with one rule for each kind of character
and place.  What holds of all texts that are scanned without an error is shown by these rules.
-/

namespace Cpu32.Source

open Text (isBlank)

namespace Scan

/-- The word that a mark goes to, and the finished words before it: the current word, or the last
one if the mark stands apart. -/
inductive Reaches : Scan → Draft → List Draft → Prop
  | current (position : Position) (finished : List Draft) (draft : Draft) :
      Reaches ⟨position, finished, .word draft⟩ draft finished
  | last (position : Position) (finished : List Draft) {draft : Draft}
      (hdraft : draft.isAttachable) : Reaches ⟨position, draft :: finished, .gap⟩ draft finished

/-- One character is read. -/
inductive Step : Scan → Char → Scan → Prop
  | hidden (position : Position) (finished : List Draft) {c : Char} (hc : c ≠ '\n') :
      Step ⟨position, finished, .comment⟩ c ⟨position.advance c, finished, .comment⟩
  | commentEnd (position : Position) (finished : List Draft) :
      Step ⟨position, finished, .comment⟩ '\n' ⟨position.advance '\n', finished, .gap⟩
  | comment {s : Scan} (hs : s.IsSettled) :
      Step s '#' ⟨s.position.advance '#', s.closed, .comment⟩
  | blank {s : Scan} {c : Char} (hs : s.IsSettled) (hc : isBlank c) :
      Step s c ⟨s.position.advance c, s.closed, .gap⟩
  | first (position : Position) (finished : List Draft) {c : Char} (hc : isLetter c) :
      Step ⟨position, finished, .gap⟩ c
        ⟨position.advance c, finished, .word ⟨position.advance c, [c]⟩⟩
  | letter (position : Position) (finished : List Draft) (draft : Draft) {c : Char}
      (hc : isLetter c) :
      Step ⟨position, finished, .word draft⟩ c
        ⟨position.advance c, finished, .word (draft.push c)⟩
  | reference {s : Scan} {draft : Draft} {finished : List Draft} (hs : s.Reaches draft finished) :
      Step s '@' ⟨s.position.advance '@', draft.push '@' :: finished, .gap⟩
  | plus {s : Scan} {draft : Draft} {finished : List Draft} (hs : s.Reaches draft finished) :
      Step s '+' ⟨s.position.advance '+', finished, .joining (draft.push '+')⟩
  | skip (position : Position) (finished : List Draft) (draft : Draft) {c : Char}
      (hc : isBlank c) :
      Step ⟨position, finished, .joining draft⟩ c ⟨position.advance c, finished, .joining draft⟩
  | joined (position : Position) (finished : List Draft) (draft : Draft) {c : Char}
      (hc : c.isAlphanum) :
      Step ⟨position, finished, .joining draft⟩ c
        ⟨position.advance c, finished, .word (draft.push c)⟩

variable {s t : Scan} {c : Char}

theorem Step.position_eq (h : Step s c t) : t.position = s.position.advance c := by
  cases h <;> rfl

theorem step_of_takeAt (hs : s.IsSettled)
    (h : takeAt { s with position := s.position.advance '@' } = .ok t) : Step s '@' t := by
  obtain ⟨position, finished, mode⟩ := s
  rcases hs with hmode | ⟨draft, hmode⟩
  · cases hmode
    rcases finished with _ | ⟨draft, finished⟩
    · cases h
    · simp only [takeAt] at h
      split at h
      · cases h
        exact .reference (.last position finished (by assumption))
      · cases h
  · cases hmode
    cases h
    exact .reference (.current position finished draft)

theorem step_of_takePlus (hs : s.IsSettled)
    (h : takePlus { s with position := s.position.advance '+' } = .ok t) : Step s '+' t := by
  obtain ⟨position, finished, mode⟩ := s
  rcases hs with hmode | ⟨draft, hmode⟩
  · cases hmode
    rcases finished with _ | ⟨draft, finished⟩
    · cases h
    · simp only [takePlus] at h
      split at h
      · cases h
        exact .plus (.last position finished (by assumption))
      · cases h
  · cases hmode
    cases h
    exact .plus (.current position finished draft)

theorem step_takeLetter (hs : s.IsSettled) (hc : isLetter c) :
    Step s c (takeLetter { s with position := s.position.advance c } c) := by
  obtain ⟨position, finished, mode⟩ := s
  rcases hs with hmode | ⟨draft, hmode⟩
  · cases hmode
    exact .first position finished hc
  · cases hmode
    exact .letter position finished draft hc

/-- Between words and within them the character decides what is done. -/
theorem step_of_settled (hs : s.IsSettled) (h : s.next c = .ok t) : Step s c t := by
  -- Both modes try the character against the same list, so the cases need not be split by mode.
  have htake : s.next c =
      if isBlank c then .ok ⟨s.position.advance c, s.closed, .gap⟩
      else if c = '#' then .ok ⟨s.position.advance c, s.closed, .comment⟩
      else if c = '@' then takeAt { s with position := s.position.advance c }
      else if c = '+' then takePlus { s with position := s.position.advance c }
      else .ok (takeLetter { s with position := s.position.advance c } c) := by
    obtain ⟨position, finished, mode⟩ := s
    rcases hs with hmode | ⟨draft, hmode⟩
    · cases hmode
      rfl
    · cases hmode
      rfl
  rw [htake] at h
  split at h
  · cases h
    exact .blank hs (by assumption)
  split at h
  · subst c
    cases h
    exact .comment hs
  split at h
  · subst c
    exact step_of_takeAt hs h
  split at h
  · subst c
    exact step_of_takePlus hs h
  cases h
  apply step_takeLetter hs
  exact isLetter_iff.mpr ⟨by simpa using ‹¬ isBlank c›, by assumption, by assumption, by assumption⟩

/-- Reading a character succeeds exactly when it is a step. -/
theorem next_eq_ok_iff : s.next c = .ok t ↔ Step s c t := by
  constructor
  · intro h
    obtain ⟨position, finished, mode⟩ := s
    cases mode with
    | gap => exact step_of_settled (.inl rfl) h
    | word draft => exact step_of_settled (.inr ⟨draft, rfl⟩) h
    | comment =>
        by_cases hc : c = '\n'
        · subst hc
          cases h
          exact .commentEnd position finished
        · simp only [next, take, if_neg hc] at h
          cases h
          exact .hidden position finished hc
    | joining draft =>
        simp only [next, take, takeJoined] at h
        split at h
        · cases h
          exact .skip position finished draft (by assumption)
        split at h
        · cases h
          exact .joined position finished draft (by assumption)
        · cases h
  · intro h
    cases h with
    | hidden position finished hc => simp [next, take, hc]
    | commentEnd position finished => rfl
    | comment hs =>
        obtain ⟨position, finished, mode⟩ := s
        rcases hs with hmode | ⟨draft, hmode⟩
        · cases hmode
          rfl
        · cases hmode
          rfl
    | blank hs hc => exact next_blank hs hc
    | first position finished hc => exact next_letter hc
    | letter position finished draft hc => exact next_letter_of_word hc
    | reference hs =>
        cases hs with
        | current position finished draft => rfl
        | last position finished hdraft => exact if_pos hdraft
    | plus hs =>
        cases hs with
        | current position finished draft => rfl
        | last position finished hdraft => exact if_pos hdraft
    | skip position finished draft hc => exact if_pos hc
    | joined position finished draft hc => exact next_joined hc

/-- A text that is scanned without an error up to its end, one step for each character. -/
inductive Scans : List Char → Scan → Prop
  | start : Scans [] {}
  | step {cs : List Char} {s : Scan} {c : Char} {t : Scan} (hscans : Scans cs s)
      (hstep : Step s c t) : Scans (cs ++ [c]) t

theorem scans_of_foldlM {cs rest : List Char} (hs : Scans cs s)
    (h : rest.foldlM next s = .ok t) : Scans (cs ++ rest) t := by
  induction rest generalizing cs s with
  | nil =>
      cases h
      rw [List.append_nil]
      exact hs
  | cons c rest ih =>
      rw [List.foldlM_cons] at h
      obtain ⟨u, hu, hrest⟩ := exceptBind_eq_ok_iff.mp h
      rw [List.append_cons]
      exact ih (hs.step (next_eq_ok_iff.mp hu)) hrest

end Scan

/-- The words of a text are those of the scan at its end, where no `+` is left open. -/
theorem tokenize_eq_ok {source : String} {words : List Token} (h : tokenize source = .ok words) :
    ∃ s, Scan.Scans source.toList s ∧ (∀ draft, s.mode ≠ .joining draft) ∧
      s.closed.reverse.map Draft.token = words := by
  obtain ⟨s, hs, hfinish⟩ := exceptBind_eq_ok_iff.mp h
  exact ⟨s, Scan.scans_of_foldlM .start hs, (s.finish_eq_ok_iff words).mp hfinish⟩

end Cpu32.Source
