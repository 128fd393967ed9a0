import Cpu32.Proofs.Outcome
import Cpu32.Source.Token

/-!
# Scanning characters

What a scan makes of the single characters of a word.  In printed text a word is a name or a sum of
two of them, and may end in an `@`.
-/

namespace Cpu32

open Text (isBlank)

theorem Text.not_isBlank_of_isAlphanum {c : Char} (h : c.isAlphanum) : isBlank c = false := by
  have hrange : 48 ≤ c.toNat ∧ c.toNat ≤ 122 := by
    change (decide (c.val ≥ 65 ∧ c.val ≤ 90) || c.val ≥ 97 && c.val ≤ 122 ||
      c.val ≥ 48 && c.val ≤ 57) = true at h
    simp [UInt32.le_iff_toNat_le] at h
    omega
  simp [isBlank]
  omega

namespace Source

/-- The character has no meaning of its own between or within words. -/
def isLetter (c : Char) : Bool :=
  !isBlank c && c != '#' && c != '@' && c != '+'

theorem isLetter_iff {c : Char} :
    isLetter c ↔ isBlank c = false ∧ c ≠ '#' ∧ c ≠ '@' ∧ c ≠ '+' := by
  simp [isLetter, and_assoc]

theorem isLetter_of_isAlphanum {c : Char} (h : c.isAlphanum) : isLetter c := by
  refine isLetter_iff.mpr ⟨Text.not_isBlank_of_isAlphanum h, ?_, ?_, ?_⟩ <;>
    intro hc <;> subst hc <;> exact absurd h (by decide)

/-- A word that can stand for itself. -/
def IsName (cs : List Char) : Prop :=
  cs ≠ [] ∧ cs.all isLetter

instance : DecidablePred IsName :=
  fun _ => inferInstanceAs (Decidable (_ ∧ _))

/-- A name, or two of them joined by `+`. -/
inductive IsBody : List Char → Prop
  | name {cs : List Char} (h : IsName cs) : IsBody cs
  | sum {left : List Char} {c : Char} {right : List Char} (hleft : IsName left)
      (hfirst : c.isAlphanum) (hright : right.all isLetter) :
      IsBody (left ++ '+' :: c :: right)

/-- A name or a sum, by itself or as a memory reference. -/
inductive IsWord : List Char → Prop
  | body {cs : List Char} (h : IsBody cs) : IsWord cs
  | reference {cs : List Char} (h : IsBody cs) : IsWord (cs ++ ['@'])

theorem not_mem_of_isLetter {cs : List Char} {mark : Char} (hcs : cs.all isLetter)
    (hmark : isLetter mark = false) : mark ∉ cs := by
  intro hmem
  have htrue := List.all_eq_true.mp hcs mark hmem
  rw [hmark] at htrue
  cases htrue

theorem IsBody.at_not_mem {cs : List Char} (h : IsBody cs) : '@' ∉ cs := by
  cases h with
  | name h => exact not_mem_of_isLetter h.2 (by decide)
  | @sum left c right hleft hfirst hright =>
      have hpart : (c :: right).all isLetter := by
        rw [List.all_cons, isLetter_of_isAlphanum hfirst, hright]
        rfl
      intro hmem
      rcases List.mem_append.mp hmem with hmem | hmem
      · exact not_mem_of_isLetter hleft.2 (by decide) hmem
      · rcases List.mem_cons.mp hmem with hmem | hmem
        · cases hmem
        · exact not_mem_of_isLetter hpart (by decide) hmem

namespace Scan

variable {position : Position} {finished : List Draft}

/-- The scan is between words or within one, so that the text may end. -/
def IsSettled (s : Scan) : Prop :=
  s.mode = .gap ∨ ∃ draft, s.mode = .word draft

/-- The words up to here. -/
def texts (s : Scan) : List String :=
  (s.closed.reverse.map Draft.token).map Token.text

theorem finish_eq_ok_iff (s : Scan) (words : List Token) :
    s.finish = .ok words ↔
      (∀ draft, s.mode ≠ .joining draft) ∧ s.closed.reverse.map Draft.token = words := by
  obtain ⟨position, finished, mode⟩ := s
  cases mode with
  | joining draft => simp [finish]
  | gap | word | comment => simp [finish]

theorem next_blank {s : Scan} {c : Char} (h : s.IsSettled) (hc : isBlank c) :
    s.next c = .ok ⟨s.position.advance c, s.closed, .gap⟩ := by
  obtain ⟨position, finished, mode⟩ := s
  rcases h with hmode | ⟨draft, hmode⟩
  · cases hmode
    simp [next, take, hc, closed]
  · cases hmode
    simp [next, take, hc, closed]

theorem next_letter {c : Char} (hc : isLetter c) :
    next ⟨position, finished, .gap⟩ c =
      .ok ⟨position.advance c, finished, .word ⟨position.advance c, [c]⟩⟩ := by
  obtain ⟨hblank, hcomment, hat, hplus⟩ := isLetter_iff.mp hc
  simp [next, take, takeLetter, hblank, hcomment, hat, hplus]

theorem next_letter_of_word {draft : Draft} {c : Char} (hc : isLetter c) :
    next ⟨position, finished, .word draft⟩ c =
      .ok ⟨position.advance c, finished, .word (draft.push c)⟩ := by
  obtain ⟨hblank, hcomment, hat, hplus⟩ := isLetter_iff.mp hc
  simp [next, take, takeLetter, hblank, hcomment, hat, hplus]

theorem next_plus {draft : Draft} :
    next ⟨position, finished, .word draft⟩ '+' =
      .ok ⟨position.advance '+', finished, .joining (draft.push '+')⟩ := rfl

theorem next_joined {draft : Draft} {c : Char} (hc : c.isAlphanum) :
    next ⟨position, finished, .joining draft⟩ c =
      .ok ⟨position.advance c, finished, .word (draft.push c)⟩ := by
  simp [next, take, takeJoined, hc, Text.not_isBlank_of_isAlphanum hc]

theorem next_at {draft : Draft} :
    next ⟨position, finished, .word draft⟩ '@' =
      .ok ⟨position.advance '@', draft.push '@' :: finished, .gap⟩ := rfl

end Scan

end Source

end Cpu32
