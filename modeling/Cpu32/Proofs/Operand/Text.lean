import Cpu32.Operand.Text
import Cpu32.Proofs.Source.Scanning

/-!
# Operands in source form

What an operand is written as is one word, and reads back as the operand.
-/

namespace Cpu32

namespace Text

theorem isDigit_of_mem_toDigits {n : Nat} {c : Char} (h : c ∈ Nat.toDigits 10 n) : c.isDigit :=
  Nat.isDigit_of_mem_toDigits (by decide) (by decide) h

theorem number?_toDigits (n : Nat) : number? (Nat.toDigits 10 n) = some n := by
  have hdigits : (Nat.toDigits 10 n).all Char.isDigit :=
    List.all_eq_true.mpr fun c hc => isDigit_of_mem_toDigits hc
  rw [number?, if_pos ⟨Nat.toDigits_ne_nil, hdigits⟩, Nat.ofDigitChars_ten_toDigits]

theorem word?_toDigits (value : UInt32) : word? (Nat.toDigits 10 value.toNat) = some value := by
  have hvalue : value.toNat < UInt32.size := value.toNat_lt
  simp only [word?, number?_toDigits, if_pos hvalue, UInt32.ofNat_toNat]

/-- A number begins with a digit. -/
theorem word?_eq_none {cs : List Char} (h : ¬ cs.head?.any Char.isDigit) : word? cs = none := by
  have hnumber : number? cs = none := by
    rw [number?, if_neg]
    intro hdigits
    cases cs with
    | nil => exact hdigits.1 rfl
    | cons c cs =>
        exact h (List.all_eq_true.mp hdigits.2 c List.mem_cons_self)
  rw [word?, hnumber]

end Text

theorem Register.ofName?_name (r : Register) : ofName? r.name = some r := by
  cases r <;> decide

/-- No register is called by a digit. -/
theorem Register.ofName?_eq_none {c : Char} {cs : List Char} (h : c.isDigit) :
    ofName? (String.ofList (c :: cs)) = none := by
  have hlower : c.toLower = c := by
    refine dif_neg ?_
    intro hupper
    have hletter : 65 ≤ c.toNat := UInt32.le_iff_toNat_le.mp hupper.1
    simp only [Char.isDigit, Bool.and_eq_true, decide_eq_true_eq] at h
    have hdigit : c.toNat ≤ 57 := UInt32.le_iff_toNat_le.mp h.2
    omega
  rw [ofName?, List.find?_eq_none]
  intro r _ hsame
  simp only [Text.sameLetters, String.toList_ofList, List.map_cons, hlower] at hsame
  have hname : c = 'f' ∨ c = 'x' := by
    cases r <;> simp [name] at hsame <;> simp [← hsame.1]
  rcases hname with rfl | rfl
  · exact absurd h (by decide)
  · exact absurd h (by decide)

namespace Operand

open Source (IsName IsBody IsWord isLetter)

variable {cs left right : List Char}

theorem stripAt_append_at : stripAt (cs ++ ['@']) = (cs, true) := by
  simp [stripAt]

theorem stripAt_of_not_mem (h : '@' ∉ cs) : stripAt cs = (cs, false) := by
  rw [stripAt]
  split
  · rename_i hreverse
    have hmem : '@' ∈ cs.reverse := by
      rw [hreverse]
      exact List.mem_cons_self
    exact absurd (List.mem_reverse.mp hmem) h
  · rfl

theorem ne_plus_of_not_mem (h : '+' ∉ cs) : ∀ c ∈ cs, decide (c ≠ '+') := by
  intro c hc
  have hne : c ≠ '+' := fun heq => h (heq ▸ hc)
  exact decide_eq_true hne

theorem splitPlus_append (h : '+' ∉ left) :
    splitPlus (left ++ '+' :: right) = some (left, right) := by
  rw [splitPlus, List.dropWhile_append_of_pos (ne_plus_of_not_mem h),
    List.takeWhile_append_of_pos (ne_plus_of_not_mem h)]
  simp

theorem splitPlus_of_not_mem (h : '+' ∉ cs) : splitPlus cs = none := by
  have hdrop : (cs ++ []).dropWhile (· ≠ '+') = [].dropWhile (· ≠ '+') :=
    List.dropWhile_append_of_pos (ne_plus_of_not_mem h)
  rw [List.append_nil] at hdrop
  rw [splitPlus, hdrop]
  rfl

/-- An operand that reads back from its text: a label has to be a name that is neither a number nor
a register. -/
def IsPrintable (o : Operand) : Prop :=
  match o.shape with
  | .label name =>
      IsName name.toList ∧ ¬ name.toList.head?.any Char.isDigit ∧ Register.ofName? name = none
  | _ => True

instance : DecidablePred IsPrintable
  | ⟨.label _, _⟩ => inferInstanceAs (Decidable (_ ∧ _ ∧ _))
  | ⟨.immediate _, _⟩ | ⟨.register _, _⟩ | ⟨.displaced .., _⟩ | ⟨.indexed .., _⟩ => .isTrue trivial

theorem toList_text (o : Operand) :
    o.text.toList = o.shape.text.toList ++ if o.address then ['@'] else [] := by
  rw [text]
  split <;> simp

theorem toList_displaced (base : Register) (displacement : UInt32) :
    (Shape.displaced base displacement).text.toList =
      base.name.toList ++ '+' :: Nat.toDigits 10 displacement.toNat := by
  change (base.name ++ "+" ++ toString displacement.toNat).toList = _
  simp

theorem toList_indexed (base index : Register) :
    (Shape.indexed base index).text.toList = base.name.toList ++ '+' :: index.name.toList := by
  change (base.name ++ "+" ++ index.name).toList = _
  simp

theorem toList_immediate (value : UInt32) :
    (Shape.immediate value).text.toList = Nat.toDigits 10 value.toNat := by
  simp [Shape.text]

theorem isAlphanum_of_mem_toDigits {n : Nat} {c : Char} (h : c ∈ Nat.toDigits 10 n) :
    c.isAlphanum := by
  exact Bool.or_eq_true_iff.mpr (.inr (Text.isDigit_of_mem_toDigits h))

theorem isName_digits (n : Nat) : IsName (Nat.toDigits 10 n) := by
  refine ⟨Nat.toDigits_ne_nil, List.all_eq_true.mpr ?_⟩
  intro c hc
  exact Source.isLetter_of_isAlphanum (isAlphanum_of_mem_toDigits hc)

theorem isName_register (r : Register) : IsName r.name.toList := by
  cases r <;> decide

/-- The text of a shape is a word without an `@`. -/
theorem isBody_text {o : Operand} (h : o.IsPrintable) : IsBody o.shape.text.toList := by
  obtain ⟨shape, address⟩ := o
  cases shape with
  | immediate value =>
      rw [toList_immediate]
      exact .name (isName_digits _)
  | register r => exact .name (isName_register r)
  | displaced base displacement =>
      rw [toList_displaced]
      obtain ⟨hne, hletters⟩ := isName_digits displacement.toNat
      have halphanum := fun c => isAlphanum_of_mem_toDigits (n := displacement.toNat) (c := c)
      cases hdigits : Nat.toDigits 10 displacement.toNat with
      | nil => exact absurd hdigits hne
      | cons c rest =>
          rw [hdigits] at hletters halphanum
          rw [List.all_cons, Bool.and_eq_true] at hletters
          exact .sum (isName_register base) (halphanum c List.mem_cons_self) hletters.2
  | indexed base index =>
      rw [toList_indexed]
      cases index <;> exact .sum (isName_register base) (by decide) (by decide)
  | label name => exact .name h.1

theorem isWord_text {o : Operand} (h : o.IsPrintable) : IsWord o.text.toList := by
  rw [toList_text]
  cases o.address with
  | false => simpa using IsWord.body (isBody_text h)
  | true => exact .reference (isBody_text h)

theorem stripAt_text {o : Operand} (h : o.IsPrintable) :
    stripAt o.text.toList = (o.shape.text.toList, o.address) := by
  rw [toList_text]
  cases o.address with
  | false => simpa using stripAt_of_not_mem (isBody_text h).at_not_mem
  | true => exact stripAt_append_at

namespace Shape

theorem plus_not_mem (h : IsName cs) : '+' ∉ cs :=
  Source.not_mem_of_isLetter h.2 (by decide)

theorem register?_name (r : Register) : register? r.name.toList = some r := by
  rw [register?, String.ofList_toList, Register.ofName?_name]

theorem register?_digits (n : Nat) : register? (Nat.toDigits 10 n) = none := by
  have hdigit := fun c => Text.isDigit_of_mem_toDigits (n := n) (c := c)
  cases hdigits : Nat.toDigits 10 n with
  | nil => exact absurd hdigits Nat.toDigits_ne_nil
  | cons c rest =>
      rw [hdigits] at hdigit
      exact Register.ofName?_eq_none (hdigit c List.mem_cons_self)

theorem word?_name (r : Register) : Text.word? r.name.toList = none := by
  cases r <;> decide

end Shape

/-- An operand is what its text denotes. -/
theorem ofText_text {o : Operand} (h : o.IsPrintable) : ofText o.text = .ok o := by
  simp only [ofText, stripAt_text h]
  obtain ⟨shape, address⟩ := o
  cases shape with
  | immediate value =>
      simp only [toList_immediate, splitPlus_of_not_mem (Shape.plus_not_mem (isName_digits _)),
        Shape.ofSingle?, Text.word?_toDigits]
  | register r =>
      simp only [Shape.text, splitPlus_of_not_mem (Shape.plus_not_mem (isName_register r)),
        Shape.ofSingle?, Shape.word?_name, Shape.register?_name]
  | displaced base displacement =>
      simp only [toList_displaced, splitPlus_append (Shape.plus_not_mem (isName_register base)),
        Shape.ofSum?, Shape.register?_name, Shape.register?_digits, Text.word?_toDigits,
        Option.map_some]
  | indexed base index =>
      simp only [toList_indexed, splitPlus_append (Shape.plus_not_mem (isName_register base)),
        Shape.ofSum?, Shape.register?_name]
  | label name =>
      obtain ⟨hname, hdigit, hregister⟩ := h
      have hword : Text.word? name.toList = none := Text.word?_eq_none hdigit
      have hnone : register? name.toList = none := by
        rw [register?, String.ofList_toList, hregister]
      have hfirst : (name.toList.head?.map Char.isDigit).getD true = false := by
        obtain ⟨hne, _⟩ := hname
        cases hcs : name.toList with
        | nil => exact absurd hcs hne
        | cons c rest =>
            rw [hcs] at hdigit
            simpa using hdigit
      simp only [Shape.text, splitPlus_of_not_mem (Shape.plus_not_mem hname), Shape.ofSingle?,
        hword, hnone, hfirst, String.ofList_toList]
      rfl

end Operand

end Cpu32
