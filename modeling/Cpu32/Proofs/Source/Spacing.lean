import Cpu32.Proofs.Source.Lexeme

/-!
# Words with white space between them

Names, sums and references are words, and white space alone separates them, so that a text which is
printed with blanks between its words is divided into just these words.
-/

namespace Cpu32.Source

open Text (isBlank)

/-- The text consists of the words, with white space between them and possibly around them. -/
inductive Spaced : List String → List Char → Prop
  | blank {gap : List Char} (hgap : ∀ c ∈ gap, isBlank c) : Spaced [] gap
  | word {gap : List Char} {word : String} {words : List String} {text : List Char}
      (hgap : ∀ c ∈ gap, isBlank c) (hend : ∀ c, text.head? = some c → isBlank c)
      (htext : Spaced words text) : Spaced (word :: words) (gap ++ word.toList ++ text)

/-- Characters without a meaning of their own may be put to a word. -/
theorem IsStem.append {letters cs : List Char} (hletters : letters.all isLetter)
    (hcs : IsStem cs) : IsStem (letters ++ cs) := by
  induction letters with
  | nil => exact hcs
  | cons c letters ih =>
      rw [List.all_cons, Bool.and_eq_true] at hletters
      exact .letter hletters.1 (ih hletters.2)

theorem IsName.isStem {cs : List Char} (h : IsName cs) : IsStem cs.reverse := by
  obtain ⟨hne, hletters⟩ := h
  obtain ⟨c, rest, rfl⟩ := List.exists_cons_of_ne_nil hne
  rw [List.all_cons, Bool.and_eq_true] at hletters
  rw [List.reverse_cons]
  exact IsStem.append (List.all_reverse.trans hletters.2) (.first hletters.1)

theorem IsBody.isStem {cs : List Char} (h : IsBody cs) : IsStem cs.reverse := by
  cases h with
  | name h => exact h.isStem
  | sum hleft hfirst hright =>
      rw [List.reverse_append, List.reverse_cons, List.reverse_cons, List.append_assoc,
        List.append_assoc]
      exact IsStem.append (List.all_reverse.trans hright) (.joined hfirst hleft.isStem)

theorem IsWord.isLexeme {cs : List Char} (h : IsWord cs) : IsLexeme cs := by
  rw [← cs.reverse_reverse, ← isGrown_iff]
  cases h with
  | body h => exact .stem h.isStem
  | reference h =>
      rw [List.reverse_append]
      exact .reference h.isStem

theorem isGap_of_blank {gap : List Char} (h : ∀ c ∈ gap, isBlank c) : IsGap gap := by
  induction gap with
  | nil => exact .nil
  | cons c gap ih =>
      rw [List.forall_mem_cons] at h
      exact .blank h.1 (ih h.2)

/-- White space between words separates them, since no word begins with any. -/
theorem Spaced.trailing {words : List String} {text : List Char} (h : Spaced words text)
    (hwords : ∀ word ∈ words, IsLexeme word.toList)
    (hblank : ∀ c, text.head? = some c → isBlank c) : Trailing words text := by
  induction h with
  | blank hgap => exact .gap (isGap_of_blank hgap)
  | @word gap word words text hgap hend _ ih =>
      rw [List.forall_mem_cons] at hwords
      refine .word (isGap_of_blank hgap) ?_ (ih hwords.2 hend)
      rintro rfl
      obtain ⟨first, rest, hfirst⟩ := List.exists_cons_of_ne_nil hwords.1.ne_nil
      have hletter := (hwords.1.visible first (hfirst ▸ List.mem_cons_self)).1
      have hstart := hblank first (by rw [hfirst]; rfl)
      rw [hletter] at hstart
      cases hstart

theorem Spaced.separated {words : List String} {text : List Char} (h : Spaced words text)
    (hwords : ∀ word ∈ words, IsLexeme word.toList) : Separated words text := by
  cases h with
  | blank hgap => exact .gap (.gap (isGap_of_blank hgap))
  | @word gap word words text hgap hend htext =>
      rw [List.forall_mem_cons] at hwords
      have hrest := htext.trailing hwords.2 hend
      by_cases hne : gap = []
      · subst hne
        exact .word hrest
      · exact .gap (.word (isGap_of_blank hgap) hne hrest)

/-- A text is divided into the words that it consists of. -/
theorem Spaced.tokenize {words : List String} {text : String} (h : Spaced words text.toList)
    (hwords : ∀ word ∈ words, IsWord word.toList) :
    ∃ tokens, tokenize text = .ok tokens ∧ tokens.map Token.text = words := by
  have hlexemes (word : String) (hword : word ∈ words) := (hwords word hword).isLexeme
  exact (h.separated hlexemes).tokenize hlexemes

/-- A blank before each word is enough. -/
theorem spaced_flatMap (words : List String) :
    Spaced words (words.flatMap fun word => ' ' :: word.toList) := by
  induction words with
  | nil => exact .blank (by simp)
  | cons word words ih =>
      have hgap : ∀ c ∈ [' '], isBlank c :=
        List.forall_mem_singleton.mpr rfl
      rw [List.flatMap_cons]
      refine .word hgap ?_ ih
      intro c hc
      cases words with
      | nil => cases hc
      | cons next words =>
          cases hc
          decide

end Cpu32.Source
