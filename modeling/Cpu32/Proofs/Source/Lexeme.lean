import Mathlib.Data.List.Chain
import Cpu32.Proofs.Source.Stepping

/-!
# The language of words

Which texts can be words, and that each list of them is what some texts divide into.  A word grows
at its end, by a letter, by a `+` together with the letter or digit after it, or by a last `@`.
-/

namespace Cpu32.Source

open Text (isBlank)

/-- A text that can be a word.  Nothing in it ends a word; neither mark stands at its start, an `@`
stands at its end if at all, and after each `+` there is a letter or a digit. -/
@[mk_iff]
structure IsLexeme (cs : List Char) : Prop where
  ne_nil : cs ≠ []
  visible : ∀ c ∈ cs, isBlank c = false ∧ c ≠ '#'
  first_ne : cs.head? ≠ some '@' ∧ cs.head? ≠ some '+'
  at_last : '@' ∉ cs.dropLast
  joined : cs.IsChain (fun c next => c = '+' → next.isAlphanum) ∧ cs.getLast? ≠ some '+'

-- The instance is named, so that the characters of the text are tried and not all that exist.
instance : DecidablePred IsLexeme := fun cs =>
  haveI : Decidable (∀ c ∈ cs, isBlank c = false ∧ c ≠ '#') := List.decidableBAll _ cs
  decidable_of_iff _ (isLexeme_iff cs).symm

/-- A word without an `@`, last character first. -/
inductive IsStem : List Char → Prop
  | first {c : Char} (hc : isLetter c) : IsStem [c]
  | letter {c : Char} {cs : List Char} (hc : isLetter c) (hcs : IsStem cs) : IsStem (c :: cs)
  | joined {c : Char} {cs : List Char} (hc : c.isAlphanum) (hcs : IsStem cs) :
      IsStem (c :: '+' :: cs)

/-- A word, last character first. -/
inductive IsGrown : List Char → Prop
  | stem {cs : List Char} (h : IsStem cs) : IsGrown cs
  | reference {cs : List Char} (h : IsStem cs) : IsGrown ('@' :: cs)

/-- White space and comments, each comment with the line feed that ends it. -/
inductive IsGap : List Char → Prop
  | nil : IsGap []
  | blank {c : Char} {gap : List Char} (hc : isBlank c) (hgap : IsGap gap) : IsGap (c :: gap)
  | comment {body gap : List Char} (hbody : '\n' ∉ body) (hgap : IsGap gap) :
      IsGap ('#' :: (body ++ '\n' :: gap))

/-- The text consists of the words, with a gap before each of them and possibly at the end. -/
inductive Trailing : List String → List Char → Prop
  | gap {gap : List Char} (hgap : IsGap gap) : Trailing [] gap
  | word {gap : List Char} {word : String} {words : List String} {text : List Char}
      (hgap : IsGap gap) (hne : gap ≠ []) (htext : Trailing words text) :
      Trailing (word :: words) (gap ++ word.toList ++ text)

/-- The text consists of the words, with a gap between any two of them and possibly around them. -/
inductive Separated : List String → List Char → Prop
  | gap {words : List String} {text : List Char} (htext : Trailing words text) :
      Separated words text
  | word {word : String} {words : List String} {text : List Char} (htext : Trailing words text) :
      Separated (word :: words) (word.toList ++ text)

namespace IsStem

variable {cs : List Char}

theorem exists_last (h : IsStem cs) : ∃ c rest, cs = c :: rest ∧ isLetter c := by
  cases h with
  | first hc => exact ⟨_, _, rfl, hc⟩
  | letter hc _ => exact ⟨_, _, rfl, hc⟩
  | joined hc _ => exact ⟨_, _, rfl, isLetter_of_isAlphanum hc⟩

theorem mem (h : IsStem cs) : ∀ c ∈ cs, isLetter c ∨ c = '+' := by
  induction h with
  | first hc => exact List.forall_mem_singleton.mpr (.inl hc)
  | letter hc _ ih => exact List.forall_mem_cons.mpr ⟨.inl hc, ih⟩
  | joined hc _ ih =>
      exact List.forall_mem_cons.mpr
        ⟨.inl (isLetter_of_isAlphanum hc), List.forall_mem_cons.mpr ⟨.inr rfl, ih⟩⟩

theorem getLast? (h : IsStem cs) : ∃ c, cs.getLast? = some c ∧ isLetter c := by
  induction h with
  | first hc => exact ⟨_, rfl, hc⟩
  | letter hc hcs ih =>
      obtain ⟨_, _, rfl, _⟩ := hcs.exists_last
      rwa [List.getLast?_cons_cons]
  | joined hc hcs ih =>
      obtain ⟨_, _, rfl, _⟩ := hcs.exists_last
      rwa [List.getLast?_cons_cons, List.getLast?_cons_cons]

theorem isChain (h : IsStem cs) : cs.IsChain fun next c => c = '+' → next.isAlphanum := by
  induction h with
  | first hc => exact List.isChain_singleton _
  | letter hc hcs ih =>
      obtain ⟨last, _, rfl, hlast⟩ := hcs.exists_last
      refine List.isChain_cons_cons.mpr ⟨?_, ih⟩
      rintro rfl
      cases hlast
  | joined hc hcs ih =>
      obtain ⟨last, _, rfl, hlast⟩ := hcs.exists_last
      refine List.isChain_cons_cons.mpr ⟨fun _ => hc, List.isChain_cons_cons.mpr ⟨?_, ih⟩⟩
      rintro rfl
      cases hlast

end IsStem

/-- Letters and `+` signs, each of these between two others and the second a letter or digit. -/
theorem isStem_of_isChain : ∀ {cs : List Char}, cs ≠ [] → (∀ c ∈ cs, isLetter c ∨ c = '+') →
    cs.head? ≠ some '+' → cs.getLast? ≠ some '+' →
    (cs.IsChain fun next c => c = '+' → next.isAlphanum) → IsStem cs
  | [], hne, _, _, _, _ => absurd rfl hne
  | [c], _, hmem, hhead, _, _ =>
      .first ((hmem c (List.mem_singleton_self c)).resolve_right (by simpa using hhead))
  | c :: d :: cs, _, hmem, hhead, hlast, hchain => by
      obtain ⟨hcd, hchain⟩ := List.isChain_cons_cons.mp hchain
      rw [List.forall_mem_cons] at hmem
      rw [List.getLast?_cons_cons] at hlast
      by_cases hd : d = '+'
      · -- The sign goes with the letter after it, so the rest begins two characters further on.
        subst hd
        cases cs with
        | nil => exact absurd rfl hlast
        | cons e cs =>
            obtain ⟨hplus, hchain⟩ := List.isChain_cons_cons.mp hchain
            have he : e ≠ '+' := by
              rintro rfl
              exact absurd (hplus rfl) (by decide)
            refine .joined (hcd rfl) (isStem_of_isChain (List.cons_ne_nil e cs) ?_ ?_ hlast hchain)
            · exact (List.forall_mem_cons.mp hmem.2).2
            · simpa using he
      · refine .letter (hmem.1.resolve_right (by simpa using hhead)) ?_
        exact isStem_of_isChain (List.cons_ne_nil d cs) hmem.2 (by simpa using hd) hlast hchain
termination_by cs => cs.length

theorem isLetter_or_plus {c : Char} (hblank : isBlank c = false) (hcomment : c ≠ '#')
    (hat : c ≠ '@') : isLetter c ∨ c = '+' := by
  by_cases hplus : c = '+'
  · exact .inr hplus
  · exact .inl (isLetter_iff.mpr ⟨hblank, hcomment, hat, hplus⟩)

theorem visible_of_isLetter_or_plus {c : Char} (h : isLetter c ∨ c = '+') :
    isBlank c = false ∧ c ≠ '#' ∧ c ≠ '@' := by
  rcases h with hc | rfl
  · obtain ⟨hblank, hcomment, hat, _⟩ := isLetter_iff.mp hc
    exact ⟨hblank, hcomment, hat⟩
  · decide

theorem isLexeme_reverse_iff {cs : List Char} :
    IsLexeme cs.reverse ↔ cs ≠ [] ∧ (∀ c ∈ cs, isBlank c = false ∧ c ≠ '#') ∧
      (cs.getLast? ≠ some '@' ∧ cs.getLast? ≠ some '+') ∧ '@' ∉ cs.tail ∧
      (cs.IsChain fun next c => c = '+' → next.isAlphanum) ∧ cs.head? ≠ some '+' := by
  simpa [List.isChain_reverse, List.dropLast_reverse] using isLexeme_iff cs.reverse

theorem IsStem.isLexeme {cs : List Char} (h : IsStem cs) : IsLexeme cs.reverse := by
  have hvisible (c : Char) (hc : c ∈ cs) := visible_of_isLetter_or_plus (h.mem c hc)
  obtain ⟨first, hfirst, hletter⟩ := h.getLast?
  obtain ⟨_, hcomment, hat, hplus⟩ := isLetter_iff.mp hletter
  obtain ⟨last, rest, hcons, hlast⟩ := h.exists_last
  refine isLexeme_reverse_iff.mpr ⟨?_, fun c hc => ⟨(hvisible c hc).1, (hvisible c hc).2.1⟩, ?_,
    fun hmem => (hvisible _ (List.mem_of_mem_tail hmem)).2.2 rfl, h.isChain, ?_⟩
  · simp [hcons]
  · simp [hfirst, hat, hplus]
  · simpa [hcons] using (isLetter_iff.mp hlast).2.2.2

theorem IsStem.isLexeme_reference {cs : List Char} (h : IsStem cs) :
    IsLexeme ('@' :: cs).reverse := by
  obtain ⟨hne, hvisible, hfirst, hat, hchain, hlast⟩ := isLexeme_reverse_iff.mp h.isLexeme
  obtain ⟨last, rest, rfl, hletter⟩ := h.exists_last
  refine isLexeme_reverse_iff.mpr ⟨List.cons_ne_nil _ _, ?_, ?_, ?_, ?_, by simp⟩
  · exact List.forall_mem_cons.mpr ⟨by decide, hvisible⟩
  · rwa [List.getLast?_cons_cons]
  · intro hmem
    exact (visible_of_isLetter_or_plus (h.mem _ hmem)).2.2 rfl
  · refine List.isChain_cons_cons.mpr ⟨?_, hchain⟩
    rintro rfl
    exact absurd rfl hlast

/-- Words are the texts that grow. -/
theorem isGrown_iff {cs : List Char} : IsGrown cs ↔ IsLexeme cs.reverse := by
  constructor
  · rintro (⟨h⟩ | ⟨h⟩)
    · exact h.isLexeme
    · exact h.isLexeme_reference
  · intro h
    obtain ⟨hne, hvisible, hfirst, hat, hchain, hlast⟩ := isLexeme_reverse_iff.mp h
    obtain ⟨last, rest, rfl⟩ := List.exists_cons_of_ne_nil hne
    have hmem (c : Char) (hc : c ∈ rest) : isLetter c ∨ c = '+' := by
      obtain ⟨hblank, hcomment⟩ := hvisible c (List.mem_cons_of_mem last hc)
      exact isLetter_or_plus hblank hcomment fun heq => hat (heq ▸ hc)
    by_cases hend : last = '@'
    · subst hend
      have hrest : rest ≠ [] := by
        rintro rfl
        exact hfirst.1 rfl
      obtain ⟨next, others, rfl⟩ := List.exists_cons_of_ne_nil hrest
      obtain ⟨hnext, hchain⟩ := List.isChain_cons_cons.mp hchain
      rw [List.getLast?_cons_cons] at hfirst
      refine .reference (isStem_of_isChain hrest hmem ?_ hfirst.2 hchain)
      simpa using fun hplus => absurd (hnext hplus) (by decide)
    · obtain ⟨hblank, hcomment⟩ := hvisible last List.mem_cons_self
      refine .stem (isStem_of_isChain hne ?_ hlast hfirst.2 hchain)
      exact List.forall_mem_cons.mpr ⟨isLetter_or_plus hblank hcomment hend, hmem⟩

/-- A word that a mark may be attached to has no `@` yet. -/
theorem IsGrown.isStem {draft : Draft} (h : IsGrown draft.reversed)
    (hdraft : draft.isAttachable) : IsStem draft.reversed := by
  obtain ⟨position, reversed⟩ := draft
  cases h with
  | stem h => exact h
  | reference h => cases hdraft

namespace Scan

/-- Every word of a scan is one, up to the current word, which may still grow. -/
structure IsSound (s : Scan) : Prop where
  finished : ∀ draft ∈ s.finished, IsGrown draft.reversed
  word : ∀ draft, s.mode = .word draft → IsStem draft.reversed
  joining : ∀ draft, s.mode = .joining draft → ∃ cs, draft.reversed = '+' :: cs ∧ IsStem cs

variable {s t : Scan} {draft : Draft} {finished : List Draft}

theorem IsSound.closed (h : s.IsSound) : ∀ draft ∈ s.closed, IsGrown draft.reversed := by
  obtain ⟨position, finished, mode⟩ := s
  cases mode with
  | word current => exact List.forall_mem_cons.mpr ⟨.stem (h.word current rfl), h.finished⟩
  | gap | joining | comment => exact h.finished

theorem IsSound.of_reaches (h : s.IsSound) (hreaches : s.Reaches draft finished) :
    IsStem draft.reversed ∧ ∀ other ∈ finished, IsGrown other.reversed := by
  cases hreaches with
  | current => exact ⟨h.word draft rfl, h.finished⟩
  | last _ _ hdraft =>
      obtain ⟨hgrown, hothers⟩ := List.forall_mem_cons.mp h.finished
      exact ⟨hgrown.isStem hdraft, hothers⟩

theorem IsSound.step (h : s.IsSound) {c : Char} (hstep : Step s c t) : t.IsSound := by
  cases hstep with
  | hidden | commentEnd => exact ⟨h.finished, nofun, nofun⟩
  | comment | blank => exact ⟨h.closed, nofun, nofun⟩
  | first _ _ hc =>
      refine ⟨h.finished, ?_, nofun⟩
      rintro _ ⟨⟩
      exact .first hc
  | letter _ _ draft hc =>
      refine ⟨h.finished, ?_, nofun⟩
      rintro _ ⟨⟩
      exact .letter hc (h.word draft rfl)
  | reference hreaches =>
      obtain ⟨hstem, hothers⟩ := h.of_reaches hreaches
      exact ⟨List.forall_mem_cons.mpr ⟨.reference hstem, hothers⟩, nofun, nofun⟩
  | plus hreaches =>
      obtain ⟨hstem, hothers⟩ := h.of_reaches hreaches
      refine ⟨hothers, nofun, ?_⟩
      rintro _ ⟨⟩
      exact ⟨_, rfl, hstem⟩
  | skip _ _ draft hc =>
      refine ⟨h.finished, nofun, ?_⟩
      rintro _ ⟨⟩
      exact h.joining draft rfl
  | joined _ _ draft hc =>
      refine ⟨h.finished, ?_, nofun⟩
      rintro _ ⟨⟩
      obtain ⟨cs, hreversed, hstem⟩ := h.joining draft rfl
      rw [Draft.push, hreversed]
      exact .joined hc hstem

theorem Scans.isSound {cs : List Char} (h : Scans cs s) : s.IsSound := by
  induction h with
  | start => exact ⟨nofun, nofun, nofun⟩
  | step _ hstep ih => exact ih.step hstep

theorem foldlM_singleton {s t : Scan} {c : Char} (h : s.next c = .ok t) :
    [c].foldlM next s = .ok t := by
  rw [List.foldlM_cons, exceptBind_of_ok h]
  rfl

/-- From a gap, a text that grows is scanned as one word. -/
theorem foldlM_stem (position : Position) (finished : List Draft) {cs : List Char}
    (h : IsStem cs) : ∃ start last, cs.reverse.foldlM next ⟨position, finished, .gap⟩ =
      .ok ⟨last, finished, .word ⟨start, cs⟩⟩ := by
  induction h with
  | first hc => exact ⟨_, _, foldlM_singleton (next_letter hc)⟩
  | @letter c cs hc _ ih =>
      obtain ⟨start, last, hscan⟩ := ih
      refine ⟨start, last.advance c, ?_⟩
      rw [List.reverse_cons, List.foldlM_append, exceptBind_of_ok hscan]
      exact foldlM_singleton (next_letter_of_word hc)
  | @joined c cs hc _ ih =>
      obtain ⟨start, last, hscan⟩ := ih
      refine ⟨start, (last.advance '+').advance c, ?_⟩
      rw [List.reverse_cons, List.reverse_cons, List.foldlM_append, List.foldlM_append,
        exceptBind_of_ok hscan, exceptBind_of_ok (foldlM_singleton next_plus)]
      exact foldlM_singleton (next_joined hc)

/-- From a gap, a word is scanned as one. -/
theorem foldlM_lexeme (position : Position) (finished : List Draft) {cs : List Char}
    (h : IsLexeme cs) : ∃ s start, cs.foldlM next ⟨position, finished, .gap⟩ = .ok s ∧
      s.IsSettled ∧ s.closed = ⟨start, cs.reverse⟩ :: finished := by
  obtain ⟨rev, rfl⟩ : ∃ rev : List Char, rev.reverse = cs := ⟨cs.reverse, cs.reverse_reverse⟩
  rw [List.reverse_reverse]
  cases isGrown_iff.mpr h with
  | stem hstem =>
      obtain ⟨start, last, hscan⟩ := foldlM_stem position finished hstem
      exact ⟨_, start, hscan, .inr ⟨_, rfl⟩, rfl⟩
  | @reference cs hstem =>
      obtain ⟨start, last, hscan⟩ := foldlM_stem position finished hstem
      refine ⟨⟨last.advance '@', (⟨start, cs⟩ : Draft).push '@' :: finished, .gap⟩, start, ?_,
        .inl rfl, rfl⟩
      rw [List.reverse_cons, List.foldlM_append, exceptBind_of_ok hscan]
      exact foldlM_singleton next_at

theorem foldlM_hidden (position : Position) (finished : List Draft) {body : List Char}
    (hbody : '\n' ∉ body) :
    ∃ last, body.foldlM next ⟨position, finished, .comment⟩ =
      .ok ⟨last, finished, .comment⟩ := by
  induction body generalizing position with
  | nil => exact ⟨position, rfl⟩
  | cons c body ih =>
      rw [List.mem_cons, not_or] at hbody
      obtain ⟨last, hscan⟩ := ih (position.advance c) hbody.2
      refine ⟨last, ?_⟩
      rw [List.foldlM_cons,
        exceptBind_of_ok (next_eq_ok_iff.mpr (.hidden position finished (Ne.symm hbody.1)))]
      exact hscan

/-- A gap ends the current word, unless it is empty. -/
theorem foldlM_isGap {gap : List Char} (h : IsGap gap) {s : Scan} (hs : s.IsSettled) :
    ∃ t, gap.foldlM next s = .ok t ∧ t.IsSettled ∧ t.closed = s.closed ∧
      (gap ≠ [] ∨ s.mode = .gap → t.mode = .gap) := by
  induction h generalizing s with
  | nil => exact ⟨s, rfl, hs, rfl, fun hopen => hopen.resolve_left (not_not_intro rfl)⟩
  | blank hc _ ih =>
      obtain ⟨t, hscan, hsettled, hclosed, hmode⟩ := ih (s := ⟨_, s.closed, .gap⟩) (.inl rfl)
      refine ⟨t, ?_, hsettled, hclosed, fun _ => hmode (.inr rfl)⟩
      rw [List.foldlM_cons, exceptBind_of_ok (next_blank hs hc)]
      exact hscan
  | @comment body gap hbody _ ih =>
      obtain ⟨last, hhidden⟩ := foldlM_hidden (s.position.advance '#') s.closed hbody
      obtain ⟨t, hscan, hsettled, hclosed, hmode⟩ :=
        ih (s := ⟨last.advance '\n', s.closed, .gap⟩) (.inl rfl)
      refine ⟨t, ?_, hsettled, hclosed, fun _ => hmode (.inr rfl)⟩
      rw [List.foldlM_cons, exceptBind_of_ok (next_eq_ok_iff.mpr (.comment hs)),
        List.foldlM_append, exceptBind_of_ok hhidden, List.foldlM_cons,
        exceptBind_of_ok (next_eq_ok_iff.mpr (.commentEnd last s.closed))]
      exact hscan

theorem texts_of_closed {s t : Scan} {start : Position} {word : String}
    (h : t.closed = ⟨start, word.toList.reverse⟩ :: s.closed) : t.texts = s.texts ++ [word] := by
  simp [texts, h, Draft.token]

end Scan

/-- Scanning a text that begins with a gap adds its words. -/
theorem Trailing.foldlM_next {words : List String} {text : List Char} (h : Trailing words text)
    (hwords : ∀ word ∈ words, IsLexeme word.toList) {s : Scan} (hs : s.IsSettled) :
    ∃ t, text.foldlM Scan.next s = .ok t ∧ t.IsSettled ∧ t.texts = s.texts ++ words := by
  induction h generalizing s with
  | gap hgap =>
      obtain ⟨t, hscan, hsettled, hclosed, _⟩ := Scan.foldlM_isGap hgap hs
      refine ⟨t, hscan, hsettled, ?_⟩
      rw [Scan.texts, hclosed, List.append_nil, Scan.texts]
  | @word gap word words text hgap hne _ ih =>
      rw [List.forall_mem_cons] at hwords
      obtain ⟨⟨position, finished, mode⟩, hscan, _, hclosed, hmode⟩ := Scan.foldlM_isGap hgap hs
      cases hmode (.inl hne)
      obtain ⟨t, start, hword, htsettled, htclosed⟩ :=
        Scan.foldlM_lexeme position finished hwords.1
      obtain ⟨u, hu, husettled, htexts⟩ := ih hwords.2 htsettled
      rw [show finished = s.closed from hclosed] at htclosed
      refine ⟨u, ?_, husettled, ?_⟩
      · rw [List.append_assoc, List.foldlM_append, exceptBind_of_ok hscan, List.foldlM_append,
          exceptBind_of_ok hword]
        exact hu
      · rw [htexts, Scan.texts_of_closed htclosed, List.append_assoc]
        rfl

/-- Words that are separated are scanned one by one. -/
theorem Separated.foldlM_next {words : List String} {text : List Char} (h : Separated words text)
    (hwords : ∀ word ∈ words, IsLexeme word.toList) :
    ∃ t, text.foldlM Scan.next {} = .ok t ∧ t.IsSettled ∧ t.texts = words := by
  cases h with
  | gap htext => exact htext.foldlM_next hwords (.inl rfl)
  | @word word words text htext =>
      rw [List.forall_mem_cons] at hwords
      obtain ⟨s, start, hword, hsettled, hclosed⟩ := Scan.foldlM_lexeme .start [] hwords.1
      obtain ⟨t, ht, htsettled, htexts⟩ := htext.foldlM_next hwords.2 hsettled
      refine ⟨t, ?_, htsettled, ?_⟩
      · rw [List.foldlM_append]
        exact (exceptBind_of_ok hword _).trans ht
      · rw [htexts, Scan.texts_of_closed (s := {}) hclosed]
        rfl

theorem isLexeme_of_tokenize {source : String} {words : List Token}
    (h : tokenize source = .ok words) : ∀ word ∈ words, IsLexeme word.text.toList := by
  obtain ⟨s, hs, _, rfl⟩ := tokenize_eq_ok h
  intro word hword
  obtain ⟨draft, hdraft, rfl⟩ := List.mem_map.mp hword
  have hgrown := hs.isSound.closed draft (List.mem_reverse.mp hdraft)
  simpa [Draft.token] using isGrown_iff.mp hgrown

theorem Separated.tokenize {words : List String} {source : String}
    (h : Separated words source.toList) (hwords : ∀ word ∈ words, IsLexeme word.toList) :
    ∃ tokens, tokenize source = .ok tokens ∧ tokens.map Token.text = words := by
  obtain ⟨s, hscan, hsettled, htexts⟩ := h.foldlM_next hwords
  refine ⟨s.closed.reverse.map Draft.token, ?_, htexts⟩
  rw [Source.tokenize, tokensOf, exceptBind_of_ok hscan, Scan.finish_eq_ok_iff]
  refine ⟨?_, rfl⟩
  rcases hsettled with hmode | ⟨draft, hmode⟩
  · rw [hmode]
    nofun
  · rw [hmode]
    nofun

/-- What a text is divided into are words, and any list of words is what the texts are divided into
that put white space and comments between them. -/
theorem tokenize_lexemes :
    (∀ (source : String) (tokens : List Token), tokenize source = .ok tokens →
      ∀ token ∈ tokens, IsLexeme token.text.toList) ∧
    ∀ (words : List String) (source : String), (∀ word ∈ words, IsLexeme word.toList) →
      Separated words source.toList →
        ∃ tokens, tokenize source = .ok tokens ∧ tokens.map Token.text = words :=
  ⟨fun _ _ h => isLexeme_of_tokenize h, fun _ _ hwords h => h.tokenize hwords⟩

/-- A mark that stands apart is in a word at the end, and a comment ends a word. -/
theorem tokenize_lexemes_marks :
    let words := ["1+2+z@", "l'"]
    let source := "# +\n1+2+z@#@\n l'"
    (∀ word ∈ words, IsLexeme word.toList) ∧ Separated words source.toList ∧
      (∃ tokens, tokenize source = .ok tokens ∧ tokens.map Token.text = words) ∧
      ∃ tokens, tokenize "f0 +\n 4 # @\n@" = .ok tokens ∧
        ∀ token ∈ tokens, IsLexeme token.text.toList := by
  intro words source
  obtain ⟨hsound, hcomplete⟩ := tokenize_lexemes
  have hwords : ∀ word ∈ words, IsLexeme word.toList := by
    decide
  have hlead : IsGap ('#' :: (" +".toList ++ ['\n'])) := .comment (by decide) .nil
  have hbetween : IsGap ('#' :: ("@".toList ++ ['\n', ' '])) :=
    .comment (by decide) (.blank (by decide) .nil)
  have htext : source.toList =
      '#' :: (" +".toList ++ ['\n']) ++ "1+2+z@".toList ++
        ('#' :: ("@".toList ++ ['\n', ' ']) ++ "l'".toList ++ []) := by
    decide
  have hsource : Separated words source.toList := by
    rw [htext]
    exact .gap (.word hlead (by decide) (.word hbetween (by decide) (.gap .nil)))
  have hapart : tokenize "f0 +\n 4 # @\n@" = .ok [⟨"f0+4@", ⟨1, 1⟩⟩] := by
    decide +kernel
  exact ⟨hwords, hsource, hcomplete words source hwords hsource, _, hapart, hsound _ _ hapart⟩

end Cpu32.Source
