import Cpu32.Proofs.Source.Spacing

/-!
# Joined texts

A text is divided into words without regard to the text before it, if a line with a word of its own
stands between them: neither a comment nor a mark that attaches to a word crosses that line.  Only
the lines are counted on.
-/

namespace Cpu32.Source

/-- The position some lines further down. -/
def Position.down (k : Nat) (p : Position) : Position :=
  ⟨p.line + k, p.column⟩

def Token.down (k : Nat) (word : Token) : Token :=
  { word with position := word.position.down k }

def Draft.down (k : Nat) (draft : Draft) : Draft :=
  { draft with position := draft.position.down k }

theorem Position.advance_down (k : Nat) (p : Position) (c : Char) :
    (p.down k).advance c = (p.advance c).down k := by
  by_cases hc : c = '\n'
  · simp only [advance, if_pos hc, down, Nat.add_right_comm]
  · simp only [advance, if_neg hc, down]

namespace Scan

/-- What the next character is read as, some lines further down. -/
def Mode.down (k : Nat) : Mode → Mode
  | .gap => .gap
  | .word draft => .word (draft.down k)
  | .joining draft => .joining (draft.down k)
  | .comment => .comment

/-- The scan of a text after words of some lines above it. -/
def after (earlier : List Draft) (k : Nat) (s : Scan) : Scan :=
  ⟨s.position.down k, s.finished.map (Draft.down k) ++ earlier, s.mode.down k⟩

theorem closed_after (earlier : List Draft) (k : Nat) (s : Scan) :
    (s.after earlier k).closed = s.closed.map (Draft.down k) ++ earlier := by
  obtain ⟨position, finished, mode⟩ := s
  cases mode <;> rfl

variable {s t : Scan} {c : Char} (earlier : List Draft) (k : Nat)

theorem IsSettled.after (h : s.IsSettled) : (s.after earlier k).IsSettled := by
  obtain ⟨position, finished, mode⟩ := s
  rcases h with hmode | ⟨draft, hmode⟩
  · cases hmode
    exact .inl rfl
  · cases hmode
    exact .inr ⟨draft.down k, rfl⟩

/-- A mark that finds the word that it goes to does not look further back. -/
theorem Reaches.after {draft : Draft} {finished : List Draft} (h : s.Reaches draft finished) :
    (s.after earlier k).Reaches (draft.down k) (finished.map (Draft.down k) ++ earlier) := by
  cases h with
  | current position finished draft => exact .current _ _ _
  | last position finished hdraft => exact .last _ _ hdraft

/-- A step is taken in the same way after earlier words. -/
theorem Step.after (h : Step s c t) : Step (s.after earlier k) c (t.after earlier k) := by
  cases h with
  | hidden position finished hc =>
      simp only [Scan.after, ← Position.advance_down]
      exact .hidden _ _ hc
  | commentEnd position finished =>
      simp only [Scan.after, ← Position.advance_down]
      exact .commentEnd _ _
  | comment hs =>
      simp only [Scan.after, ← Position.advance_down, ← closed_after]
      exact .comment (hs.after earlier k)
  | blank hs hc =>
      simp only [Scan.after, ← Position.advance_down, ← closed_after]
      exact .blank (hs.after earlier k) hc
  | first position finished hc =>
      simp only [Scan.after, Mode.down, Draft.down, ← Position.advance_down]
      exact .first _ _ hc
  | letter position finished draft hc =>
      simp only [Scan.after, ← Position.advance_down]
      exact .letter _ _ (draft.down k) hc
  | reference hs =>
      simp only [Scan.after, ← Position.advance_down]
      exact .reference (hs.after earlier k)
  | plus hs =>
      simp only [Scan.after, ← Position.advance_down]
      exact .plus (hs.after earlier k)
  | skip position finished draft hc =>
      simp only [Scan.after, ← Position.advance_down]
      exact .skip _ _ (draft.down k) hc
  | joined position finished draft hc =>
      simp only [Scan.after, ← Position.advance_down]
      exact .joined _ _ (draft.down k) hc

/-- What divides into words by itself divides into the same words after others. -/
theorem foldlM_after {cs : List Char} (h : cs.foldlM next s = .ok t) :
    cs.foldlM next (s.after earlier k) = .ok (t.after earlier k) := by
  induction cs generalizing s with
  | nil =>
      cases h
      rfl
  | cons c cs ih =>
      rw [List.foldlM_cons] at h ⊢
      obtain ⟨u, hu, hrest⟩ := exceptBind_eq_ok_iff.mp h
      have hstep := (next_eq_ok_iff.mp hu).after earlier k
      rw [exceptBind_of_ok (next_eq_ok_iff.mpr hstep)]
      exact ih hrest

theorem finish_after {words : List Token} (h : s.finish = .ok words) :
    (s.after earlier k).finish =
      .ok (earlier.reverse.map Draft.token ++ words.map (Token.down k)) := by
  obtain ⟨hmode, rfl⟩ := (s.finish_eq_ok_iff words).mp h
  rw [finish_eq_ok_iff, closed_after]
  constructor
  · obtain ⟨position, finished, mode⟩ := s
    cases mode with
    | joining draft => exact absurd rfl (hmode draft)
    | gap | word | comment => nofun
  · have htoken (draft : Draft) : (draft.down k).token = draft.token.down k := rfl
    simp [htoken]

variable (s)

/-- Wherever a text may end, a line feed ends the word and the comment. -/
theorem next_lineFeed (h : ∀ draft, s.mode ≠ .joining draft) :
    s.next '\n' = .ok ⟨⟨s.position.line + 1, 0⟩, s.closed, .gap⟩ := by
  obtain ⟨position, finished, mode⟩ := s
  cases mode with
  | joining draft => exact absurd rfl (h draft)
  | gap | word | comment => rfl

/-- After the line of a name, words are scanned as at the start of a text. -/
theorem foldlM_line (h : ∀ draft, s.mode ≠ .joining draft) {name : List Char}
    (hname : IsName name) :
    ∃ start line, ('\n' :: (name ++ ['\n'])).foldlM next s =
      .ok (Scan.after (⟨start, name.reverse⟩ :: s.closed) line {}) := by
  obtain ⟨start, last, hscan⟩ := foldlM_stem ⟨s.position.line + 1, 0⟩ s.closed hname.isStem
  rw [List.reverse_reverse] at hscan
  have hend := next_lineFeed ⟨last, s.closed, .word ⟨start, name.reverse⟩⟩ nofun
  refine ⟨start, last.line, ?_⟩
  rw [List.foldlM_cons, exceptBind_of_ok (next_lineFeed s h), List.foldlM_append,
    exceptBind_of_ok hscan, List.foldlM_cons, exceptBind_of_ok hend, Nat.add_comm]
  rfl

end Scan

/-- Two texts with the line of a name between them divide into the words of the first, the name and
the words of the second. -/
theorem tokenize_joined {first second : String} {words words' : List Token} (name : String)
    (hname : IsName name.toList) (hfirst : tokenize first = .ok words)
    (hsecond : tokenize second = .ok words') :
    ∃ start k, tokenize (first ++ "\n" ++ name ++ "\n" ++ second) =
      .ok (words ++ ⟨name, start⟩ :: words'.map (Token.down k)) := by
  obtain ⟨s, hs, hfinish⟩ := exceptBind_eq_ok_iff.mp hfirst
  obtain ⟨t, ht, hfinish'⟩ := exceptBind_eq_ok_iff.mp hsecond
  obtain ⟨hmode, rfl⟩ := (s.finish_eq_ok_iff words).mp hfinish
  obtain ⟨start, k, hline⟩ := Scan.foldlM_line s hmode hname
  have hrest := Scan.foldlM_after (⟨start, name.toList.reverse⟩ :: s.closed) k ht
  have htext : (first ++ "\n" ++ name ++ "\n" ++ second).toList =
      first.toList ++ ('\n' :: (name.toList ++ ['\n']) ++ second.toList) := by
    simp [String.toList_append]
  refine ⟨start, k, ?_⟩
  rw [tokenize, tokensOf, htext, List.foldlM_append, exceptBind_of_ok hs, List.foldlM_append,
    exceptBind_of_ok hline, exceptBind_of_ok hrest, Scan.finish_after _ k hfinish']
  simp [Draft.token]

end Cpu32.Source
