import Mathlib.Data.List.Chain
import Cpu32.Proofs.Source.Stepping

/-!
# Where words come from

Taken together the words of a text are the text without its white space and its comments, in order.
Each word stands at the position of its first character, also if it was finished on a later line.
-/

namespace Cpu32.Source

open Text (isBlank)

/-- The text without its comments.  A comment ends in front of a line feed, or with the text. -/
def uncommented : List Char → List Char
  | [] => []
  | c :: rest =>
      if c = '#' then uncommented (rest.dropWhile (· ≠ '\n')) else c :: uncommented rest
termination_by cs => cs.length
decreasing_by
  · exact Nat.lt_succ_of_le (List.dropWhile_sublist _).length_le
  · exact Nat.lt_succ_self _

/-- The text without its comments and its white space. -/
def visible (cs : List Char) : List Char :=
  (uncommented cs).filter fun c => !isBlank c

@[simp] theorem visible_nil : visible [] = [] := by
  rw [visible, uncommented, List.filter_nil]

theorem visible_comment (rest : List Char) :
    visible ('#' :: rest) = visible (rest.dropWhile (· ≠ '\n')) := by
  rw [visible, uncommented, if_pos rfl, visible]

theorem visible_blank {c : Char} (hc : isBlank c) (rest : List Char) :
    visible (c :: rest) = visible rest := by
  have hcomment : c ≠ '#' := by
    rintro rfl
    cases hc
  rw [visible, uncommented, if_neg hcomment, List.filter_cons_of_neg (by simpa using hc), visible]

theorem visible_cons {c : Char} (hblank : isBlank c = false) (hcomment : c ≠ '#')
    (rest : List Char) : visible (c :: rest) = c :: visible rest := by
  rw [visible, uncommented, if_neg hcomment, List.filter_cons_of_pos (by simp [hblank]), visible]

namespace Position

/-- Where the character stands that comes after a text: lines are counted by the line feeds in front
of it, columns by the characters since the last of them. -/
def after (left : List Char) : Position :=
  ⟨left.count '\n' + 1, (left.reverse.takeWhile (· ≠ '\n')).length + 1⟩

/-- The position is on an earlier line, or further left on the same line. -/
def Precedes (p q : Position) : Prop :=
  p.line < q.line ∨ p.line = q.line ∧ p.column < q.column

theorem Precedes.trans {p q r : Position} (hpq : p.Precedes q) (hqr : q.Precedes r) :
    p.Precedes r := by
  simp only [Precedes] at *
  omega

theorem precedes_advance (p : Position) (c : Char) : p.Precedes (p.advance c) := by
  rw [Precedes, advance]
  split
  · exact .inl (Nat.lt_succ_self _)
  · exact .inr ⟨rfl, Nat.lt_succ_self _⟩

end Position

namespace Scan

variable {cs : List Char} {s t : Scan} {c : Char}

/-- The words that were begun, latest first. -/
def drafts (s : Scan) : List Draft :=
  match s.mode with
  | .word draft | .joining draft => draft :: s.finished
  | _ => s.finished

/-- The part of the text after a scan that is not in the comment that the scan is in. -/
def uncovered (s : Scan) (rest : List Char) : List Char :=
  match s.mode with
  | .comment => rest.dropWhile (· ≠ '\n')
  | _ => rest

/-- A character goes to the word begun last, or begins a word where it stands. -/
inductive Grows (c : Char) (position : Position) : List Draft → List Draft → Prop
  | push (draft : Draft) (earlier : List Draft) :
      Grows c position (draft :: earlier) (draft.push c :: earlier)
  | begin (earlier : List Draft) : Grows c position earlier (⟨position, [c]⟩ :: earlier)

theorem drafts_of_settled (hs : s.IsSettled) : s.drafts = s.closed := by
  obtain ⟨position, finished, mode⟩ := s
  rcases hs with hmode | ⟨draft, hmode⟩
  · cases hmode
    rfl
  · cases hmode
    rfl

theorem Reaches.drafts {draft : Draft} {finished : List Draft} (h : s.Reaches draft finished) :
    s.drafts = draft :: finished ∧ s.IsSettled := by
  cases h with
  | current => exact ⟨rfl, .inr ⟨draft, rfl⟩⟩
  | last => exact ⟨rfl, .inl rfl⟩

theorem uncovered_of_settled (hs : s.IsSettled) (rest : List Char) : s.uncovered rest = rest := by
  obtain ⟨position, finished, mode⟩ := s
  rcases hs with hmode | ⟨draft, hmode⟩
  · cases hmode
    rfl
  · cases hmode
    rfl

/-- A step passes over a character that is not visible, or puts a visible one into a word. -/
theorem Step.effect (h : Step s c t) :
    (t.drafts = s.drafts ∧
      ∀ rest, visible (s.uncovered (c :: rest)) = visible (t.uncovered rest)) ∨
    (Grows c t.position s.drafts t.drafts ∧ c ≠ '\n' ∧
      ∀ rest, visible (s.uncovered (c :: rest)) = c :: visible (t.uncovered rest)) := by
  have hletter (hc : isLetter c) (rest : List Char) : c ≠ '\n' ∧
      visible (c :: rest) = c :: visible rest := by
    obtain ⟨hblank, hcomment, _, _⟩ := isLetter_iff.mp hc
    refine ⟨?_, visible_cons hblank hcomment rest⟩
    rintro rfl
    cases hblank
  cases h with
  | hidden position finished hc =>
      refine .inl ⟨rfl, fun rest => ?_⟩
      simp only [uncovered, List.dropWhile_cons, decide_eq_true hc, if_true]
  | commentEnd position finished => exact .inl ⟨rfl, visible_blank rfl⟩
  | comment hs =>
      refine .inl ⟨(drafts_of_settled hs).symm, fun rest => ?_⟩
      rw [uncovered_of_settled hs, visible_comment]
      rfl
  | blank hs hc =>
      refine .inl ⟨(drafts_of_settled hs).symm, fun rest => ?_⟩
      rw [uncovered_of_settled hs, visible_blank hc]
      rfl
  | first position finished hc =>
      exact .inr ⟨.begin finished, (hletter hc []).1, fun rest => (hletter hc rest).2⟩
  | letter position finished draft hc =>
      exact .inr ⟨.push draft finished, (hletter hc []).1, fun rest => (hletter hc rest).2⟩
  | @reference s draft finished hs =>
      obtain ⟨hdrafts, hsettled⟩ := hs.drafts
      rw [hdrafts]
      refine .inr ⟨.push draft finished, by decide, fun rest => ?_⟩
      rw [uncovered_of_settled hsettled, visible_cons rfl (by decide)]
      rfl
  | @plus s draft finished hs =>
      obtain ⟨hdrafts, hsettled⟩ := hs.drafts
      rw [hdrafts]
      refine .inr ⟨.push draft finished, by decide, fun rest => ?_⟩
      rw [uncovered_of_settled hsettled, visible_cons rfl (by decide)]
      rfl
  | skip position finished draft hc => exact .inl ⟨rfl, visible_blank hc⟩
  | joined position finished draft hc =>
      have hc := isLetter_of_isAlphanum hc
      exact .inr ⟨.push draft finished, (hletter hc []).1, fun rest => (hletter hc rest).2⟩

/-- The characters of some words, which are listed latest first. -/
def characters (drafts : List Draft) : List Char :=
  (drafts.flatMap Draft.reversed).reverse

theorem Grows.characters {position : Position} {drafts drafts' : List Draft}
    (h : Grows c position drafts drafts') : characters drafts' = characters drafts ++ [c] := by
  cases h <;> simp [Scan.characters, Draft.push]

/-- What is visible of a text is what the scan of its first part has taken, and what is visible of
the rest. -/
theorem Scans.visible_append (h : Scans cs s) (rest : List Char) :
    visible (cs ++ rest) = characters s.drafts ++ visible (s.uncovered rest) := by
  -- The rest is part of the invariant: what of it is visible depends on the comment that is open.
  induction h generalizing rest with
  | start => rfl
  | @step cs s c t _ hstep ih =>
      rw [List.append_assoc, List.singleton_append, ih]
      rcases hstep.effect with ⟨hdrafts, hvisible⟩ | ⟨hgrows, _, hvisible⟩
      · rw [hdrafts, hvisible]
      · rw [hgrows.characters, hvisible, List.append_cons]

theorem Scans.visible_eq (h : Scans cs s) : visible cs = characters s.drafts := by
  have hwhole := h.visible_append []
  have hnothing : s.uncovered [] = [] := by
    rw [uncovered]
    split <;> rfl
  rwa [hnothing, visible_nil, List.append_nil, List.append_nil] at hwhole

theorem Scans.position_eq (h : Scans cs s) :
    s.position = ⟨cs.count '\n' + 1, (cs.reverse.takeWhile (· ≠ '\n')).length⟩ := by
  induction h with
  | start => rfl
  | @step cs s c t _ hstep ih =>
      rw [hstep.position_eq, ih, Position.advance]
      by_cases hc : c = '\n'
      · simp [hc]
      · simp [hc]

/-- Where a scan comes to a character that is no line feed. -/
theorem Scans.advance_eq (h : Scans cs s) (hc : c ≠ '\n') :
    s.position.advance c = .after cs := by
  rw [h.position_eq, Position.advance, if_neg hc, Position.after]

/-- Words begin one after the other, and before whatever character comes next. -/
theorem Scans.precedes (h : Scans cs s) :
    (s.drafts.map Draft.position).Pairwise (fun later earlier => earlier.Precedes later) ∧
      ∀ p ∈ s.drafts.map Draft.position, ∀ c, p.Precedes (s.position.advance c) := by
  induction h with
  | start => exact ⟨.nil, nofun⟩
  | @step cs s c t _ hstep ih =>
      have hbefore : ∀ p ∈ s.drafts.map Draft.position, p.Precedes t.position := by
        rw [hstep.position_eq]
        exact fun p hp => ih.2 p hp c
      have hnext (p : Position) (hp : p.Precedes t.position) (c : Char) :=
        hp.trans (t.position.precedes_advance c)
      rcases hstep.effect with ⟨hdrafts, _⟩ | ⟨hgrows, _⟩
      · rw [hdrafts]
        exact ⟨ih.1, fun p hp => hnext p (hbefore p hp)⟩
      · generalize s.drafts = earlier at *
        generalize t.drafts = later at *
        cases hgrows with
        | push draft earlier => exact ⟨ih.1, fun p hp => hnext p (hbefore p hp)⟩
        | begin =>
            refine ⟨List.pairwise_cons.mpr ⟨hbefore, ih.1⟩, ?_⟩
            exact List.forall_mem_cons.mpr
              ⟨t.position.precedes_advance, fun p hp => hnext p (hbefore p hp)⟩

end Scan

/-- A visible character of the text stands at a position, with other ones in front of it. -/
def IsVisibleAt (text front : List Char) (c : Char) (position : Position) : Prop :=
  ∃ left right, text = left ++ c :: right ∧ visible left = front ∧
    visible (left ++ [c]) = front ++ [c] ∧ position = .after left

/-- Each word begins at its position in the text, with the words before it in front of it. -/
inductive Located (text : List Char) : List Draft → Prop
  | nil : Located text []
  | cons {draft : Draft} {earlier : List Draft} {first : Char}
      (hfirst : draft.reversed.getLast? = some first)
      (hvisible : IsVisibleAt text (Scan.characters earlier) first draft.position)
      (hearlier : Located text earlier) : Located text (draft :: earlier)

theorem Located.append {text : List Char} {drafts : List Draft} (h : Located text drafts)
    (more : List Char) : Located (text ++ more) drafts := by
  induction h with
  | nil => exact .nil
  | cons hfirst hvisible _ ih =>
      obtain ⟨left, right, rfl, hleft, hthere, hposition⟩ := hvisible
      refine .cons hfirst ⟨left, right ++ more, ?_, hleft, hthere, hposition⟩ ih
      rw [List.append_assoc, List.cons_append]

theorem Located.of_append {text : List Char} {later : List Draft} {draft : Draft}
    {earlier : List Draft} (h : Located text (later ++ draft :: earlier)) :
    ∃ first, draft.reversed.getLast? = some first ∧
      IsVisibleAt text (Scan.characters earlier) first draft.position := by
  induction later with
  | nil =>
      cases h with
      | cons hfirst hvisible _ => exact ⟨_, hfirst, hvisible⟩
  | cons _ later ih =>
      cases h with
      | cons _ _ hearlier => exact ih hearlier

theorem Scan.Scans.located {cs : List Char} {s : Scan} (h : Scans cs s) :
    Located cs s.drafts := by
  induction h with
  | start => exact .nil
  | @step cs s c t hscans hstep ih =>
      have hwhole := (hscans.step hstep).visible_eq
      rcases hstep.effect with ⟨hdrafts, _⟩ | ⟨hgrows, hc, _⟩
      · rw [hdrafts]
        exact ih.append [c]
      · have hcharacters := hgrows.characters
        have hfront := hscans.visible_eq
        generalize s.drafts = earlier at *
        generalize t.drafts = later at *
        cases hgrows with
        | push draft earlier =>
            cases ih.append [c] with
            | cons hfirst hvisible hearlier =>
                refine .cons ?_ hvisible hearlier
                rw [Draft.push, List.getLast?_cons, hfirst, Option.getD_some]
        | begin =>
            have hfirst : [c].getLast? = some c := rfl
            refine .cons hfirst ⟨cs, [], rfl, hfront, ?_, ?_⟩ (ih.append [c])
            · rw [hwhole, hcharacters]
            · rw [hstep.position_eq, hscans.advance_eq hc]

theorem flatMap_token (drafts : List Draft) :
    (drafts.reverse.map Draft.token).flatMap (fun word => word.text.toList) =
      Scan.characters drafts := by
  rw [Scan.characters, List.reverse_flatMap, List.flatMap_map]
  simp only [Draft.token, String.toList_ofList]
  rfl

/-- Nothing of a text is lost, doubled or misplaced among its words.  Their characters are what is
visible of the text; they stand in order; and each of them begins with the visible character that
stands at its position and has the words before it in front of it. -/
theorem tokenize_faithful (source : String) (words : List Token)
    (h : tokenize source = .ok words) :
    words.flatMap (fun word => word.text.toList) = visible source.toList ∧
      words.Pairwise (fun word next => word.position.Precedes next.position) ∧
      ∀ before word after, words = before ++ word :: after →
        ∃ first, word.text.toList.head? = some first ∧
          IsVisibleAt source.toList (before.flatMap fun word => word.text.toList) first
            word.position := by
  obtain ⟨s, hs, hmode, hwords⟩ := tokenize_eq_ok h
  have hclosed : s.closed = s.drafts := by
    obtain ⟨position, finished, mode⟩ := s
    cases mode with
    | joining draft => exact absurd rfl (hmode draft)
    | gap | word | comment => rfl
  rw [hclosed] at hwords
  subst hwords
  refine ⟨?_, ?_, ?_⟩
  · rw [flatMap_token, hs.visible_eq]
  · have hordered := hs.precedes.1
    rw [List.pairwise_map] at hordered ⊢
    exact List.pairwise_reverse.mpr hordered
  · intro before word after hsplit
    obtain ⟨earlier, others, hdrafts, rfl, hothers⟩ := List.map_eq_append_iff.mp hsplit
    obtain ⟨draft, later, rfl, rfl, rfl⟩ := List.map_eq_cons_iff.mp hothers
    have hlist : s.drafts = later.reverse ++ draft :: earlier.reverse := by
      rw [← List.reverse_reverse s.drafts, hdrafts]
      simp
    obtain ⟨first, hfirst, hvisible⟩ := (hlist ▸ hs.located).of_append
    refine ⟨first, by simp [Draft.token, hfirst], ?_⟩
    rw [← List.reverse_reverse earlier, flatMap_token]
    exact hvisible

/-- A sum and a mark over several lines, with comments between them. -/
theorem tokenize_faithful_lines :
    let source := "krz # 1\n f0 +\n 4\n@ xx"
    let copy : Token := ⟨"krz", ⟨1, 1⟩⟩
    let sum : Token := ⟨"f0+4@", ⟨2, 2⟩⟩
    let target : Token := ⟨"xx", ⟨4, 3⟩⟩
    tokenize source = .ok [copy, sum, target] ∧ visible source.toList = "krzf0+4@xx".toList ∧
      IsVisibleAt source.toList "krz".toList 'f' ⟨2, 2⟩ := by
  intro source copy sum target
  have hwords : tokenize source = .ok [copy, sum, target] := by
    decide +kernel
  have hall : [copy, sum, target].flatMap (fun word => word.text.toList) =
      "krzf0+4@xx".toList := by
    decide
  have hfront : [copy].flatMap (fun word => word.text.toList) = "krz".toList := by
    decide
  have hsum : sum.text.toList.head? = some 'f' := by
    decide
  obtain ⟨hvisible, _, hplaces⟩ := tokenize_faithful source [copy, sum, target] hwords
  obtain ⟨first, hfirst, hplace⟩ := hplaces [copy] sum [target] rfl
  rw [hall] at hvisible
  rw [hfront] at hplace
  cases hsum.symm.trans hfirst
  exact ⟨hwords, hvisible.symm, hplace⟩

end Cpu32.Source
