import Cpu32.Proofs.Source.Lexeme
import Cpu32.Proofs.Source.Origin
import Cpu32.Source.Diagnostic

/-!
# Where lexical errors point

An error stands at the character that makes the text go wrong, in a line that can be shown.  Only a
`+` that is still open at the end of the text has no such character: its error stands at the last
one, and if that is a line feed, in front of a line that the text does not have.
-/

namespace Cpu32

namespace Text

/-- A line feed ends a line, and what comes after it makes lines of its own. -/
theorem splitLines_append (front rest : List Char) :
    ∃ lines, splitLines (front ++ '\n' :: rest) = lines ++ splitLines rest ∧
      lines.length = front.count '\n' + 1 := by
  induction front with
  | nil => exact ⟨[[]], rfl, rfl⟩
  | cons c front ih =>
      obtain ⟨lines, hlines, hlength⟩ := ih
      by_cases hc : c = '\n'
      · refine ⟨[] :: lines, ?_, ?_⟩
        · rw [List.cons_append, splitLines, if_pos hc, hlines, List.cons_append]
        · rw [List.length_cons, hlength, hc, List.count_cons_self]
      · obtain ⟨line, others, rfl⟩ := List.exists_cons_of_length_eq_add_one hlength
        refine ⟨(c :: line) :: others, ?_, ?_⟩
        · rw [List.cons_append, splitLines, if_neg hc, hlines, List.cons_append, List.cons_append]
        · rw [List.count_cons_of_ne hc]
          exact hlength

/-- Without a line feed the first line goes on. -/
theorem splitLines_of_not_mem {front : List Char} (hfront : '\n' ∉ front) {c : Char}
    (hc : c ≠ '\n') (right : List Char) :
    ∃ rest others, splitLines (front ++ c :: right) = (front ++ c :: rest) :: others := by
  induction front with
  | nil =>
      rw [List.nil_append, splitLines, if_neg hc]
      split
      · exact ⟨[], [], rfl⟩
      · exact ⟨_, _, rfl⟩
  | cons d front ih =>
      rw [List.mem_cons, not_or] at hfront
      obtain ⟨rest, others, hlines⟩ := ih hfront.2
      refine ⟨rest, others, ?_⟩
      rw [List.cons_append, splitLines, if_neg (Ne.symm hfront.1), hlines, List.cons_append]

/-- The characters since the last line feed, latest first. -/
theorem takeWhile_reverse {tail : List Char} (h : '\n' ∉ tail) :
    tail.reverse.takeWhile (· ≠ '\n') = tail.reverse ∧
      ∀ front, (front ++ '\n' :: tail).reverse.takeWhile (· ≠ '\n') = tail.reverse := by
  have hall : ∀ c ∈ tail.reverse, decide (c ≠ '\n') = true := by
    intro c hc
    refine decide_eq_true ?_
    rintro rfl
    exact h (List.mem_reverse.mp hc)
  have happend : ∀ rest, (tail.reverse ++ rest).takeWhile (· ≠ '\n') =
      tail.reverse ++ rest.takeWhile (· ≠ '\n') :=
    fun _ => List.takeWhile_append_of_pos hall
  constructor
  · simpa using happend []
  · intro front
    rw [List.reverse_append, List.reverse_cons, List.append_assoc, happend]
    simp

theorem exists_lastLine {cs : List Char} (h : '\n' ∈ cs) :
    ∃ front tail, cs = front ++ '\n' :: tail ∧ '\n' ∉ tail := by
  obtain ⟨tail, front, hreverse, htail⟩ := List.eq_append_cons_of_mem (List.mem_reverse.mpr h)
  refine ⟨front.reverse, tail.reverse, ?_, fun hmem => htail (List.mem_reverse.mp hmem)⟩
  rw [← List.reverse_reverse cs, hreverse]
  simp

/-- Every character but a line feed stands in a line, after the others since the last line feed. -/
theorem exists_line (left right : List Char) {c : Char} (hc : c ≠ '\n') :
    ∃ chars, (splitLines (left ++ c :: right))[left.count '\n']? = some chars ∧
      chars[(left.reverse.takeWhile (· ≠ '\n')).length]? = some c := by
  by_cases hmem : '\n' ∈ left
  · obtain ⟨front, tail, rfl, htail⟩ := exists_lastLine hmem
    obtain ⟨rest, others, hlines⟩ := splitLines_of_not_mem htail hc right
    obtain ⟨lines, hall, hlength⟩ := splitLines_append front (tail ++ c :: right)
    refine ⟨tail ++ c :: rest, ?_, ?_⟩
    · rw [List.append_assoc, List.cons_append, hall, hlines, List.count_append,
        List.count_cons_self, List.count_eq_zero.mpr htail, ← hlength]
      simp
    · rw [(takeWhile_reverse htail).2 front, List.length_reverse]
      simp
  · obtain ⟨rest, others, hlines⟩ := splitLines_of_not_mem hmem hc right
    refine ⟨left ++ c :: rest, ?_, ?_⟩
    · rw [hlines, List.count_eq_zero.mpr hmem]
      rfl
    · rw [(takeWhile_reverse hmem).1, List.length_reverse]
      simp

end Text

namespace Source

open Text (isBlank)

/-- After this text a mark has no word to go to.  It stands apart, and the last word, if there is
one, ends in neither a letter nor a digit. -/
def IsUnattachable (left : List Char) : Prop :=
  (∀ c ∈ left.getLast?, isBlank c ∨ c = '@') ∧ ∀ c ∈ (visible left).getLast?, c.isAlphanum = false

/-- The text ends in a `+`, which is not in a comment, and white space. -/
def EndsInPlus (text : List Char) : Prop :=
  ∃ front blanks, text = front ++ '+' :: blanks ∧ (∀ c ∈ blanks, isBlank c) ∧
    (visible text).getLast? = some '+'

/-- After this text the character is wrong. -/
inductive Offends : LexicalFault → List Char → Char → Prop
  | strayAt {left : List Char} (h : IsUnattachable left) : Offends .strayAt left '@'
  | strayPlus {left : List Char} (h : IsUnattachable left) : Offends .strayPlus left '+'
  | danglingPlus {left : List Char} {c : Char} (h : EndsInPlus left) (hblank : isBlank c = false)
      (hc : c.isAlphanum = false) : Offends .danglingPlus left c

theorem Offends.ne_newline {fault : LexicalFault} {left : List Char} {c : Char}
    (h : Offends fault left c) : c ≠ '\n' := by
  rintro rfl
  cases h with
  | danglingPlus _ hblank _ => cases hblank

namespace Scan

variable {cs : List Char} {s : Scan} {c : Char} {e : LexicalError}

/-- No word takes the character. -/
inductive Refuses : Scan → Char → LexicalFault → Prop
  | strayAt (position : Position) {finished : List Draft}
      (h : ∀ draft ∈ finished.head?, draft.isAttachable = false) :
      Refuses ⟨position, finished, .gap⟩ '@' .strayAt
  | strayPlus (position : Position) {finished : List Draft}
      (h : ∀ draft ∈ finished.head?, draft.isAttachable = false) :
      Refuses ⟨position, finished, .gap⟩ '+' .strayPlus
  | danglingPlus (position : Position) (finished : List Draft) (draft : Draft) {c : Char}
      (hblank : isBlank c = false) (hc : c.isAlphanum = false) :
      Refuses ⟨position, finished, .joining draft⟩ c .danglingPlus

/-- A mark that goes to the last word is refused if there is none, or none that takes it. -/
theorem refuses_of_last {finished : List Draft} {refused : LexicalError}
    (put : Draft → List Draft → Scan)
    (h : (match finished with
      | draft :: others => if draft.isAttachable then .ok (put draft others) else .error refused
      | [] => .error refused) = Except.error e) :
    e = refused ∧ ∀ draft ∈ finished.head?, draft.isAttachable = false := by
  rcases finished with _ | ⟨draft, others⟩
  · cases h
    exact ⟨rfl, nofun⟩
  · simp only at h
    split at h
    · cases h
    · cases h
      refine ⟨rfl, ?_⟩
      rintro _ ⟨⟩
      simpa using ‹¬ draft.isAttachable = true›

theorem refuses_of_takeAt {position : Position} {finished : List Draft}
    (h : takeAt ⟨position, finished, .gap⟩ = .error e) :
    e = ⟨position, .strayAt⟩ ∧ ∀ draft ∈ finished.head?, draft.isAttachable = false := by
  refine refuses_of_last (fun draft others => ⟨position, draft.push '@' :: others, .gap⟩) ?_
  rw [← h]
  cases finished <;> rfl

theorem refuses_of_takePlus {position : Position} {finished : List Draft}
    (h : takePlus ⟨position, finished, .gap⟩ = .error e) :
    e = ⟨position, .strayPlus⟩ ∧ ∀ draft ∈ finished.head?, draft.isAttachable = false := by
  refine refuses_of_last (fun draft others => ⟨position, others, .joining (draft.push '+')⟩) ?_
  rw [← h]
  cases finished <;> rfl

/-- Reading a character fails at its position, between words or after a `+`. -/
theorem refuses_of_next (h : s.next c = .error e) :
    e.position = s.position.advance c ∧ s.Refuses c e.fault := by
  obtain ⟨position, finished, mode⟩ := s
  cases mode with
  | comment =>
      simp only [next, take] at h
      cases h
  | joining draft =>
      simp only [next, take, takeJoined] at h
      split at h
      · cases h
      split at h
      · cases h
      · cases h
        exact ⟨rfl, .danglingPlus _ _ _ (by simpa using ‹¬ isBlank c = true›)
          (by simpa using ‹¬ c.isAlphanum = true›)⟩
  | word draft =>
      -- A word takes every character, so none of the branches is an error.
      simp only [next, take] at h
      split at h
      · cases h
      split at h
      · cases h
      split at h
      · cases h
      split at h
      · cases h
      · cases h
  | gap =>
      simp only [next, take] at h
      split at h
      · cases h
      split at h
      · cases h
      split at h
      · subst c
        obtain ⟨rfl, hfinished⟩ := refuses_of_takeAt h
        exact ⟨rfl, .strayAt position hfinished⟩
      split at h
      · subst c
        obtain ⟨rfl, hfinished⟩ := refuses_of_takePlus h
        exact ⟨rfl, .strayPlus position hfinished⟩
      · cases h

/-- A gap begins with the text, after white space, or after a word that is closed. -/
theorem Scans.last_of_gap (h : Scans cs s) (hmode : s.mode = .gap) :
    ∀ c ∈ cs.getLast?, isBlank c ∨ c = '@' := by
  cases h with
  | start => nofun
  | step _ hstep =>
      rw [List.getLast?_concat]
      rintro _ ⟨⟩
      cases hstep with
      | commentEnd => exact .inl rfl
      | blank _ hc => exact .inl hc
      | reference => exact .inr rfl
      | hidden | comment | first | letter | plus | skip | joined => cases hmode

/-- The last visible character of a text is the last of the word begun last. -/
theorem Scans.getLast?_visible {draft : Draft} {others : List Draft} {last : Char}
    {front : List Char} (h : Scans cs s) (hdrafts : s.drafts = draft :: others)
    (hdraft : draft.reversed = last :: front) : (visible cs).getLast? = some last := by
  rw [h.visible_eq, hdrafts, characters, List.flatMap_cons, hdraft, List.getLast?_reverse,
    List.cons_append, List.head?_cons]

theorem Scans.isUnattachable (h : Scans cs s) (hmode : s.mode = .gap)
    (hfinished : ∀ draft ∈ s.finished.head?, draft.isAttachable = false) : IsUnattachable cs := by
  refine ⟨h.last_of_gap hmode, ?_⟩
  have hsound := h.isSound.finished
  obtain ⟨position, finished, mode⟩ := s
  cases hmode
  rcases finished with _ | ⟨draft, finished⟩
  · rw [h.visible_eq]
    nofun
  · have hgrown : IsLexeme draft.reversed.reverse :=
      isGrown_iff.mp (hsound draft List.mem_cons_self)
    obtain ⟨last, front, hdraft⟩ :=
      List.exists_cons_of_ne_nil (isLexeme_reverse_iff.mp hgrown).1
    rw [h.getLast?_visible rfl hdraft]
    rintro _ ⟨⟩
    have hlast := hfinished draft rfl
    rwa [Draft.isAttachable, hdraft] at hlast

/-- While a `+` waits for a character, only white space has come after it. -/
theorem Scans.endsInPlus {draft : Draft} (h : Scans cs s) (hmode : s.mode = .joining draft) :
    EndsInPlus cs := by
  -- The mode is entered by the `+` and kept by white space alone, so no other step can be the last.
  have hblanks : ∃ front blanks, cs = front ++ '+' :: blanks ∧ ∀ c ∈ blanks, isBlank c := by
    induction h with
    | start => cases hmode
    | @step cs s c t _ hstep ih =>
        cases hstep with
        | plus => exact ⟨cs, [], rfl, nofun⟩
        | skip position finished draft hc =>
            obtain ⟨front, blanks, rfl, hblanks⟩ := ih hmode
            refine ⟨front, blanks ++ [c], List.append_assoc .., ?_⟩
            exact List.forall_mem_append.mpr ⟨hblanks, List.forall_mem_singleton.mpr hc⟩
        | hidden | commentEnd | comment | blank | first | letter | reference | joined => cases hmode
  obtain ⟨front, blanks, hcs, hblanks⟩ := hblanks
  obtain ⟨stem, hreversed, _⟩ := h.isSound.joining draft hmode
  have hdrafts : s.drafts = draft :: s.finished := by
    rw [drafts, hmode]
  exact ⟨front, blanks, hcs, hblanks, h.getLast?_visible hdrafts hreversed⟩

/-- A character that is refused is wrong after the text before it. -/
theorem Scans.offends {fault : LexicalFault} (h : Scans cs s) (hrefuses : s.Refuses c fault) :
    Offends fault cs c := by
  cases hrefuses with
  | strayAt position hfinished => exact .strayAt (h.isUnattachable rfl hfinished)
  | strayPlus position hfinished => exact .strayPlus (h.isUnattachable rfl hfinished)
  | danglingPlus position finished draft hblank hc =>
      exact .danglingPlus (h.endsInPlus rfl) hblank hc

theorem exists_refused {rest : List Char} (hs : Scans cs s)
    (h : rest.foldlM next s = .error e) :
    ∃ left c right t, rest = left ++ c :: right ∧ Scans (cs ++ left) t ∧ t.next c = .error e := by
  induction rest generalizing cs s with
  | nil => cases h
  | cons c rest ih =>
      rw [List.foldlM_cons] at h
      cases hnext : s.next c with
      | error e' =>
          rw [hnext] at h
          cases h
          exact ⟨[], c, rest, s, rfl, by rwa [List.append_nil], hnext⟩
      | ok t =>
          rw [exceptBind_of_ok hnext] at h
          obtain ⟨left, d, right, u, rfl, hu, hrefused⟩ := ih (hs.step (next_eq_ok_iff.mp hnext)) h
          refine ⟨c :: left, d, right, u, rfl, ?_, hrefused⟩
          rwa [List.append_cons]

end Scan

/-- A text is refused at one of its characters, or at its end if a `+` is open there. -/
theorem tokenize_eq_error {source : String} {e : LexicalError} (h : tokenize source = .error e) :
    (∃ left c right s, source.toList = left ++ c :: right ∧ Scan.Scans left s ∧
      s.next c = .error e) ∨
    ∃ s draft, Scan.Scans source.toList s ∧ s.mode = .joining draft ∧
      e = ⟨s.position, .danglingPlus⟩ := by
  rw [tokenize, tokensOf] at h
  cases hscan : source.toList.foldlM Scan.next {} with
  | error e' =>
      rw [hscan] at h
      cases h
      obtain ⟨left, c, right, s, hsource, hs, hnext⟩ := Scan.exists_refused .start hscan
      exact .inl ⟨left, c, right, s, hsource, hs, hnext⟩
  | ok s =>
      rw [exceptBind_of_ok hscan] at h
      have hs := Scan.scans_of_foldlM .start hscan
      obtain ⟨position, finished, mode⟩ := s
      cases mode with
      | joining draft =>
          cases h
          exact .inr ⟨_, draft, hs, rfl, rfl⟩
      | gap | word | comment => cases h

/-- The line of a position is there to be shown, and the character stands in its column. -/
def IsShown (source : String) (position : Position) (c : Char) : Prop :=
  ∃ line, (Text.lines source)[position.line - 1]? = some line ∧
    line.toList[position.column - 1]? = some c

variable {source : String} {s : Scan} {left right : List Char} {c : Char}

theorem isShown_after (h : source.toList = left ++ c :: right) (hc : c ≠ '\n') :
    IsShown source (.after left) c := by
  obtain ⟨chars, hline, hcolumn⟩ := Text.exists_line left right hc
  refine ⟨String.ofList chars, ?_, ?_⟩
  · rw [Text.lines, h, List.getElem?_map, Position.after, Nat.add_sub_cancel, hline,
      Option.map_some]
  · rw [String.toList_ofList, Position.after, Nat.add_sub_cancel, hcolumn]

/-- After its last character, unless that is a line feed, a scan stands at that character. -/
theorem Scan.Scans.position_concat (h : Scan.Scans (left ++ [c]) s) (hc : c ≠ '\n') :
    s.position = .after left := by
  rw [h.position_eq, Position.after]
  simp [hc]

/-- After a line feed at the end of a text a scan stands in front of a line that the text does not
have. -/
theorem Scan.Scans.position_newline (h : Scan.Scans source.toList s)
    (hsource : source.toList = left ++ ['\n']) :
    s.position = ⟨(Text.lines source).length + 1, 0⟩ := by
  obtain ⟨lines, hlines, hlength⟩ := Text.splitLines_append left []
  rw [h.position_eq, Text.lines, List.length_map, hsource, hlines, List.length_append, hlength]
  simp [Text.splitLines]

theorem excerpt_eq_nil {position : Position} (h : (Text.lines source).length < position.line) :
    excerpt source position = [] := by
  rw [excerpt, List.getElem?_eq_none (Nat.le_sub_one_of_lt h)]

/-- An error of a text that does not divide into words points to a character that can be shown: a
mark without a word, what stands in place of a letter or digit after a `+`, or the last character of
a text that ends in a `+` and white space.  Only if that last one is a line feed the error is in
front of the line after the last, and there is nothing to show. -/
theorem tokenize_error_points (source : String) (e : LexicalError)
    (h : tokenize source = .error e) :
    (∃ left c right, source.toList = left ++ c :: right ∧ e.position = .after left ∧
      IsShown source e.position c ∧
      (Offends e.fault left c ∨
        e.fault = .danglingPlus ∧ EndsInPlus source.toList ∧ right = [])) ∨
    e.fault = .danglingPlus ∧ EndsInPlus source.toList ∧ source.toList.getLast? = some '\n' ∧
      e.position = ⟨(Text.lines source).length + 1, 0⟩ ∧ excerpt source e.position = [] := by
  rcases tokenize_eq_error h with
    ⟨left, c, right, s, hsource, hs, hnext⟩ | ⟨s, draft, hs, hmode, rfl⟩
  · obtain ⟨hposition, hrefuses⟩ := Scan.refuses_of_next hnext
    have hoffends := hs.offends hrefuses
    rw [hs.advance_eq hoffends.ne_newline] at hposition
    refine .inl ⟨left, c, right, hsource, hposition, ?_, .inl hoffends⟩
    rw [hposition]
    exact isShown_after hsource hoffends.ne_newline
  · have hends := hs.endsInPlus hmode
    rcases List.eq_nil_or_concat source.toList with hnil | ⟨left, c, hsource⟩
    · obtain ⟨front, blanks, hfront, _⟩ := hends
      exact absurd (hnil.symm.trans hfront) (by simp)
    rw [List.concat_eq_append] at hsource
    -- The position moves with the line feed, and so past the end of the text.
    by_cases hc : c = '\n'
    · subst hc
      have hposition := hs.position_newline hsource
      refine .inr ⟨rfl, hends, ?_, hposition, excerpt_eq_nil ?_⟩
      · rw [hsource, List.getLast?_concat]
      · rw [hposition]
        exact Nat.lt_succ_self _
    · have hposition := (hsource ▸ hs).position_concat hc
      refine .inl ⟨left, c, [], hsource, hposition, ?_, .inr ⟨rfl, hends, rfl⟩⟩
      rw [hposition]
      exact isShown_after hsource hc

/-- What comes after the `+` and a comment is on later lines, but the comment is what is wrong. -/
theorem tokenize_error_points_comment :
    let source := "krz 1\n f0 +\n# 4\n4@"
    let e : LexicalError := ⟨⟨3, 1⟩, .danglingPlus⟩
    tokenize source = .error e ∧ ∃ left right, source.toList = left ++ '#' :: right ∧
      e.position = .after left ∧ IsShown source e.position '#' ∧
        Offends .danglingPlus left '#' := by
  intro source e
  have herror : tokenize source = .error e := by
    decide +kernel
  refine ⟨herror, ?_⟩
  rcases tokenize_error_points source e herror with
    ⟨left, c, right, hsource, hposition, hshown, hcause⟩ | ⟨_, _, hlast, _⟩
  · have hline : (Text.lines source)[e.position.line - 1]? = some "# 4" := by
      decide +kernel
    obtain ⟨line, hthird, hcolumn⟩ := hshown
    cases hline.symm.trans hthird
    have hfirst : "# 4".toList[e.position.column - 1]? = some '#' := by
      decide
    cases hfirst.symm.trans hcolumn
    refine ⟨left, right, hsource, hposition, ⟨_, hthird, hcolumn⟩, ?_⟩
    rcases hcause with hoffends | ⟨_, _, rfl⟩
    · exact hoffends
    · have hlast := congrArg List.getLast? hsource
      rw [List.getLast?_concat] at hlast
      exact absurd hlast (by decide)
  · exact absurd hlast (by decide)

/-- The sum of a text in which nothing but a line feed follows is reported past its end. -/
theorem tokenize_error_past_end :
    let source := "f0 +\n"
    let e : LexicalError := ⟨⟨2, 0⟩, .danglingPlus⟩
    tokenize source = .error e ∧
      (¬ ∃ left c right, source.toList = left ++ c :: right ∧ e.position = .after left) ∧
      (Text.lines source)[e.position.line - 1]? = none ∧
      diagnostic "a.lk" source (.lexical e) =
        ["error: '+' must be followed by a register or number", " --> a.lk:2:0"] := by
  intro source e
  refine ⟨by decide +kernel, ?_, by decide +kernel, by decide +kernel⟩
  rintro ⟨left, _, _, _, hposition⟩
  cases congrArg Position.column hposition

end Source

end Cpu32
