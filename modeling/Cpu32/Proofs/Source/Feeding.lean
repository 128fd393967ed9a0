import Cpu32.Proofs.Source.Printing
import Cpu32.Proofs.Source.Spacing

/-!
# Source text and calls

Reading the text of some statements does to a session what calling for each of them does.
-/

namespace Cpu32

/-- Makes calls one after the other, up to the first that fails. -/
def Edit.performAll : List Edit → EStateM Edit.Failure Session Unit
  | [] => return ()
  | edit :: rest => do
      edit.perform
      performAll rest

namespace Source

namespace Statement

variable {statement : Statement}

theorem exists_call (h : statement.IsPrintable) :
    ∃ edit, statement.calls = [edit] ∧
      ∀ s, edit.perform s = EStateM.adaptExcept .refused (Session.apply statement) s := by
  cases statement with
  | order order => exact absurd h id
  | _ => exact ⟨_, rfl, fun s => rfl⟩

theorem exists_word (h : statement.IsPrintable) :
    ∃ first others, statement.words = first :: others := by
  cases statement with
  | order order => exact absurd h id
  | instruction i operands =>
      rw [words]
      split
      · exact ⟨_, _, rfl⟩
      · exact ⟨_, _, rfl⟩
  | _ => exact ⟨_, _, rfl⟩

theorem orderAfter_of_isPrintable (h : statement.IsPrintable) (order : Order) :
    statement.orderAfter order = order := by
  cases statement with
  | order order => exact absurd h id
  | _ => rfl

end Statement

/-- No label for the next instruction is followed by one for the previous. -/
def LabelsApart (statements : List Statement) : Prop :=
  ∀ next previous, ¬ [Statement.bindNext next, .bindPrevious previous] <:+: statements

theorem LabelsApart.tail {statement : Statement} {statements : List Statement}
    (h : LabelsApart (statement :: statements)) : LabelsApart statements := by
  intro next previous hinfix
  exact h next previous (List.infix_cons hinfix)

theorem LabelsApart.head?_words {label : String} {statements : List Statement}
    (h : LabelsApart (.bindNext label :: statements))
    (hprintable : ∀ statement ∈ statements, statement.IsPrintable) :
    (statements.flatMap Statement.words).head? ≠ some "l'" := by
  intro hhead
  cases statements with
  | nil => cases hhead
  | cons statement statements =>
      obtain ⟨first, others, hwords⟩ := Statement.exists_word (hprintable _ List.mem_cons_self)
      rw [List.flatMap_cons, hwords, List.cons_append, List.head?_cons] at hhead
      have hfirst : statement.words.head? = some "l'" := by
        rw [hwords, List.head?_cons, hhead]
      obtain ⟨previous, rfl⟩ := Statement.head?_words hfirst
      exact h label previous ⟨[], statements, rfl⟩

/-- Reading the words of statements and making their calls end alike. -/
theorem endsAlike_buildFrom {statements : List Statement}
    (h : ∀ statement ∈ statements, statement.IsPrintable) (hlabels : LabelsApart statements)
    {tokens : List Token} (htexts : tokens.map Token.text = statements.flatMap Statement.words)
    (s : Session) :
    EndsAlike (buildFrom .sourceFirst tokens)
      (Edit.performAll (statements.flatMap Statement.calls)) s := by
  induction statements generalizing tokens s with
  | nil =>
      cases List.map_eq_nil_iff.mp htexts
      exact endsAlike_of_ok (buildFrom_nil .sourceFirst s) rfl
  | cons statement statements ih =>
      rw [List.forall_mem_cons] at h
      obtain ⟨first, others, hwords⟩ := Statement.exists_word h.1
      obtain ⟨edit, hcalls, hperform⟩ := Statement.exists_call h.1
      rw [List.flatMap_cons] at htexts
      obtain ⟨head, rest, rfl, _, _⟩ := List.map_eq_cons_iff.mp
        (htexts.trans (by rw [hwords, List.cons_append]))
      have hmore (label : String) (hlabel : statement = .bindNext label) :
          (statements.flatMap Statement.words).head? ≠ some "l'" := by
        subst hlabel
        exact hlabels.head?_words h.2
      obtain ⟨taken, hfirst, hrest⟩ := Statement.firstStatement_words h.1 htexts hmore
      rw [List.flatMap_cons, hcalls, List.singleton_append]
      cases happly : s.apply statement with
      | error cause t =>
          have hcall : edit.perform s = .error (.refused cause) t :=
            (hperform s).trans (adaptExcept_eq_error_iff.mpr ⟨cause, happly, rfl⟩)
          exact endsAlike_of_error (buildFrom_of_refused hfirst happly) (bind_of_error hcall _)
      | ok _ t =>
          have hcall : edit.perform s = .ok () t :=
            (hperform s).trans (adaptExcept_eq_ok_iff.mpr happly)
          refine (ih h.2 hlabels.tail hrest t).congr ?_ (bind_of_ok hcall _)
          rw [buildFrom_of_applied hfirst happly, Statement.orderAfter_of_isPrintable h.1]

end Source

namespace Session

open Source (Statement Spaced LabelsApart)

/-- A text of printable statements, with white space between the words, has the effect of the calls
that the statements stand for, beginning with that for a new file: it fails exactly when one of them
does, and leaves the session as the calls before that one do. -/
theorem feed_endsAlike_calls (statements : List Statement) (text : String)
    (hprintable : ∀ statement ∈ statements, statement.IsPrintable)
    (hlabels : LabelsApart statements)
    (htext : Spaced (statements.flatMap Statement.words) text.toList) (s : Session) :
    EndsAlike (feed text) (Edit.performAll (.beginFile :: statements.flatMap Statement.calls))
      s := by
  have hwords : ∀ word ∈ statements.flatMap Statement.words, Source.IsWord word.toList := by
    intro word hword
    obtain ⟨statement, hstatement, hmem⟩ := List.mem_flatMap.mp hword
    exact Statement.isWord_of_mem_words (hprintable statement hstatement) hmem
  obtain ⟨tokens, htokens, htexts⟩ := htext.tokenize hwords
  refine (Source.endsAlike_buildFrom hprintable hlabels htexts s.beginFile).congr ?_ ?_
  · rw [feed, htokens]
    rfl
  · exact bind_of_ok rfl _

/-- The statement before the last is refused, after a comparison and a jump to a label. -/
theorem feed_endsAlike_calls_refused :
    let statements : List Statement :=
      [.bindNext "loop",
        .instruction .krz [{ shape := .label "loop" }, { shape := .register .f0, address := true }],
        .instruction .clo [{ shape := .register .f0 }, { shape := .immediate 7 }],
        .instruction .ata [{ shape := .immediate 1 }, { shape := .displaced .f0 4 }],
        .exporting "loop"]
    let text := " nll loop krz loop F0@ fi F0 7 CLO ata 1 F0+4 kue loop"
    (∀ statement ∈ statements, statement.IsPrintable) ∧ LabelsApart statements ∧
      Spaced (statements.flatMap Statement.words) text.toList ∧
      ¬ Succeeds (feed text) {} ∧
      (stateAfter (feed text) {}).labels.find? "loop" = some 0 ∧
      (stateAfter (feed text) {}).offset = 11 := by
  intro statements text
  have hprintable : ∀ statement ∈ statements, statement.IsPrintable := by
    decide
  have hlabels : LabelsApart statements := by
    simp [LabelsApart, statements, List.infix_cons_iff]
  have htext : Spaced (statements.flatMap Statement.words) text.toList := by
    have hlist : text.toList =
        (statements.flatMap Statement.words).flatMap fun word => ' ' :: word.toList := by
      decide
    rw [hlist]
    exact Source.spaced_flatMap _
  obtain ⟨hsucceeds, hstate⟩ := feed_endsAlike_calls statements text hprintable hlabels htext {}
  refine ⟨hprintable, hlabels, htext, ?_, ?_, ?_⟩
  · rw [hsucceeds]
    rintro ⟨_, _, hcalls⟩
    cases hcalls
  · rw [hstate]
    rfl
  · rw [hstate]
    rfl

end Session

end Cpu32
