import Cpu32.Proofs.Session.History

/-!
# Failures

A call that fails has done nothing, or whole statements of a source file.  A list of words breaks
off at the head of one of its statements, and what is left then is what the words before that head
build by themselves.
-/

namespace Cpu32

namespace Source

/-- The order in force after the statements that some words begin with. -/
def lastOrder (order : Order) (words : List Token) (s : Session) : Order :=
  (carriedOut order words s).foldl (fun order statement => statement.orderAfter order) order

theorem lastOrder_nil (order : Order) (s : Session) : lastOrder order [] s = order := by
  rw [lastOrder, carriedOut]
  rfl

theorem lastOrder_cons {order : Order} {head : Token} {rest : List Token} {statement : Statement}
    {taken : Nat} {s t : Session} (hread : firstStatement order head rest = .ok (statement, taken))
    (happly : s.apply statement = .ok () t) :
    lastOrder order (head :: rest) s =
      lastOrder (statement.orderAfter order) (rest.drop taken) t := by
  rw [lastOrder, carriedOut]
  simp only [hread, happly]
  rfl

/-- Words are carried out up to the head of a statement that fails, and read the same without the
words from there on. -/
theorem buildFrom_eq_error {order : Order} {words : List Token} {s t : Session} {e : Error}
    (h : buildFrom order words s = .error e t) :
    ∃ before head after cause, words = before ++ head :: after ∧
      e = .statement head.position cause ∧ CarriesOut order before s t ∧
      buildFirst (lastOrder order before s) head after t = .error cause t := by
  induction order, words using buildFrom.induct generalizing s with
  | case1 order => cases (buildFrom_nil order s).symm.trans h
  | case2 order head rest ih =>
      rcases buildFrom_cons_cases order head rest s with
        ⟨cause, u, hfirst, hfails⟩ | ⟨statement, taken, u, hread, happly, hnext⟩
      · cases hfails.symm.trans h
        obtain rfl := isAtomic_buildFirst order head rest s cause t hfirst
        refine ⟨[], head, rest, cause, rfl, rfl, .nil order t, ?_⟩
        rwa [lastOrder_nil]
      · obtain ⟨before, failing, after, cause, hwords, he, hcarried, hfails⟩ :=
          ih _ _ (hnext.symm.trans h)
        have hmore : ([] : List Token).head?.map Token.text ≠ some "l'" := by
          simp
        have htaken : taken ≤ rest.length := (firstStatement_append hread hmore).2
        have hrest : rest = (rest.take taken ++ before) ++ failing :: after := by
          rw [List.append_assoc, ← hwords, List.take_append_drop]
        have hlength : (rest.take taken).length = taken := List.length_take_of_le htaken
        -- The words of the first statement are all there without those that break off.
        have hread' : firstStatement order head (rest.take taken ++ before) =
            .ok (statement, taken) := by
          rw [hrest] at hread
          apply firstStatement_of_append hread
          rw [List.length_append]
          omega
        refine ⟨head :: (rest.take taken ++ before), failing, after, cause,
          congrArg (head :: ·) hrest, he, .cons hread' happly ?_, ?_⟩
        · rwa [List.drop_left' hlength]
        · rwa [lastOrder_cons hread' happly, List.drop_left' hlength]

/-- A file that fails has built what the words before its failing statement build. -/
theorem build_eq_error {words : List Token} {s t : Session} {e : Error}
    (h : build words s = .error e t) :
    ∃ before head after cause, words = before ++ head :: after ∧
      e = .statement head.position cause ∧ build before s = .ok () t ∧
      buildFirst (lastOrder .sourceFirst before s.beginFile) head after t = .error cause t := by
  obtain ⟨before, head, after, cause, hwords, he, hcarried, hfails⟩ := buildFrom_eq_error h
  exact ⟨before, head, after, cause, hwords, he, (buildFrom_eq_ok_iff ..).mpr hcarried, hfails⟩

end Source

/-- A call by itself, apart from the reading of files, is carried out as a whole or not at all. -/
theorem Edit.isAtomic_perform {edit : Edit} (hedit : ∀ source, edit ≠ .feed source) :
    IsAtomic edit.perform := by
  cases edit with
  | append instruction operands =>
      exact (Session.isAtomic_append instruction operands).adaptExcept _
  | appendComparison a b relation =>
      exact (Session.isAtomic_appendComparison a b relation).adaptExcept _
  | appendComplement operand => exact (Session.isAtomic_append .dal _).adaptExcept _
  | bindNext name => exact (Session.isAtomic_bindNext name).adaptExcept _
  | bindPrevious name => exact (Session.isAtomic_bindPrevious name).adaptExcept _
  | beginFile => exact isAtomic_of_succeeds fun s => ⟨(), s.beginFile, rfl⟩
  | addExport name => exact isAtomic_of_succeeds fun s => ⟨(), s.addExport name, rfl⟩
  | addImport name => exact isAtomic_of_succeeds fun s => ⟨(), s.addImport name, rfl⟩
  | feed source => exact absurd rfl (hedit source)

open Source (Token)

namespace Session

/-- A text that does not divide into words is refused as such, and no other text is. -/
theorem perform_feed_eq_lexical_iff (source : String) (error : Source.LexicalError)
    (s t : Session) :
    (Edit.feed source).perform s = .error (.unread (.lexical error)) t ↔
      Source.tokenize source = .error error ∧ t = s := by
  rw [Edit.perform, adaptExcept_eq_error_iff, feed]
  cases Source.tokenize source with
  | error found =>
      constructor
      · rintro ⟨_, ⟨⟩, ⟨⟩⟩
        exact ⟨rfl, rfl⟩
      · rintro ⟨⟨⟩, rfl⟩
        exact ⟨_, rfl, rfl⟩
  | ok words =>
      constructor
      · rintro ⟨_, hbuild, ⟨⟩⟩
        obtain ⟨_, _, _, _, _, he, _⟩ := Source.build_eq_error hbuild
        cases he
      · rintro ⟨⟨⟩, _⟩

/-- No failure leaves a statement half made.  A call that builds one statement changes nothing when
it fails, and neither does reading a text that does not divide into words.  A list of words fails at
the head of one of its statements, where the error stands; the words before it build the same
session by themselves, and they do not fail. -/
theorem failure_leaves_whole_statements (s : Session) :
    (∀ edit : Edit, (∀ source, edit ≠ .feed source) →
      ∀ e t, edit.perform s = .error e t → t = s) ∧
    (∀ source error t, (Edit.feed source).perform s = .error (.unread (.lexical error)) t ↔
      Source.tokenize source = .error error ∧ t = s) ∧
    ∀ words e t, Source.build words s = .error e t →
      ∃ before head after cause, words = before ++ head :: after ∧
        e = .statement head.position cause ∧ Source.build before s = .ok () t ∧
        Source.buildFirst (Source.lastOrder .sourceFirst before s.beginFile) head after t =
          .error cause t := by
  refine ⟨fun _ hedit => Edit.isAtomic_perform hedit s, ?_, fun _ _ _ => Source.build_eq_error⟩
  exact fun source error t => perform_feed_eq_lexical_iff source error s t

/-- An instruction that stores to a value, and words in which a label for the next instruction has
none to follow. -/
theorem failure_leaves_whole_statements_dangling :
    let word (text : String) (column : Nat) : Token := ⟨text, ⟨1, column⟩⟩
    let words := [word "krz" 1, word "1" 5, word "f0" 7, word "nll" 10, word "a" 14,
      word "nac" 16, word "f0" 20, word "nll" 23, word "b" 27, word "l'" 29, word "c" 32]
    let edit : Edit := .append .krz [{ shape := .immediate 1 }, { shape := .immediate 2 }]
    (∃ e t, edit.perform {} = .error e t ∧ t = {}) ∧
      ∃ t before head after, words = before ++ head :: after ∧ head.position = ⟨1, 23⟩ ∧
        Source.build words {} = .error (.statement ⟨1, 23⟩ (.danglingLabel "b")) t ∧
        Source.build before {} = .ok () t ∧ t.labels.find? "a" = some 4 ∧ t.code.size = 2 := by
  intro word words edit
  obtain ⟨hunchanged, _, hbroken⟩ := failure_leaves_whole_statements {}
  have hfails : (match Source.build words {} with
      | .ok _ _ => none
      | .error e _ => some e) = some (.statement ⟨1, 23⟩ (.danglingLabel "b")) := by
    decide +kernel
  have hstate : (stateAfter (Source.build words) {}).labels.find? "a" = some 4 ∧
      (stateAfter (Source.build words) {}).code.size = 2 := by
    decide +kernel
  refine ⟨⟨_, _, rfl, hunchanged edit nofun _ _ rfl⟩, ?_⟩
  rcases hbuild : Source.build words {} with ⟨_, t⟩ | ⟨e, t⟩
  · rw [hbuild] at hfails
    cases hfails
  · rw [hbuild] at hfails
    cases hfails
    rw [stateAfter_of_error hbuild] at hstate
    obtain ⟨before, head, after, _, hwords, hposition, hbefore, _⟩ := hbroken words _ t hbuild
    exact ⟨t, before, head, after, hwords, (Source.Error.statement.inj hposition).1.symm, rfl,
      hbefore, hstate⟩

end Session

end Cpu32
