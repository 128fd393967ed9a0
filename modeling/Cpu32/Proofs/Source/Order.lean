import Mathlib.Data.List.Basic
import Cpu32.Proofs.Source.Reading

/-!
# Naming destinations first

Where a file names destinations first, each keyword has its own way of putting its words in order,
and some have none.  The order makes no other difference: a file means the same with the words of
each statement put back, up to the statement at which it stops and the error.
-/

namespace Cpu32.Source

/-- The words of a statement that names its sources first, as they stand where destinations are
named first. -/
def Keyword.mirror : Keyword → List Token → List Token
  | .binary _, [source, destination] => [destination, source]
  | .exchange, [source, middle, destination] => [destination, middle, source]
  | .multiply _, [source, high, low] => [high, low, source]
  | _, words => words

/-- A keyword with all the words that it takes.  It does not change the order. -/
structure Clause where
  head : Token
  keyword : Keyword
  words : List Token
  ofText?_head : Keyword.ofText? head.text = some keyword := by decide
  ne_order : ∀ order, keyword ≠ .order order := by nofun
  length_words : words.length = keyword.words := by rfl

namespace Clause

/-- The words of the clause where sources are named first. -/
def tokens (clause : Clause) : List Token :=
  clause.head :: clause.words

/-- The words of the clause where destinations are named first.  The keyword stays in front. -/
def mirrored (clause : Clause) : List Token :=
  clause.head :: clause.keyword.mirror clause.words

end Clause

theorem Keyword.length_mirror (keyword : Keyword) (words : List Token) :
    (keyword.mirror words).length = words.length := by
  fun_cases mirror keyword words <;> rfl

namespace Statement

variable {keyword : Keyword} {words : List Token}

/-- A clause is read in either order as the same statement, or fails to be for the same reason.  Of
what follows it, only the first word matters. -/
theorem read_mirror (head : Token) (horder : ∀ order, keyword ≠ .order order)
    (hlength : words.length = keyword.words) {rest rest' : List Token}
    (hnext : rest'.head?.map Token.text = rest.head?.map Token.text) :
    read .destinationFirst head keyword (keyword.mirror words ++ rest') =
      read .sourceFirst head keyword (words ++ rest) := by
  cases keyword with
  | order order => exact absurd rfl (horder order)
  | reserved => rfl
  | binary =>
      obtain ⟨source, destination, rfl⟩ := List.length_eq_two.mp hlength
      rfl
  | exchange | multiply | comparison =>
      obtain ⟨first, second, third, rfl⟩ := List.length_eq_three.mp hlength
      rfl
  | bindNext =>
      obtain ⟨name, rfl⟩ := List.length_eq_one_iff.mp hlength
      simp only [Keyword.mirror, List.cons_append, List.nil_append, read, hnext]
  | complement | bindPrevious | exporting | importing =>
      obtain ⟨word, rfl⟩ := List.length_eq_one_iff.mp hlength
      rfl

end Statement

namespace Clause

variable (clause : Clause)

theorem firstStatement_mirrored {rest rest' : List Token}
    (hnext : rest'.head?.map Token.text = rest.head?.map Token.text) :
    firstStatement .destinationFirst clause.head (clause.keyword.mirror clause.words ++ rest') =
      firstStatement .sourceFirst clause.head (clause.words ++ rest) := by
  simp only [firstStatement, clause.ofText?_head,
    Statement.read_mirror clause.head clause.ne_order clause.length_words hnext]

/-- A clause ends where its words do, and leaves the order. -/
theorem of_firstStatement {order : Order} {rest : List Token} {statement : Statement}
    {taken : Nat} (h : firstStatement order clause.head rest = .ok (statement, taken)) :
    taken = clause.words.length ∧ ∀ now, statement.orderAfter now = now := by
  simp only [firstStatement, clause.ofText?_head] at h
  obtain ⟨statement, hread, hpair⟩ := exceptMap_eq_ok_iff.mp h
  cases hpair
  refine ⟨clause.length_words.symm, Statement.orderAfter_of_ne_order ?_⟩
  rintro new rfl
  exact Statement.read_ne_order clause.ne_order _ _ _ _ hread

end Clause

theorem head?_mirrored (clauses : List Clause) :
    (clauses.flatMap Clause.mirrored).head? = (clauses.flatMap Clause.tokens).head? := by
  cases clauses with
  | nil => rfl
  | cons clause rest => rfl

/-- In its own order each list of words does the same, whatever the session is. -/
theorem buildFrom_mirrored (clauses : List Clause) (s : Session) :
    buildFrom .destinationFirst (clauses.flatMap Clause.mirrored) s =
      buildFrom .sourceFirst (clauses.flatMap Clause.tokens) s := by
  induction clauses generalizing s with
  | nil => exact (buildFrom_nil .destinationFirst s).trans (buildFrom_nil .sourceFirst s).symm
  | cons clause rest ih =>
      have hmirrored := clause.firstStatement_mirrored
        (congrArg (Option.map Token.text) (head?_mirrored rest))
      rw [List.flatMap_cons, List.flatMap_cons, Clause.mirrored, Clause.tokens, List.cons_append,
        List.cons_append]
      rcases hread : firstStatement .sourceFirst clause.head
        (clause.words ++ rest.flatMap Clause.tokens) with cause | ⟨statement, taken⟩
      · rw [buildFrom_of_unread hread, buildFrom_of_unread (hmirrored.trans hread)]
      · obtain ⟨htaken, hafter⟩ := clause.of_firstStatement hread
        rcases happly : s.apply statement with ⟨_, t⟩ | ⟨cause, t⟩
        · rw [buildFrom_of_applied hread happly,
            buildFrom_of_applied (hmirrored.trans hread) happly, hafter, hafter,
            List.drop_left' htaken.symm,
            List.drop_left' ((clause.keyword.length_mirror _).trans htaken.symm)]
          exact ih t
        · rw [buildFrom_of_refused hread happly,
            buildFrom_of_refused (hmirrored.trans hread) happly]

/-- A file that names destinations first from its beginning does what the file does that names
sources first: it fails at the same statement for the same reason or not at all, and leaves the same
session. -/
theorem build_mirrored (position : Position) (clauses : List Clause) (s : Session) :
    build (⟨"'c'i", position⟩ :: clauses.flatMap Clause.mirrored) s =
      build (clauses.flatMap Clause.tokens) s := by
  have hfirst (rest : List Token) : firstStatement .sourceFirst ⟨"'c'i", position⟩ rest =
      .ok (.order .destinationFirst, 0) := rfl
  have hmirrored : build (⟨"'c'i", position⟩ :: clauses.flatMap Clause.mirrored) s =
      buildFrom .destinationFirst (clauses.flatMap Clause.mirrored) s.beginFile :=
    buildFrom_of_applied (s := s.beginFile) (hfirst _) rfl
  rw [hmirrored, buildFrom_mirrored]
  rfl

/-- The four kinds of instructions and a label, which the last instruction takes. -/
theorem build_mirrored_labelled :
    let word (text : String) : Token := ⟨text, .start⟩
    let clauses : List Clause :=
      [{ head := word "kRz", keyword := .binary .krz, words := ["1", "f0"].map word },
        { head := word "inj", keyword := .exchange, words := ["2", "f0", "f1"].map word },
        { head := word "lat", keyword := .multiply .lat, words := ["f0", "f1", "f2"].map word },
        { head := word "fi", keyword := .comparison, words := ["f1", "7", "clo"].map word },
        { head := word "l'", keyword := .bindPrevious, words := ["end"].map word }]
    let mirrored := word "'c'i" :: clauses.flatMap Clause.mirrored
    mirrored.map Token.text =
        ["'c'i", "kRz", "f0", "1", "inj", "f1", "f0", "2", "lat", "f1", "f2", "f0", "fi", "f1", "7",
          "clo", "l'", "end"] ∧
      build mirrored {} = build (clauses.flatMap Clause.tokens) {} ∧
      Succeeds (build mirrored) {} ∧
      (stateAfter (build mirrored) {}).labels.find? "end" = some 13 := by
  intro word clauses mirrored
  exact ⟨by decide, build_mirrored .start clauses {}, by decide +kernel, by decide +kernel⟩

end Cpu32.Source
