import Cpu32.Proofs.Outcome
import Cpu32.Source.File

/-!
# Reading statements

What a statement is follows from the texts of its words alone, and of the words after it only the
first one can matter.  A list of words is carried out statement by statement.
-/

namespace Cpu32.Source

namespace Statement

variable {keyword : Keyword}

theorem ofWords_ne_order (i : Instruction) (words : List Token) (order : Order) :
    ofWords i words ≠ .ok (.order order) := by
  intro h
  obtain ⟨operands, _, hoperands⟩ := exceptMap_eq_ok_iff.mp h
  cases hoperands

/-- Only the words for an order are read as one. -/
theorem read_ne_order (horder : ∀ order, keyword ≠ .order order) (order : Order) (head : Token)
    (rest : List Token) (new : Order) : read order head keyword rest ≠ .ok (.order new) := by
  fun_cases read order head keyword rest with
  | case1 => exact absurd rfl (horder _)
  | case3 | case4 | case5 | case6 | case7 | case8 | case9 => apply ofWords_ne_order
  | case11 =>
      intro h
      obtain ⟨operand, _, hoperand⟩ := exceptBind_eq_ok_iff.mp h
      cases hoperand
  | _ => nofun

theorem orderAfter_of_ne_order {statement : Statement} (h : ∀ new, statement ≠ .order new)
    (order : Order) : statement.orderAfter order = order := by
  cases statement with
  | order new => exact absurd rfl (h new)
  | _ => rfl

/-- Where the words stand does not matter. -/
theorem read_map {f : Token → Token} (hf : ∀ word, (f word).text = word.text) (order : Order)
    (head : Token) (keyword : Keyword) (rest : List Token) :
    read order (f head) keyword (rest.map f) = read order head keyword rest := by
  have htext : Token.text ∘ f = Token.text := funext hf
  have hoperand (word : Token) : operand (f word) = operand word := by
    rw [operand, operand, hf]
  have hcomparison (word : Token) : comparison? (f word) = comparison? word := by
    rw [comparison?, comparison?, hf]
  cases keyword with
  | order | reserved => simp only [read, hf]
  | binary =>
      rcases rest with _ | ⟨first, _ | ⟨second, after⟩⟩ <;>
        simp [read, ofWords, hf, hoperand]
  | exchange | multiply | comparison =>
      rcases rest with _ | ⟨first, _ | ⟨second, _ | ⟨third, after⟩⟩⟩ <;>
        simp [read, ofWords, hf, hoperand, hcomparison]
  | complement | bindNext | bindPrevious | exporting | importing =>
      rcases rest with _ | ⟨word, after⟩ <;>
        simp [read, hf, hoperand, htext]

/-- What is read from some words is read from more, if no label for the previous instruction
follows. -/
theorem read_append {order : Order} {head : Token} {rest : List Token} {statement : Statement}
    (h : read order head keyword rest = .ok statement) {more : List Token}
    (hmore : more.head?.map Token.text ≠ some "l'") :
    read order head keyword (rest ++ more) = .ok statement ∧ keyword.words ≤ rest.length := by
  revert h
  fun_cases read order head keyword rest with
  | case1 | case2 => exact fun h => ⟨h, Nat.zero_le _⟩
  | case9 _ _ _ _ _ _ hrelation =>
      -- The relation of a comparison.
      intro h
      refine ⟨?_, by simp [Keyword.words]⟩
      simp only [List.cons_append, read, hrelation, h]
  | case13 _ name next hnext =>
      -- The word after a label may be the first of those that follow.
      intro h
      refine ⟨?_, by simp [Keyword.words]⟩
      have hjoined : (next ++ more).head?.map Token.text ≠ some "l'" := by
        rcases next with _ | ⟨word, after⟩
        · exact hmore
        · exact hnext
      simp only [List.cons_append, read, if_neg hjoined, h]
  | case10 | case12 | case17 => nofun
  | _ => exact fun h => ⟨h, by simp [Keyword.words]⟩

/-- What is read from some words is read from those that it takes, whatever was behind them. -/
theorem read_of_append {order : Order} {head : Token} {rest more : List Token}
    {statement : Statement} (h : read order head keyword (rest ++ more) = .ok statement)
    (hle : keyword.words ≤ rest.length) : read order head keyword rest = .ok statement := by
  cases keyword with
  | order | reserved => exact h
  | binary =>
      rcases rest with _ | ⟨first, _ | ⟨second, after⟩⟩
      case cons.cons => exact h
      all_goals simp [Keyword.words] at hle
  | exchange | multiply | comparison =>
      rcases rest with _ | ⟨first, _ | ⟨second, _ | ⟨third, after⟩⟩⟩
      case cons.cons.cons => exact h
      all_goals simp [Keyword.words] at hle
  | complement | bindPrevious | exporting | importing =>
      rcases rest with _ | ⟨word, after⟩
      case cons => exact h
      all_goals simp [Keyword.words] at hle
  | bindNext =>
      rcases rest with _ | ⟨name, next⟩
      · simp [Keyword.words] at hle
      · rw [List.cons_append, read] at h
        split at h
        · cases h
        · rename_i hnext
          rw [read, if_neg]
          · exact h
          · intro hlabel
            apply hnext
            rcases next with _ | ⟨word, after⟩
            · cases hlabel
            · exact hlabel

end Statement

section firstStatement

variable {order : Order} {head : Token} {rest : List Token}

theorem firstStatement_map {f : Token → Token} (hf : ∀ word, (f word).text = word.text)
    (order : Order) (head : Token) (rest : List Token) :
    firstStatement order (f head) (rest.map f) = firstStatement order head rest := by
  simp only [firstStatement, hf, Statement.read_map hf]

theorem firstStatement_append {statement : Statement} {taken : Nat}
    (h : firstStatement order head rest = .ok (statement, taken)) {more : List Token}
    (hmore : more.head?.map Token.text ≠ some "l'") :
    firstStatement order head (rest ++ more) = .ok (statement, taken) ∧ taken ≤ rest.length := by
  rcases hkeyword : Keyword.ofText? head.text with _ | keyword
  · simp only [firstStatement, hkeyword] at h
    cases h
  · simp only [firstStatement, hkeyword] at h ⊢
    obtain ⟨statement, hread, hpair⟩ := exceptMap_eq_ok_iff.mp h
    cases hpair
    obtain ⟨hjoined, hle⟩ := Statement.read_append hread hmore
    rw [hjoined]
    exact ⟨rfl, hle⟩

theorem firstStatement_of_append {more : List Token} {statement : Statement} {taken : Nat}
    (h : firstStatement order head (rest ++ more) = .ok (statement, taken))
    (hle : taken ≤ rest.length) : firstStatement order head rest = .ok (statement, taken) := by
  rcases hkeyword : Keyword.ofText? head.text with _ | keyword
  · simp only [firstStatement, hkeyword] at h
    cases h
  · simp only [firstStatement, hkeyword] at h ⊢
    obtain ⟨statement, hread, hpair⟩ := exceptMap_eq_ok_iff.mp h
    cases hpair
    rw [Statement.read_of_append hread hle]
    rfl

end firstStatement

section buildFirst

variable {order : Order} {head : Token} {rest : List Token} {s t : Session}

theorem buildFirst_of_unread {cause : AssemblyError}
    (h : firstStatement order head rest = .error cause) (s : Session) :
    buildFirst order head rest s = .error cause s :=
  bind_of_error (ofExcept_of_error h s) _

variable {statement : Statement} {taken : Nat}

theorem buildFirst_of_refused {cause : AssemblyError}
    (h : firstStatement order head rest = .ok (statement, taken))
    (happly : s.apply statement = .error cause t) :
    buildFirst order head rest s = .error cause t :=
  (bind_of_ok (ofExcept_of_ok h s) _).trans (bind_of_error happly _)

theorem buildFirst_of_applied (h : firstStatement order head rest = .ok (statement, taken))
    (happly : s.apply statement = .ok () t) :
    buildFirst order head rest s = .ok (statement.orderAfter order, taken) t :=
  (bind_of_ok (ofExcept_of_ok h s) _).trans (bind_of_ok happly _)

theorem buildFrom_nil (order : Order) (s : Session) : buildFrom order [] s = .ok () s := by
  rw [buildFrom]
  rfl

theorem buildFrom_of_error {cause : AssemblyError}
    (h : buildFirst order head rest s = .error cause t) :
    buildFrom order (head :: rest) s = .error (.statement head.position cause) t := by
  rw [buildFrom]
  exact bind_of_error (adaptExcept_eq_error_iff.mpr ⟨cause, h, rfl⟩) _

theorem buildFrom_of_ok {next : Order} (h : buildFirst order head rest s = .ok (next, taken) t) :
    buildFrom order (head :: rest) s = buildFrom next (rest.drop taken) t := by
  rw [buildFrom]
  exact bind_of_ok (adaptExcept_eq_ok_iff.mpr h) _

theorem buildFrom_of_unread {cause : AssemblyError}
    (h : firstStatement order head rest = .error cause) (s : Session) :
    buildFrom order (head :: rest) s = .error (.statement head.position cause) s :=
  buildFrom_of_error (buildFirst_of_unread h s)

theorem buildFrom_of_refused {cause : AssemblyError}
    (h : firstStatement order head rest = .ok (statement, taken))
    (happly : s.apply statement = .error cause t) :
    buildFrom order (head :: rest) s = .error (.statement head.position cause) t :=
  buildFrom_of_error (buildFirst_of_refused h happly)

theorem buildFrom_of_applied (h : firstStatement order head rest = .ok (statement, taken))
    (happly : s.apply statement = .ok () t) :
    buildFrom order (head :: rest) s =
      buildFrom (statement.orderAfter order) (rest.drop taken) t :=
  buildFrom_of_ok (buildFirst_of_applied h happly)

/-- The first statement fails, or it is carried out and the others come next. -/
theorem buildFrom_cons_cases (order : Order) (head : Token) (rest : List Token) (s : Session) :
    (∃ cause t, buildFirst order head rest s = .error cause t ∧
      buildFrom order (head :: rest) s = .error (.statement head.position cause) t) ∨
    ∃ statement taken t, firstStatement order head rest = .ok (statement, taken) ∧
      s.apply statement = .ok () t ∧
      buildFrom order (head :: rest) s =
        buildFrom (statement.orderAfter order) (rest.drop taken) t := by
  rcases hread : firstStatement order head rest with cause | ⟨statement, taken⟩
  · exact .inl ⟨cause, s, buildFirst_of_unread hread s, buildFrom_of_unread hread s⟩
  rcases happly : s.apply statement with ⟨_, t⟩ | ⟨cause, t⟩
  · exact .inr ⟨statement, taken, t, rfl, happly, buildFrom_of_applied hread happly⟩
  · have hfails := buildFrom_of_refused hread happly
    exact .inl ⟨cause, t, buildFirst_of_refused hread happly, hfails⟩

end buildFirst

/-- All statements of some words are carried out, which leads from one session to another. -/
inductive CarriesOut : Order → List Token → Session → Session → Prop
  | nil (order : Order) (s : Session) : CarriesOut order [] s s
  | cons {order : Order} {head : Token} {rest : List Token} {statement : Statement} {taken : Nat}
      {s t u : Session} (hread : firstStatement order head rest = .ok (statement, taken))
      (happly : s.apply statement = .ok () t)
      (hrest : CarriesOut (statement.orderAfter order) (rest.drop taken) t u) :
      CarriesOut order (head :: rest) s u

theorem buildFrom_eq_ok_iff (order : Order) (words : List Token) (s t : Session) :
    buildFrom order words s = .ok () t ↔ CarriesOut order words s t := by
  constructor
  · intro h
    induction order, words using buildFrom.induct generalizing s with
    | case1 order =>
        cases (buildFrom_nil order s).symm.trans h
        exact .nil _ _
    | case2 order head rest ih =>
        rcases buildFrom_cons_cases order head rest s with
          ⟨_, _, _, hfails⟩ | ⟨statement, taken, u, hread, happly, hnext⟩
        · cases hfails.symm.trans h
        · exact .cons hread happly (ih _ _ u (hnext.symm.trans h))
  · intro h
    induction h with
    | nil order s => exact buildFrom_nil order s
    | cons hread happly _ ih =>
        rw [buildFrom_of_applied hread happly]
        exact ih

namespace CarriesOut

variable {order : Order} {words : List Token} {s t : Session}

/-- Where the words stand does not matter. -/
theorem map (h : CarriesOut order words s t) {f : Token → Token}
    (hf : ∀ word, (f word).text = word.text) : CarriesOut order (words.map f) s t := by
  induction h with
  | nil order s => exact .nil order s
  | cons hread happly _ ih =>
      rw [List.map_drop] at ih
      exact .cons ((firstStatement_map hf ..).trans hread) happly ih

/-- Words that follow are carried out next, in the order that is in force by then. -/
theorem append (h : CarriesOut order words s t) {more : List Token}
    (hmore : more.head?.map Token.text ≠ some "l'") :
    ∃ last, ∀ u, CarriesOut last more t u → CarriesOut order (words ++ more) s u := by
  induction h with
  | nil order s => exact ⟨order, fun u hu => hu⟩
  | cons hread happly _ ih =>
      obtain ⟨last, hlast⟩ := ih
      obtain ⟨hjoined, hle⟩ := firstStatement_append hread hmore
      refine ⟨last, fun u hu => ?_⟩
      have hrest := hlast u hu
      rw [← List.drop_append_of_le_length hle] at hrest
      exact .cons hjoined happly hrest

end CarriesOut

end Cpu32.Source
