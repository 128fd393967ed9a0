import Mathlib.Data.List.Basic
import Cpu32.Proofs.Operand.Text
import Cpu32.Proofs.Session.History

/-!
# Statements in source form

Every statement is written as a keyword with its operands, sources first, and is read back from
these words.
-/

namespace Cpu32

namespace Instruction

/-- The instruction as source text names it before its operands. -/
def word (i : Instruction) : String :=
  String.ofList (i.mnemonic.toList.map Char.toLower)

/-- The keyword of a statement of the instruction. -/
def keyword (i : Instruction) : Source.Keyword :=
  match i with
  | .inj => .exchange
  | .lat | .latsna => .multiply i
  | _ => if i.isComparison then .comparison else .binary i

theorem ofText?_word {i : Instruction} (h : ¬ i.isComparison) :
    Source.Keyword.ofText? i.word = some i.keyword := by
  cases i <;> first | rfl | exact absurd rfl h

theorem ofMnemonic?_mnemonic (i : Instruction) : ofMnemonic? i.mnemonic = some i := by
  cases i <;> decide

theorem keyword_cases {i : Instruction} (h : ¬ i.isComparison) :
    (i.keyword = .binary i ∧ i.arity = 2) ∨ (i.keyword = .exchange ∧ i = .inj ∧ i.arity = 3) ∨
      (i.keyword = .multiply i ∧ i.arity = 3) := by
  cases i <;> first | exact absurd rfl h | decide

theorem arity_of_isComparison {i : Instruction} (h : i.isComparison) : i.arity = 2 := by
  cases i <;> first | rfl | cases h

theorem isName_word (i : Instruction) : Source.IsName i.word.toList := by
  cases i <;> decide

theorem isName_mnemonic (i : Instruction) : Source.IsName i.mnemonic.toList := by
  cases i <;> decide

theorem word_ne (i : Instruction) : i.word ≠ "l'" := by
  cases i <;> decide

end Instruction

namespace Source

namespace Statement

/-- The words of a statement that names its sources first. -/
def words : Statement → List String
  | .instruction i operands =>
      if i.isComparison then "fi" :: (operands.map Operand.text ++ [i.mnemonic])
      else i.word :: operands.map Operand.text
  | .bindNext label => ["nll", label]
  | .bindPrevious label => ["l'", label]
  | .exporting label => ["kue", label]
  | .importing label => ["xok", label]
  | .order _ => []

/-- The calls that carry a statement out. -/
def calls : Statement → List Edit
  | .instruction i operands => [.append i operands]
  | .bindNext label => [.bindNext label]
  | .bindPrevious label => [.bindPrevious label]
  | .exporting label => [.addExport label]
  | .importing label => [.addImport label]
  | .order _ => []

/-- A statement that its words say in full. -/
def IsPrintable : Statement → Prop
  | .instruction i operands => operands.length = i.arity ∧ ∀ o ∈ operands, o.IsPrintable
  | .bindNext label | .bindPrevious label | .exporting label | .importing label =>
      IsName label.toList
  | .order _ => False

instance : DecidablePred IsPrintable
  | .instruction .. => inferInstanceAs (Decidable (_ ∧ _))
  | .bindNext _ | .bindPrevious _ | .exporting _ | .importing _ =>
      inferInstanceAs (Decidable (IsName _))
  | .order _ => .isFalse id

theorem isWord_of_mem_words {statement : Statement} (h : statement.IsPrintable) {word : String}
    (hword : word ∈ statement.words) : IsWord word.toList := by
  cases statement with
  | instruction i operands =>
      have hoperands : ∀ word ∈ operands.map Operand.text, IsWord word.toList := by
        intro word hmem
        obtain ⟨o, ho, rfl⟩ := List.mem_map.mp hmem
        exact Operand.isWord_text (h.2 o ho)
      by_cases hcompare : i.isComparison
      · simp only [words, if_pos hcompare, List.mem_cons, List.mem_append, List.not_mem_nil,
          or_false] at hword
        rcases hword with rfl | hmem | rfl
        · exact .body (.name (by decide))
        · exact hoperands word hmem
        · exact .body (.name i.isName_mnemonic)
      · simp only [words, if_neg hcompare, List.mem_cons] at hword
        rcases hword with rfl | hmem
        · exact .body (.name i.isName_word)
        · exact hoperands word hmem
  | order order => exact absurd h id
  | _ =>
      simp only [words, List.mem_cons, List.not_mem_nil, or_false] at hword
      rcases hword with rfl | rfl
      · exact .body (.name (by decide))
      · exact .body (.name h)

/-- Only a label for the previous instruction begins with its keyword. -/
theorem head?_words {statement : Statement} (h : statement.words.head? = some "l'") :
    ∃ label, statement = .bindPrevious label := by
  cases statement with
  | instruction i operands =>
      by_cases hcompare : i.isComparison
      · simp [words, hcompare] at h
      · simp [words, hcompare, i.word_ne] at h
  | bindPrevious label => exact ⟨label, rfl⟩
  | bindNext label => simp [words] at h
  | exporting label => simp [words] at h
  | importing label => simp [words] at h
  | order order => simp [words] at h

theorem mapM_operand {tokens : List Token} {operands : List Operand}
    (htexts : tokens.map Token.text = operands.map Operand.text)
    (h : ∀ o ∈ operands, o.IsPrintable) : tokens.mapM operand = .ok operands := by
  induction operands generalizing tokens with
  | nil =>
      cases tokens with
      | nil => rfl
      | cons token rest => cases htexts
  | cons o operands ih =>
      cases tokens with
      | nil => cases htexts
      | cons token rest =>
          rw [List.map_cons, List.map_cons, List.cons.injEq] at htexts
          rw [List.forall_mem_cons] at h
          have hfirst : operand token = .ok o := by
            rw [operand, htexts.1, Operand.ofText_text h.1]
          rw [List.mapM_cons, exceptBind_of_ok hfirst, exceptBind_of_ok (ih htexts.2 h.2)]
          rfl

theorem ofWords_eq_ok (i : Instruction) {tokens : List Token} {operands : List Operand}
    (htexts : tokens.map Token.text = operands.map Operand.text)
    (h : ∀ o ∈ operands, o.IsPrintable) : ofWords i tokens = .ok (.instruction i operands) := by
  rw [ofWords, mapM_operand htexts h]
  rfl

variable {i : Instruction} {operands : List Operand}

/-- A comparison is read from its operands and its name. -/
theorem read_comparison (hcompare : i.isComparison) (order : Order) (head : Token)
    {tokens : List Token} {relation : Token} (after : List Token)
    (hcount : tokens.length = i.arity) (hrelation : relation.text = i.mnemonic)
    (hwords : ofWords i tokens = .ok (.instruction i operands)) :
    read order head .comparison (tokens ++ relation :: after) = .ok (.instruction i operands) := by
  have hcomparison : comparison? relation = some i := by
    rw [comparison?, hrelation, i.ofMnemonic?_mnemonic]
    exact if_pos hcompare
  rw [Instruction.arity_of_isComparison hcompare] at hcount
  obtain ⟨first, second, rfl⟩ := List.length_eq_two.mp hcount
  simp only [List.cons_append, List.nil_append, read, hcomparison, hwords]

/-- Any other instruction is read from its operands alone, in the order in which it takes them. -/
theorem read_keyword (hcompare : ¬ i.isComparison) (head : Token) {tokens : List Token}
    (after : List Token) (hcount : tokens.length = i.arity)
    (hwords : ofWords i tokens = .ok (.instruction i operands)) :
    read .sourceFirst head i.keyword (tokens ++ after) = .ok (.instruction i operands) ∧
      i.keyword.words = tokens.length := by
  rcases Instruction.keyword_cases hcompare with ⟨hkind, hpair⟩ | ⟨hkind, rfl, htriple⟩ |
    ⟨hkind, htriple⟩
  · rw [hpair] at hcount
    obtain ⟨first, second, rfl⟩ := List.length_eq_two.mp hcount
    rw [hkind]
    refine ⟨?_, rfl⟩
    simp only [List.cons_append, List.nil_append, read, hwords]
  all_goals
    rw [htriple] at hcount
    obtain ⟨first, second, third, rfl⟩ := List.length_eq_three.mp hcount
    rw [hkind]
    refine ⟨?_, rfl⟩
    simp only [List.cons_append, List.nil_append, read, hwords]

/-- The words of an instruction with its operands read back. -/
theorem firstStatement_instruction (h : (instruction i operands).IsPrintable) {head : Token}
    {rest : List Token} {more : List String}
    (htexts : (head :: rest).map Token.text = (instruction i operands).words ++ more) :
    ∃ taken, firstStatement .sourceFirst head rest = .ok (.instruction i operands, taken) ∧
      (rest.drop taken).map Token.text = more := by
  obtain ⟨harity, hoperands⟩ := h
  have hlength {tokens : List Token} (htokens : tokens.map Token.text = operands.map Operand.text) :
      tokens.length = i.arity := by
    rw [← List.length_map Token.text, htokens, List.length_map, harity]
  by_cases hcompare : i.isComparison
  · rw [words, if_pos hcompare, List.map_cons, List.cons_append, List.cons.injEq,
      List.append_assoc, List.map_eq_append_iff] at htexts
    obtain ⟨hhead, tokens, others, rfl, htokens, hothers⟩ := htexts
    obtain ⟨relation, after, rfl, hrelation, rfl⟩ := List.map_eq_cons_iff.mp hothers
    have hkeyword : Keyword.ofText? head.text = some .comparison := by
      rw [hhead]
      rfl
    have hread := read_comparison hcompare .sourceFirst head after (hlength htokens) hrelation
      (ofWords_eq_ok i htokens hoperands)
    have hcount : tokens.length = 2 := by
      rw [hlength htokens, Instruction.arity_of_isComparison hcompare]
    refine ⟨3, ?_, ?_⟩
    · simp only [firstStatement, hkeyword, hread]
      rfl
    · rw [← List.singleton_append, ← List.append_assoc, List.drop_left' (by simp [hcount])]
  · rw [words, if_neg hcompare, List.map_cons, List.cons_append, List.cons.injEq,
      List.map_eq_append_iff] at htexts
    obtain ⟨hhead, tokens, after, rfl, htokens, rfl⟩ := htexts
    have hkeyword : Keyword.ofText? head.text = some i.keyword := by
      rw [hhead, Instruction.ofText?_word hcompare]
    obtain ⟨hread, hcount⟩ := read_keyword hcompare head after (hlength htokens)
      (ofWords_eq_ok i htokens hoperands)
    refine ⟨tokens.length, ?_, by rw [List.drop_left]⟩
    simp only [firstStatement, hkeyword, hread, hcount]
    rfl

/-- A statement is read back from its words, whatever follows them, except that a label for the next
instruction must not be followed by one for the previous. -/
theorem firstStatement_words {statement : Statement} (h : statement.IsPrintable) {head : Token}
    {rest : List Token} {more : List String}
    (htexts : (head :: rest).map Token.text = statement.words ++ more)
    (hmore : ∀ label, statement = .bindNext label → more.head? ≠ some "l'") :
    ∃ taken, firstStatement .sourceFirst head rest = .ok (statement, taken) ∧
      (rest.drop taken).map Token.text = more := by
  cases statement with
  | instruction i operands => exact firstStatement_instruction h htexts
  | order order => exact absurd h id
  | bindNext label =>
      obtain ⟨name, after, rfl, hname, rfl⟩ := List.map_eq_cons_iff.mp (List.cons.inj htexts).2
      have hkeyword : Keyword.ofText? head.text = some .bindNext := by
        rw [(List.cons.inj htexts).1]
        rfl
      have hnext : ¬ after.head?.map Token.text = some "l'" := by
        rw [← List.head?_map]
        exact hmore label rfl
      refine ⟨1, ?_, rfl⟩
      simp only [firstStatement, hkeyword, read, if_neg hnext, hname]
      rfl
  | _ =>
      obtain ⟨name, after, rfl, hname, rfl⟩ := List.map_eq_cons_iff.mp (List.cons.inj htexts).2
      refine ⟨1, ?_, rfl⟩
      rw [firstStatement, (List.cons.inj htexts).1, ← hname]
      rfl

end Statement

end Source

end Cpu32
