import Cpu32.Proofs.Session.Boundary
import Cpu32.Proofs.Source.Joined
import Cpu32.Proofs.Source.Reading

/-!
# Concatenated files

Files that are read one after the other build what a single file builds that holds them all, with
the word for sources first on a line between them.  That word ends the order of the file before it,
and no statement reaches over it: a label for the previous instruction that a file binds is bound
within the file, although in the single file there is more code before.
-/

namespace Cpu32

open Source (CarriesOut Order Statement Token)

namespace Session

variable {s t : Session}

theorem Step.fileStart_eq {statement : Statement} (h : Step s (.built statement) t) :
    t.fileStart = s.fileStart := by
  cases h <;> rfl

/-- A step that is taken in a file is taken if the file began earlier. -/
theorem Step.withFileStart {statement : Statement} (h : Step s (.built statement) t) {n : Nat}
    (hn : n ≤ s.fileStart) :
    Step { s with fileStart := n } (.built statement) { t with fileStart := n } := by
  cases h with
  | instruction hcode => exact .instruction hcode
  | bindNext hfree => exact .bindNext hfree
  | bindPrevious hcode hfree =>
      refine .bindPrevious ?_ hfree
      rw [previous?] at hcode ⊢
      split at hcode
      · rename_i hlt
        rw [if_pos (Nat.lt_of_le_of_lt hn hlt)]
        exact hcode
      · cases hcode
  | exporting name => exact .exporting _ name
  | importing name => exact .importing _ name
  | order order => exact .order _ order

end Session

namespace Source.CarriesOut

variable {order : Order} {words : List Token} {s t : Session}

theorem grows (h : CarriesOut order words s t) :
    t.fileStart = s.fileStart ∧ s.code.size ≤ t.code.size := by
  induction h with
  | nil order s => exact ⟨rfl, Nat.le_refl _⟩
  | @cons order head rest statement taken s t u hread happly hrest ih =>
      have hstep := (s.apply_eq_ok_iff statement t).mp happly
      have hsize := hstep.grows.1.length_le
      rw [Array.length_toList, Array.length_toList] at hsize
      exact ⟨ih.1.trans hstep.fileStart_eq, Nat.le_trans hsize ih.2⟩

theorem withFileStart (h : CarriesOut order words s t) {n : Nat} (hn : n ≤ s.fileStart) :
    CarriesOut order words { s with fileStart := n } { t with fileStart := n } := by
  induction h with
  | nil order s => exact .nil order _
  | @cons order head rest statement taken s t u hread happly hrest ih =>
      have hstep := (s.apply_eq_ok_iff statement t).mp happly
      refine .cons hread ((Session.apply_eq_ok_iff _ _ _).mpr (hstep.withFileStart hn)) (ih ?_)
      rw [hstep.fileStart_eq]
      exact hn

end Source.CarriesOut

namespace Session

variable {s t u : Session}

theorem feed_eq_ok_iff (source : String) (s t : Session) :
    feed source s = .ok () t ↔
      ∃ words, Source.tokenize source = .ok words ∧
        CarriesOut .sourceFirst words s.beginFile t := by
  rw [feed]
  cases Source.tokenize source with
  | error error =>
      constructor
      · rintro ⟨⟩
      · rintro ⟨_, ⟨⟩, _⟩
  | ok words =>
      constructor
      · intro h
        exact ⟨words, rfl, (Source.buildFrom_eq_ok_iff ..).mp h⟩
      · rintro ⟨_, ⟨⟩, h⟩
        exact (Source.buildFrom_eq_ok_iff ..).mpr h

/-- The single file differs only in where the last file begins. -/
theorem feed_joined {first second : String} (hfirst : feed first s = .ok () t)
    (hsecond : feed second t = .ok () u) :
    feed (first ++ "\n'i'c\n" ++ second) s = .ok () { u with fileStart := s.code.size } := by
  obtain ⟨words, htokens, hbuilt⟩ := (feed_eq_ok_iff first s t).mp hfirst
  obtain ⟨words', htokens', hbuilt'⟩ := (feed_eq_ok_iff second t u).mp hsecond
  obtain ⟨start, k, hjoined⟩ := Source.tokenize_joined "'i'c" (by decide) htokens htokens'
  obtain ⟨hfile, hsize⟩ := hbuilt.grows
  -- The second file as part of a file that began where the first one did.
  have hopen : { t.beginFile with fileStart := s.code.size } = t := by
    rw [show s.code.size = t.fileStart from hfile.symm]
    rfl
  have hrest := hbuilt'.withFileStart (show s.code.size ≤ t.beginFile.fileStart from hsize)
  rw [hopen] at hrest
  have hread (order : Order) (rest : List Token) :
      Source.firstStatement order ⟨"'i'c", start⟩ rest = .ok (.order .sourceFirst, 0) := rfl
  have hmark : (⟨"'i'c", start⟩ :: words'.map (Token.down k)).head?.map Token.text ≠ some "l'" := by
    simp
  obtain ⟨last, hlast⟩ := hbuilt.append hmark
  have hline : "\n'i'c\n" = "\n" ++ "'i'c" ++ "\n" := by
    decide
  rw [feed_eq_ok_iff, hline, ← String.append_assoc, ← String.append_assoc]
  exact ⟨_, hjoined, hlast _ (.cons (hread _ _) rfl (hrest.map fun _ => rfl))⟩

/-- Two files that are read one after the other build what a single file builds in which the word
for sources first stands on a line between them. -/
theorem feed_concatenated (first second : String) (s t u : Session)
    (hfirst : feed first s = .ok () t) (hsecond : feed second t = .ok () u) :
    ∃ whole, feed (first ++ "\n'i'c\n" ++ second) s = .ok () whole ∧
      whole.base = u.base ∧ whole.code = u.code ∧ whole.offset = u.offset ∧
      whole.labels = u.labels ∧ whole.exports = u.exports ∧ whole.imports = u.imports ∧
      whole.finish = u.finish :=
  ⟨_, feed_joined hfirst hsecond, rfl, rfl, rfl, rfl, rfl, rfl, rfl⟩

/-- The first file ends within a comment while destinations are named first, and the second would be
refused in that order. -/
theorem feed_concatenated_comment :
    let first := "nll a krz 1 f0 'c'i ata f0 2 # f0 + @"
    let second := "krz 5 f1 l' b krz a xx kue b"
    ∃ t u whole, feed first {} = .ok () t ∧ feed second t = .ok () u ∧
      feed (first ++ "\n'i'c\n" ++ second) {} = .ok () whole ∧
      whole.labels.find? "b" = some 8 ∧ whole.finish = u.finish := by
  intro first second
  have hfirst : Succeeds (feed first) {} := by
    decide +kernel
  have hsecond : Succeeds (feed second) (stateAfter (feed first) {}) := by
    decide +kernel
  have hlabel : (stateAfter (feed second) (stateAfter (feed first) {})).labels.find? "b" =
      some 8 := by
    decide +kernel
  obtain ⟨_, t, ht⟩ := hfirst
  rw [stateAfter_of_ok ht] at hsecond hlabel
  obtain ⟨_, u, hu⟩ := hsecond
  rw [stateAfter_of_ok hu] at hlabel
  obtain ⟨whole, hwhole, _, _, _, hlabels, _, _, hfinish⟩ :=
    feed_concatenated first second {} t u ht hu
  refine ⟨t, u, whole, ht, hu, hwhole, ?_, hfinish⟩
  rw [hlabels]
  exact hlabel

end Session

end Cpu32
