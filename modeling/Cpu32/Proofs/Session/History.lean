import Cpu32.Proofs.Session.Calls
import Cpu32.Proofs.Source.Reading

/-!
# Histories of build sessions

A session is built by calls, some of which fail.  Its history lists what was carried out: files that
were begun, and statements that succeeded, those of source files among them.  Each entry of a
history is one step of a small transition relation, over which invariants of sessions are proved.
-/

namespace Cpu32

open Source (Order Statement Token)

/-- One call on a session. -/
inductive Edit
  | append (instruction : Instruction) (operands : List Operand)
  | appendComparison (a b : Operand) (relation : Instruction)
  | appendComplement (operand : Operand)
  | bindNext (name : String)
  | bindPrevious (name : String)
  | beginFile
  | addExport (name : String)
  | addImport (name : String)
  | feed (source : String)
deriving DecidableEq, Repr

inductive Edit.Failure
  | refused (cause : AssemblyError)
  | unread (cause : Source.Error)
deriving DecidableEq, Repr

/-- Makes a call. -/
def Edit.perform : Edit → EStateM Edit.Failure Session Unit
  | .append instruction operands =>
      EStateM.adaptExcept .refused (Session.append instruction operands)
  | .appendComparison a b relation =>
      EStateM.adaptExcept .refused (Session.appendComparison a b relation)
  | .appendComplement operand => EStateM.adaptExcept .refused (Session.appendComplement operand)
  | .bindNext name => EStateM.adaptExcept .refused (Session.bindNext name)
  | .bindPrevious name => EStateM.adaptExcept .refused (Session.bindPrevious name)
  | .beginFile => modify Session.beginFile
  | .addExport name => modify fun s => s.addExport name
  | .addImport name => modify fun s => s.addImport name
  | .feed source => EStateM.adaptExcept .unread (Session.feed source)

/-- An entry of the history of a session. -/
inductive Event
  | began
  | built (statement : Statement)
deriving DecidableEq, Repr

namespace Event

def instruction? : Event → Option (Instruction × List Operand)
  | .built (.instruction instruction operands) => some (instruction, operands)
  | _ => none

/-- The instructions of a history with their operands, in order. -/
def instructions (events : List Event) : List (Instruction × List Operand) :=
  events.filterMap instruction?

/-- The number of instructions since a file was last begun. -/
def inFile (events : List Event) : Nat :=
  events.foldl (fun n event =>
    match event with
    | .began => 0
    | .built (.instruction ..) => n + 1
    | .built _ => n) 0

end Event

/-- The statements of a list of words that are carried out before one fails. -/
def Source.carriedOut (order : Order) (words : List Token) (s : Session) : List Statement :=
  match words with
  | [] => []
  | head :: rest =>
      match firstStatement order head rest with
      | .error _ => []
      | .ok (statement, taken) =>
          match s.apply statement with
          | .error _ _ => []
          | .ok _ t => statement :: carriedOut (statement.orderAfter order) (rest.drop taken) t
termination_by words.length
decreasing_by
  simp only [List.length_drop, List.length_cons]
  omega

namespace Session

variable (s : Session)

/-- The statement as an entry of the history, if it succeeds. -/
def accepted (statement : Statement) : List Event :=
  match s.apply statement with
  | .ok _ _ => [.built statement]
  | .error _ _ => []

/-- What a call adds to the history. -/
def events : Edit → List Event
  | .append instruction operands => s.accepted (.instruction instruction operands)
  | .appendComparison a b relation =>
      if relation.isComparison then s.accepted (.instruction relation [a, b]) else []
  | .appendComplement operand =>
      s.accepted (.instruction .dal [{ shape := .immediate 0 }, operand])
  | .bindNext name => s.accepted (.bindNext name)
  | .bindPrevious name => s.accepted (.bindPrevious name)
  | .beginFile => [.began]
  | .addExport name => s.accepted (.exporting name)
  | .addImport name => s.accepted (.importing name)
  | .feed source =>
      match Source.tokenize source with
      | .error _ => []
      | .ok words =>
          .began :: (Source.carriedOut .sourceFirst words s.beginFile).map .built

/-- The session after some calls, whether they fail or not. -/
def after : Session → List Edit → Session
  | s, [] => s
  | s, edit :: rest => (stateAfter edit.perform s).after rest

/-- The history of some calls. -/
def history : Session → List Edit → List Event
  | _, [] => []
  | s, edit :: rest => s.events edit ++ (stateAfter edit.perform s).history rest

/-- One entry of a history, as a step from session to session. -/
inductive Step : Session → Event → Session → Prop
  | began (s : Session) : Step s .began s.beginFile
  | instruction {s : Session} {instruction : Instruction} {operands : List Operand} {code : Code}
      (hcode : assemble instruction operands = .ok code) :
      Step s (.built (.instruction instruction operands)) (s.push code)
  | bindNext {s : Session} {name : String} (hfree : s.labels.find? name = none) :
      Step s (.built (.bindNext name)) (s.withLabel name s.offset)
  | bindPrevious {s : Session} {name : String} {code : Code} (hcode : s.previous? = some code)
      (hfree : s.labels.find? name = none) :
      Step s (.built (.bindPrevious name)) (s.withLabel name (s.offset - UInt32.ofNat code.size))
  | exporting (s : Session) (name : String) : Step s (.built (.exporting name)) (s.addExport name)
  | importing (s : Session) (name : String) : Step s (.built (.importing name)) (s.addImport name)
  | order (s : Session) (order : Order) : Step s (.built (.order order)) s

/-- A session reached from another by the entries of a history, one step for each. -/
inductive Builds (s : Session) : List Event → Session → Prop
  | start : Builds s [] s
  | step {events : List Event} {event : Event} {t u : Session} (hbuilds : Builds s events t)
      (hstep : Step t event u) : Builds s (events ++ [event]) u

/-- A statement succeeds exactly when it is a step. -/
theorem apply_eq_ok_iff (statement : Statement) (t : Session) :
    s.apply statement = .ok () t ↔ Step s (.built statement) t := by
  cases statement with
  | instruction instruction operands =>
      rw [apply, append_eq_ok_iff]
      constructor
      · rintro ⟨code, hcode, rfl⟩
        exact .instruction hcode
      · rintro ⟨⟩
        exact ⟨_, by assumption, rfl⟩
  | bindNext name =>
      rw [apply, bindNext_eq_ok_iff]
      constructor
      · rintro ⟨hfree, rfl⟩
        exact .bindNext hfree
      · rintro ⟨⟩
        exact ⟨by assumption, rfl⟩
  | bindPrevious name =>
      rw [apply, bindPrevious_eq_ok_iff]
      constructor
      · rintro ⟨code, hcode, hfree, rfl⟩
        exact .bindPrevious hcode hfree
      · rintro ⟨⟩
        exact ⟨_, by assumption, by assumption, rfl⟩
  | exporting name =>
      constructor
      · rintro ⟨⟩
        exact .exporting s name
      · rintro ⟨⟩
        rfl
  | importing name =>
      constructor
      · rintro ⟨⟩
        exact .importing s name
      · rintro ⟨⟩
        rfl
  | order order =>
      constructor
      · rintro ⟨⟩
        exact .order s order
      · rintro ⟨⟩
        rfl

namespace Builds

variable {s t u : Session} {first second : List Event}

theorem single {event : Event} (h : Step s event t) : Builds s [event] t :=
  .step .start h

theorem trans (hfirst : Builds s first t) (hsecond : Builds t second u) :
    Builds s (first ++ second) u := by
  induction hsecond with
  | start =>
      rw [List.append_nil]
      exact hfirst
  | step _ hstep ih =>
      rw [← List.append_assoc]
      exact .step ih hstep

end Builds

/-- A statement that fails has changed nothing, and so it leaves no trace in the history. -/
theorem builds_accepted (statement : Statement) :
    Builds s (s.accepted statement) (stateAfter (apply statement) s) := by
  rw [accepted]
  cases h : s.apply statement with
  | ok _ t =>
      rw [stateAfter_of_ok h]
      exact .single ((s.apply_eq_ok_iff statement t).mp h)
  | error cause t =>
      rw [stateAfter_of_error h, isAtomic_apply statement s cause t h]
      exact .start

/-- What reading a list of words does is what its history says, also when it fails halfway. -/
theorem builds_carriedOut (order : Order) (words : List Token) :
    Builds s ((Source.carriedOut order words s).map .built)
      (stateAfter (Source.buildFrom order words) s) := by
  fun_induction Source.carriedOut order words s with
  | case1 order s =>
      rw [stateAfter_of_ok (Source.buildFrom_nil order s)]
      exact .start
  | case2 order s head rest cause hread =>
      rw [stateAfter_of_error (Source.buildFrom_of_unread hread s)]
      exact .start
  | case3 order s head rest statement taken hread cause t happly =>
      rw [stateAfter_of_error (Source.buildFrom_of_refused hread happly),
        isAtomic_apply statement s cause t happly]
      exact .start
  | case4 order s head rest statement taken hread _ t happly ih =>
      have hstep := (s.apply_eq_ok_iff statement t).mp happly
      rw [stateAfter, Source.buildFrom_of_applied hread happly]
      exact (Builds.single hstep).trans ih

theorem builds_events (edit : Edit) :
    Builds s (s.events edit) (stateAfter edit.perform s) := by
  cases edit with
  | append instruction operands =>
      rw [Edit.perform, stateAfter_adaptExcept]
      exact s.builds_accepted (.instruction instruction operands)
  | appendComparison a b relation =>
      rw [Edit.perform, stateAfter_adaptExcept, appendComparison, events]
      split
      · exact s.builds_accepted (.instruction relation [a, b])
      · exact .start
  | appendComplement operand =>
      rw [Edit.perform, stateAfter_adaptExcept]
      exact s.builds_accepted (.instruction .dal [{ shape := .immediate 0 }, operand])
  | bindNext name =>
      rw [Edit.perform, stateAfter_adaptExcept]
      exact s.builds_accepted (.bindNext name)
  | bindPrevious name =>
      rw [Edit.perform, stateAfter_adaptExcept]
      exact s.builds_accepted (.bindPrevious name)
  | beginFile => exact .single (.began s)
  | addExport name => exact .single (.exporting s name)
  | addImport name => exact .single (.importing s name)
  | feed source =>
      rw [Edit.perform, stateAfter_adaptExcept, feed, events]
      cases Source.tokenize source with
      | error error => exact .start
      | ok words => exact (Builds.single (.began s)).trans (builds_carriedOut _ .sourceFirst words)

theorem builds_history (edits : List Edit) : Builds s (s.history edits) (s.after edits) := by
  induction edits generalizing s with
  | nil => exact .start
  | cons edit rest ih => exact (s.builds_events edit).trans (ih _)

end Session

end Cpu32
