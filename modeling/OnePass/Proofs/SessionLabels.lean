import Mathlib
import OnePass.Proofs.StackHeights

/-! Labels over a session with continuous numbers. Whether a compile succeeds or fails, it tells of
each label that it takes, and the next compile begins behind the last of them. So the labels of
different outputs are apart. -/
namespace OnePass

def Event.label? : Event → Option Label
  | allocated label => some label
  | _ => none

namespace Compilation

/-- The labels that a compilation has told of. -/
def State.allocated (s : State) : List Label := s.events.toList.filterMap Event.label?

/-- All labels from a first number on have been told of. -/
def State.Tallied (first : Nat) (s : State) : Prop := s.labels.next = first + s.allocated.length

theorem State.Tallied.push {first : Nat} {s : State} (tallied : s.Tallied first) (event : Event)
    (labels : LabelSupply) (taken : labels.next = s.labels.next + event.label?.toList.length) :
    ({ s with labels, events := s.events.push event } : State).Tallied first := by
  have counted : s.labels.next = first + s.allocated.length := tallied
  unfold Tallied allocated at *
  rw [Array.toList_push, List.filterMap_append, List.length_append]
  cases told : event.label? with
  | none => simp_all
  | some label =>
    simp_all
    omega

variable {α : Type} {step : Compilation α} {s middle : State} {fault : Diagnostic} {value : α}
  {first : Nat}

theorem leaves_bind_of_ok {β : Type} {next : α → Compilation β} (done : step s = .ok value middle) :
    leaves (step >>= next) s = leaves (next value) middle := by
  unfold leaves
  rw [bind_of_ok done]

theorem leaves_bind_of_error {β : Type} {next : α → Compilation β}
    (failed : step s = .error fault middle) : leaves (step >>= next) s = middle := by
  unfold leaves
  rw [bind_of_error failed]

theorem Script.tallied {task : Task} {i : Input} {passes ahead : Bool} {names : List String}
    {step : Compilation (List Task)} (script : Script task i passes ahead names step)
    (tallied : s.Tallied first) : (leaves step s).Tallied first := by
  induction script generalizing s with
  | give => exact tallied
  | refuse => exact tallied
  | advance script ih =>
    rcases delivered : s.source.next with ⟨cause | token, source⟩
    · have failed : Compilation.advance s = .error cause { s with source } := by
        unfold Compilation.advance
        rw [delivered]
      rw [leaves_bind_of_error failed]
      exact tallied
    · have moved : s.input.Moves ⟨token, source⟩ := delivered
      rw [leaves_bind_of_ok (advance_of_moves moved)]
      exact ih tallied
  | emit instruction script ih => exact ih (s := { s with code := s.code.push instruction }) tallied
  | fresh script ih => exact ih _ (tallied.push (.allocated s.labels.first) (s.labels.after 1) rfl)
  | leave script ih => exact ih (s := { s with depth := s.depth - 1 }) tallied
  | declare entry line blames script ih =>
    -- the event of a declaration is told, but is not one of a label
    by_cases present : entry.name ∈ s.symbols.names
    · rw [leaves_bind_of_error (declare_of_known present)]
      exact tallied
    · rw [leaves_bind_of_ok (declare_of_unknown present)]
      exact ih (tallied.push (.declared entry.name entry.type line) s.labels rfl)
  | pushName name line blames script ih =>
    by_cases present : name ∈ s.symbols.names
    · rw [leaves_bind_of_ok (pushName_of_known line present)]
      exact ih tallied
    · rw [leaves_bind_of_error (pushName_of_unknown line present)]
      exact tallied

theorem perform_tallied (task : Task) (tallied : s.Tallied first) :
    (leaves task.perform s).Tallied first := by
  obtain ⟨passes, step, acts, same⟩ := task.perform_acts s.input
  have stepped : leaves task.perform s = leaves step s := by
    unfold leaves
    rw [same s (.inl (.refl _))]
  rw [stepped]
  cases acts with
  | script script => exact script.tallied tallied
  | unexpected expected => exact tallied
  | enter expands blames =>
    by_cases room : s.depth < maxNesting
    · rw [leaves_bind_of_ok (enter_of_room room)]
      exact tallied
    · rw [leaves_bind_of_error (enter_of_full room)]
      exact tallied

theorem leaves_of_ok (done : step s = .ok value middle) : leaves step s = middle := by
  unfold leaves
  rw [done]

theorem leaves_of_error (failed : step s = .error fault middle) : leaves step s = middle := by
  unfold leaves
  rw [failed]

theorem run_tallied (tasks : List Task) (tallied : s.Tallied first) :
    (leaves (run tasks) s).Tallied first := by
  simp only [leaves]
  fun_induction run tasks s with
  | case1 s => exact tallied
  | case2 s task rest parts after performed ih =>
    exact ih (leaves_of_ok performed ▸ perform_tallied task tallied)
  | case3 s task rest fault after performed =>
    have stopped : after.Tallied first := leaves_of_error performed ▸ perform_tallied task tallied
    exact stopped

theorem program_tallied (halting : Bool) (tallied : s.Tallied first) :
    (leaves (program halting) s).Tallied first :=
  run_tallied (Task.program halting) tallied

end Compilation

/-- The labels that a compile has told of. -/
def Attempt.allocated (attempt : Attempt) : List Label := attempt.events.filterMap Event.label?

/-- The code that came of a compile, which is none if it failed. -/
def Attempt.code (attempt : Attempt) : List Instruction :=
  match attempt.outcome with
  | .ok compiled => compiled.code.toList
  | .error _ => []

namespace Session

/-- One compile after the other, whether they succeed or not, and the session behind them. -/
def compileAll : Session → List Source → List Attempt × Session
  | session, [] => ([], session)
  | session, source :: rest =>
    let (attempt, after) := session.compile source
    let (attempts, last) := after.compileAll rest
    (attempt :: attempts, last)

/-- The labels defined in the code of compiles. -/
def definedIn (attempts : List Attempt) : List Label :=
  attempts.flatMap fun attempt => definedLabels attempt.code

/-- Compiles take the labels from the next number of the session on, and leave the next behind them.
Those that are defined are among them, each once. -/
structure Numbers (session : Session) (attempts : List Attempt) (after : Session) : Prop where
  options : after.options = session.options
  counted : after.nextLabel =
    session.nextLabel + (attempts.map fun attempt => attempt.allocated.length).sum
  defined : ∀ label ∈ definedIn attempts, label.stem = session.options.stem ∧
    session.nextLabel ≤ label.number ∧ label.number < after.nextLabel
  once : (definedIn attempts).Nodup

theorem Numbers.trans {session middle after : Session} {attempts more : List Attempt}
    (first : session.Numbers attempts middle) (second : middle.Numbers more after) :
    session.Numbers (attempts ++ more) after := by
  have counted := first.counted
  have countedMore := second.counted
  have whole : definedIn (attempts ++ more) = definedIn attempts ++ definedIn more :=
    List.flatMap_append
  refine ⟨second.options.trans first.options, ?_, ?_, ?_⟩
  · rw [List.map_append, List.sum_append]
    omega
  · rw [whole]
    intro label member
    rcases List.mem_append.mp member with early | late
    · obtain ⟨stem, least, most⟩ := first.defined label early
      exact ⟨stem, least, by omega⟩
    · obtain ⟨stem, least, most⟩ := second.defined label late
      exact ⟨stem.trans (congrArg Options.stem first.options), by omega, most⟩
  · rw [whole]
    refine List.nodup_append.mpr ⟨first.once, second.once, fun one early other late same => ?_⟩
    have below := (first.defined one early).2.2
    have above := (second.defined other late).2.1
    rw [same] at below
    omega

variable {session : Session} {source : Source} {input : Input} {fault : Diagnostic}
  {final : Compilation.State}

theorem compile_eq_of_ok (opens : Input.Opens source input)
    (done : Compilation.program session.options.halting (.opening session.labels input) =
      .ok () final) :
    ∃ instructions symbols labels, session.compile source =
      (⟨.ok ⟨final.code, final.symbols⟩,
        final.events.toList ++ [.finished instructions symbols labels]⟩,
        session.used final.labels.next) := by
  have started := Compilation.start_of_opens opens session.labels
  unfold Session.labels at started done
  unfold Session.compile
  simp only [started, done]
  exact ⟨_, _, _, rfl⟩

theorem compile_eq_of_error (opens : Input.Opens source input)
    (failed : Compilation.program session.options.halting (.opening session.labels input) =
      .error fault final) :
    session.compile source =
      (⟨.error fault, final.events.toList⟩, session.used final.labels.next) := by
  have started := Compilation.start_of_opens opens session.labels
  unfold Session.labels at started failed
  unfold Session.compile
  simp only [started, failed]

theorem tallied_opening (session : Session) (input : Input) :
    (Compilation.State.opening session.labels input).Tallied session.firstLabel := rfl

theorem numbers_compile (continuous : session.options.numbering = .continuous) (source : Source) :
    session.Numbers [(session.compile source).1] (session.compile source).2 := by
  have first : session.firstLabel = session.nextLabel := by
    unfold firstLabel
    rw [continuous]
  have used (next : Nat) : session.used next = { session with nextLabel := next } := by
    unfold Session.used
    rw [continuous]
  rcases delivered : source.next with ⟨cause | token, rest⟩
  · have stopped : session.compile source =
        (⟨.error cause, []⟩, session.used session.firstLabel) := by
      simp [Session.compile, Compilation.start, delivered]
    rw [stopped, used, first]
    exact ⟨rfl, rfl, List.forall_mem_nil _, List.nodup_nil⟩
  · have opens : Input.Opens source ⟨token, rest⟩ := delivered
    have tallied := Compilation.program_tallied session.options.halting
      (session.tallied_opening ⟨token, rest⟩)
    cases done : Compilation.program session.options.halting
        (.opening session.labels ⟨token, rest⟩) with
    | ok value final =>
      obtain ⟨instructions, symbols, labels, compiled⟩ := compile_eq_of_ok opens done
      rw [Compilation.leaves_of_ok done, Compilation.State.Tallied, first] at tallied
      have paid := Compilation.program_pays .definition done
      have same : definedIn [(session.compile source).1] = definedLabels final.code.toList := by
        rw [compiled]
        exact List.append_nil _
      rw [compiled, used] at same ⊢
      refine ⟨rfl, ?_, fun label member => ?_, ?_⟩
      · rw [List.map_singleton, List.sum_singleton, Attempt.allocated, List.filterMap_append,
          List.length_append]
        exact tallied
      · rw [same] at member
        have issued := Compilation.issues_of_mem rfl paid member
        rwa [← first]
      · rw [same]
        exact (Compilation.nodup_texts rfl paid).of_map
    | error fault final =>
      rw [Compilation.leaves_of_error done, Compilation.State.Tallied, first] at tallied
      rw [compile_eq_of_error opens done, used]
      exact ⟨rfl, tallied, List.forall_mem_nil _, List.nodup_nil⟩

theorem numbers_compileAll (continuous : session.options.numbering = .continuous)
    (sources : List Source) :
    session.Numbers (session.compileAll sources).1 (session.compileAll sources).2 := by
  induction sources generalizing session with
  | nil => exact ⟨rfl, rfl, List.forall_mem_nil _, List.nodup_nil⟩
  | cons source rest ih =>
    have here := numbers_compile continuous source
    have there : (session.compile source).2.Numbers _ _ := ih (here.options ▸ continuous)
    exact here.trans there

theorem target_defined_all (sources : List Source) : ∀ attempt ∈ (session.compileAll sources).1,
    ∀ target ∈ jumpTargets attempt.code, target ∈ definedLabels attempt.code := by
  induction sources generalizing session with
  | nil => exact List.forall_mem_nil _
  | cons source rest ih =>
    refine List.forall_mem_cons.mpr ⟨fun target jumped => ?_, ih⟩
    unfold Attempt.code at jumped ⊢
    split at jumped
    · rename_i compiled accepted
      exact Session.target_defined accepted jumped
    · cases jumped

/-- Over a session with continuous numbers, in which compiles succeed and fail in any order, no two
labels defined in the outputs have the same text, each jump of an output goes to a label of the same
output, and the numbers used up are as many as the labels that all compiles took. -/
theorem labels_apart (session : Session) (continuous : session.options.numbering = .continuous)
    (sources : List Source) :
    ((definedIn (session.compileAll sources).1).map Label.text).Nodup ∧
      (∀ attempt ∈ (session.compileAll sources).1, ∀ target ∈ jumpTargets attempt.code,
        target ∈ definedLabels attempt.code) ∧
      (session.compileAll sources).2.nextLabel = session.nextLabel +
        ((session.compileAll sources).1.map fun attempt => attempt.allocated.length).sum := by
  have numbers := numbers_compileAll continuous sources
  refine ⟨?_, session.target_defined_all sources, numbers.counted⟩
  refine numbers.once.map_on fun one first other second text => ?_
  have stem := (numbers.defined one first).1.trans (numbers.defined other second).1.symm
  exact Label.eq_of_text stem text

/-- A session with continuous numbers, for a loop with a branch in it, a loop that breaks off behind
its first label, and a branch alone. -/
def numbered : Session := { options := { stem := "L", numbering := .continuous } }

def mixedSources : List Source :=
  [.ofTokens Program.countdown.tokens, .ofTokens Compilation.interrupted,
    .ofTokens (Compilation.interrupted.drop 5)]

theorem labels_apart_mixed :
    (numbered.compileAll mixedSources).1.map (fun attempt => attempt.allocated.length) = [4, 1, 1] ∧
    (numbered.compileAll mixedSources).1.map
      (fun attempt => (definedLabels attempt.code).map Label.text) =
        [["L0", "L2", "L3", "L1"], [], ["L5"]] ∧
    ((definedIn (numbered.compileAll mixedSources).1).map Label.text).Nodup ∧
    (numbered.compileAll mixedSources).2.nextLabel = 6 := by
  have taken : (numbered.compileAll mixedSources).1.map (fun attempt => attempt.allocated.length) =
      [4, 1, 1] := by cbv
  have texts : (numbered.compileAll mixedSources).1.map
      (fun attempt => (definedLabels attempt.code).map Label.text) =
        [["L0", "L2", "L3", "L1"], [], ["L5"]] := by cbv
  obtain ⟨apart, _, counted⟩ := labels_apart numbered rfl mixedSources
  rw [taken] at counted
  exact ⟨taken, texts, apart, counted⟩

end Session

end OnePass
