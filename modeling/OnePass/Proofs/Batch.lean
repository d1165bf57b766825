import Mathlib
import OnePass.Command.Run
import OnePass.Proofs.SessionLabels
import OnePass.Proofs.Unambiguous

/-! Runs of the command over inputs: which units the session yields for them, and what becomes of
these on the disk and in front of the reader. -/
namespace OnePass

namespace Disk

variable {disk : Disk} {place other start : List String} {names : List String}
  {content : ByteArray} {path : String} {node : Node}

/-! A disk after a file was put there. -/

theorem node?_put_of_ne (apart : other ≠ place) :
    (disk.put place node).node? other = disk.node? other := by
  have skipped : (disk.put place node).nodes.find? (·.1 = other) =
      disk.nodes.find? (·.1 = other) := by
    rw [put, List.find?_cons_of_neg (by simpa using apart.symm), List.find?_filter]
    congr 1
    funext entry
    by_cases found : entry.1 = other <;> simp [found, apart]
  rw [node?, node?, skipped]

theorem node?_put_self (free : isGiven place = false) :
    (disk.put place node).node? place = some node := by
  simp [node?, free, put]

/-- A path leads to a file, or to a place where one can be made. -/
def Targets (disk : Disk) (start names : List String) (place : List String) : Prop :=
  disk.follow start names = .ok (.vacant place) ∨
    ∃ old, disk.follow start names = .ok (.file place old)

theorem isGiven_of_node? (other : disk.node? place ≠ some .directory) : isGiven place = false := by
  by_contra given
  rw [Bool.not_eq_false] at given
  exact other (by rw [node?, if_pos given])

theorem Targets.node? (targets : disk.Targets start names place) :
    disk.node? place ≠ some .directory := by
  unfold Targets at targets
  fun_induction follow disk start names with
  | case1 => simp at targets
  | case2 start rest ih => exact ih targets
  | case3 start rest ih => exact ih targets
  | case4 start name rest _ _ found ih => exact ih targets
  | case5 start name rest _ _ old found last =>
    simp only [reduceCtorEq, false_or, Except.ok.injEq, Destination.file.injEq] at targets
    obtain ⟨_, rfl, _⟩ := targets
    simp [found]
  | case6 => simp at targets
  | case7 start name rest _ _ found last =>
    simp only [Except.ok.injEq, Destination.vacant.injEq, reduceCtorEq, exists_false,
      or_false] at targets
    subst targets
    simp [found]
  | case8 => simp at targets

theorem Targets.follow_put (targets : disk.Targets start names place) (content : ByteArray) :
    (disk.put place (.file content)).follow start names = .ok (.file place content) := by
  have inner := targets.node?
  unfold Targets at targets
  fun_induction follow disk start names with
  | case1 => simp at targets
  | case2 start rest ih => exact ih targets
  | case3 start rest ih => exact ih targets
  | case4 start name rest _ _ found ih =>
    have apart : start ++ [name] ≠ place := by
      rintro rfl
      exact inner found
    rw [follow]
    · rw [node?_put_of_ne apart, found]
      exact ih targets
    all_goals assumption
  | case5 start name rest _ _ old found last =>
    simp only [reduceCtorEq, false_or, Except.ok.injEq, Destination.file.injEq] at targets
    obtain ⟨_, rfl, _⟩ := targets
    rw [follow]
    · rw [node?_put_self (isGiven_of_node? inner)]
      exact if_pos last
    all_goals assumption
  | case6 => simp at targets
  | case7 start name rest _ _ found last =>
    simp only [Except.ok.injEq, Destination.vacant.injEq, reduceCtorEq, exists_false,
      or_false] at targets
    subst targets
    rw [follow]
    · rw [node?_put_self (isGiven_of_node? inner)]
      exact if_pos last
    all_goals assumption
  | case8 => simp at targets

/-- A file is created or replaced: its path leads to the new content, and every place but the one
that the path led to has what it had. -/
structure Replaces (disk : Disk) (path : String) (content : ByteArray) (after : Disk) : Prop where
  holds : after.read path = .ok content
  elsewhere : ∃ place, (disk.resolve (.ofString path) = .ok (.vacant place) ∨
      ∃ old, disk.resolve (.ofString path) = .ok (.file place old)) ∧
    ∀ other, other ≠ place → after.node? other = disk.node? other

theorem replaces_put (targets : disk.resolve (.ofString path) = .ok (.vacant place) ∨
      ∃ old, disk.resolve (.ofString path) = .ok (.file place old))
    (plain : (Path.ofString path).trailing = false) (content : ByteArray) :
    disk.Replaces path content (disk.put place (.file content)) where
  holds := by
    have found : (disk.put place (.file content)).resolve (.ofString path) =
        .ok (.file place content) := Targets.follow_put targets content
    unfold read
    simp only [found, plain, Bool.false_eq_true, if_false]
  elsewhere := ⟨place, targets, fun _ apart => node?_put_of_ne apart⟩

theorem replaces_of_write {after : Disk} (written : disk.write path content = .ok after) :
    disk.Replaces path content after := by
  unfold write at written
  dsimp only at written
  split at written
  · cases written
  · cases written
  · rename_i place vacant
    split at written
    · cases written
    · rename_i plain
      obtain rfl := Except.ok.inj written
      exact replaces_put (.inl vacant) (by simpa using plain) content
  · rename_i place old known
    split at written
    · cases written
    · rename_i plain
      obtain rfl := Except.ok.inj written
      exact replaces_put (.inr ⟨old, known⟩) (by simpa using plain) content

end Disk

namespace Command

/-! How far a session comes over inputs. -/

/-- The failure of the input that a session comes to, or none behind the last. -/
inductive Stops (disk : Disk) (session : Session) : List String → Option Failure → Prop
  | finished : Stops disk session [] none
  | unreadable {input : String} {rest : List String} {fault : FileFault}
      (missed : disk.readText input = .error fault) :
      Stops disk session (input :: rest) (some (.unreadable input fault))
  | rejected {input text : String} {rest : List String} {fault : Diagnostic}
      (read : disk.readText input = .ok text)
      (refused : (session.compile (.ofText text)).1.outcome = .error fault) :
      Stops disk session (input :: rest) (some (.rejected input fault))

/-- The first inputs are read as these texts, a session compiles them one after the other to these
units, and the failure is that of the next input. -/
structure Completes (disk : Disk) (session : Session) (inputs texts : List String)
    (units : List Compiled) (failure : Option Failure) : Prop where
  read : (inputs.take texts.length).map disk.readText = texts.map .ok
  compiled : (session.compileAll (texts.map .ofText)).1.map (·.outcome) = units.map .ok
  stops : Stops disk (session.compileAll (texts.map .ofText)).2 (inputs.drop texts.length) failure

variable {disk : Disk} {session : Session} {input text : String} {inputs texts : List String}
  {units : List Compiled} {unit : Compiled} {failure : Option Failure} {invocation : Invocation}

theorem Stops.completes (stops : Stops disk session inputs failure) :
    Completes disk session inputs [] [] failure :=
  ⟨rfl, rfl, stops⟩

theorem Completes.cons (read : disk.readText input = .ok text)
    (compiled : (session.compile (.ofText text)).1.outcome = .ok unit)
    (completes : Completes disk (session.compile (.ofText text)).2 inputs texts units failure) :
    Completes disk session (input :: inputs) (text :: texts) (unit :: units) failure where
  read := congrArg₂ List.cons read completes.read
  compiled := congrArg₂ List.cons compiled completes.compiled
  stops := completes.stops

theorem Stops.unique {other : Option Failure} (first : Stops disk session inputs failure)
    (second : Stops disk session inputs other) : failure = other := by
  cases first with
  | finished =>
    cases second
    rfl
  | unreadable missed =>
    cases second with
    | unreadable again => rw [Except.error.inj (missed.symm.trans again)]
    | rejected read => cases missed.symm.trans read
  | rejected read refused =>
    cases second with
    | unreadable missed => cases missed.symm.trans read
    | rejected again other =>
      obtain rfl := Except.ok.inj (read.symm.trans again)
      rw [Except.error.inj (refused.symm.trans other)]

theorem Stops.not_compiled (stops : Stops disk session (input :: inputs) failure)
    (read : disk.readText input = .ok text) :
    (session.compile (.ofText text)).1.outcome ≠ .ok unit := by
  intro compiled
  cases stops with
  | unreadable missed => cases missed.symm.trans read
  | rejected again refused =>
    obtain rfl := Except.ok.inj (again.symm.trans read)
    cases refused.symm.trans compiled

theorem Completes.stopped (completes : Completes disk session inputs [] units failure) :
    units = [] ∧ Stops disk session inputs failure :=
  ⟨List.map_eq_nil_iff.mp completes.compiled.symm, completes.stops⟩

theorem Completes.uncons
    (completes : Completes disk session (input :: inputs) (text :: texts) units failure) :
    ∃ unit rest, units = unit :: rest ∧ disk.readText input = .ok text ∧
      (session.compile (.ofText text)).1.outcome = .ok unit ∧
      Completes disk (session.compile (.ofText text)).2 inputs texts rest failure := by
  obtain ⟨read, others⟩ := List.cons.inj completes.read
  obtain ⟨unit, rest, rfl, compiled, tail⟩ := List.map_eq_cons_iff.mp completes.compiled.symm
  exact ⟨unit, rest, rfl, read, compiled.symm, others, tail.symm, completes.stops⟩

/-- How far a session comes is determined. -/
theorem Completes.unique {others : List String} {further : List Compiled} {other : Option Failure}
    (first : Completes disk session inputs texts units failure)
    (second : Completes disk session inputs others further other) :
    texts = others ∧ units = further ∧ failure = other := by
  induction inputs generalizing session texts others units further with
  | nil =>
    obtain rfl : texts = [] := by simpa using first.read
    obtain rfl : others = [] := by simpa using second.read
    exact ⟨rfl, first.stopped.1.trans second.stopped.1.symm,
      first.stopped.2.unique second.stopped.2⟩
  | cons input inputs ih =>
    match texts, others with
    | [], [] =>
      exact ⟨rfl, first.stopped.1.trans second.stopped.1.symm,
        first.stopped.2.unique second.stopped.2⟩
    | [], text :: others =>
      obtain ⟨unit, _, _, read, compiled, _⟩ := second.uncons
      exact absurd compiled (first.stopped.2.not_compiled read)
    | text :: texts, [] =>
      obtain ⟨unit, _, _, read, compiled, _⟩ := first.uncons
      exact absurd compiled (second.stopped.2.not_compiled read)
    | text :: texts, text' :: others =>
      obtain ⟨unit, rest, rfl, read, compiled, tail⟩ := first.uncons
      obtain ⟨unit', rest', rfl, read', compiled', tail'⟩ := second.uncons
      obtain rfl := Except.ok.inj (read.symm.trans read')
      obtain rfl := Except.ok.inj (compiled.symm.trans compiled')
      obtain ⟨rfl, rfl, same⟩ := ih tail tail'
      exact ⟨rfl, rfl, same⟩

/-! What one step of the command does to a transcript. -/

/-- The lines of the events that an invocation shows. -/
def Invocation.shown (invocation : Invocation) (events : List Event) : List String :=
  (events.filter (·.isShown invocation.verbosity)).map Event.text

/-- The remarks about the declared names of units. -/
def Invocation.tables (invocation : Invocation) (units : List Compiled) : String :=
  if invocation.showSymbols then String.join (units.map (·.symbols.text)) else ""

/-- A transcript in which more has been printed, remarked and logged. -/
def Transcript.adding (transcript : Transcript) (printed remarks : String)
    (logged : List String) : Transcript where
  disk := transcript.disk
  printed := transcript.printed ++ printed
  remarks := transcript.remarks ++ remarks
  logged := transcript.logged ++ logged

variable {transcript : Transcript}

theorem Transcript.adding_adding {printed remarks more further : String}
    {logged later : List String} :
    (transcript.adding printed remarks logged).adding more further later =
      transcript.adding (printed ++ more) (remarks ++ further) (logged ++ later) := by
  simp [adding, String.append_assoc]

theorem Transcript.adding_nothing : transcript.adding "" "" [] = transcript := by
  simp [adding]

theorem bind_run {α β : Type} (first : StateM Transcript α) (next : α → StateM Transcript β) :
    (first >>= next) transcript = next (first transcript).1 (first transcript).2 := rfl

theorem pure_run {α : Type} (value : α) :
    (pure value : StateM Transcript α) transcript = (value, transcript) := rfl

theorem get_run : (get : StateM Transcript Transcript) transcript = (transcript, transcript) := rfl

theorem readText_run : (Console.readText input : StateM Transcript _) transcript =
    (transcript.disk.readText input, transcript) := rfl

theorem print_run : (Console.print text : StateM Transcript Unit) transcript =
    ((), transcript.adding text "" []) := by
  simp only [Transcript.adding, String.append_empty, List.append_nil]
  rfl

theorem remark_run : (Console.remark text : StateM Transcript Unit) transcript =
    ((), transcript.adding "" text []) := by
  simp only [Transcript.adding, String.append_empty, List.append_nil]
  rfl

theorem tell_run (event : Event) : (tell invocation event : StateM Transcript Unit) transcript =
    ((), transcript.adding "" "" (invocation.shown [event])) := by
  unfold tell Invocation.shown
  by_cases shown : event.isShown invocation.verbosity
  · simp only [shown, Transcript.adding, String.append_empty, List.filter_cons_of_pos,
      List.filter_nil, if_true]
    rfl
  · rw [if_neg shown, List.filter_cons_of_neg shown]
    exact congrArg (Prod.mk ()) Transcript.adding_nothing.symm

theorem Invocation.shown_append (events more : List Event) :
    invocation.shown (events ++ more) = invocation.shown events ++ invocation.shown more := by
  simp only [shown, List.filter_append, List.map_append]

theorem forM_tell_run (events : List Event) :
    (events.forM (tell invocation) : StateM Transcript Unit) transcript =
      ((), transcript.adding "" "" (invocation.shown events)) := by
  induction events generalizing transcript with
  | nil => exact congrArg (Prod.mk ()) Transcript.adding_nothing.symm
  | cons event rest ih =>
    rw [List.forM, bind_run, tell_run, ih, Transcript.adding_adding, ← Invocation.shown_append]
    rfl

theorem deliver_printed (printing : invocation.output = none) (code : Listing) :
    (deliver invocation code : StateM Transcript _) transcript =
      (.ok (), transcript.adding code.text "" []) := by
  simp only [deliver, printing, bind_run, print_run, pure_run]

theorem deliver_refused {output : String} {code : Listing} {fault : FileFault}
    (asked : invocation.output = some output)
    (refused : transcript.disk.write output code.text.toUTF8 = .error fault) :
    (deliver invocation code : StateM Transcript _) transcript =
      (.error (.uncreatable output fault), transcript) := by
  have answered : (Console.writeText output code.text : StateM Transcript _) transcript =
      (.error fault, transcript) := by
    simp only [Console.writeText, bind_run, get_run, refused]
    rfl
  simp only [deliver, asked, bind_run, answered, pure_run]

theorem deliver_written {output : String} {code : Listing} {after : Disk}
    (asked : invocation.output = some output)
    (written : transcript.disk.write output code.text.toUTF8 = .ok after) :
    (deliver invocation code : StateM Transcript _) transcript =
      (.ok (), ({ transcript with disk := after } : Transcript).adding "" ""
        (invocation.shown [.wrote output])) := by
  have answered : (Console.writeText output code.text : StateM Transcript _) transcript =
      (.ok (), { transcript with disk := after }) := by
    simp only [Console.writeText, bind_run, get_run, written]
    rfl
  simp only [deliver, asked, bind_run, answered, tell_run, pure_run]

theorem compileInput_of_unreadable {fault : FileFault}
    (missed : transcript.disk.readText input = .error fault) :
    (compileInput invocation session input : StateM Transcript _) transcript =
      (.error (.unreadable input fault), transcript) := by
  rw [compileInput, bind_run, readText_run, missed]
  rfl

theorem compileInput_of_rejected {fault : Diagnostic}
    (read : transcript.disk.readText input = .ok text)
    (refused : (session.compile (.ofText text)).1.outcome = .error fault) :
    (compileInput invocation session input : StateM Transcript _) transcript =
      (.error (.rejected input fault), transcript.adding "" ""
        (invocation.shown (session.compile (.ofText text)).1.events)) := by
  rw [compileInput, bind_run, readText_run, read]
  simp only [bind_run, forM_tell_run, refused, pure_run]

/-- What is told about an input that compiles. -/
def report (session : Session) (input text : String) (unit : Compiled) : List Event :=
  (session.compile (.ofText text)).1.events ++ [.compiled input unit.code.size]

theorem compileInput_of_compiled (read : transcript.disk.readText input = .ok text)
    (compiled : (session.compile (.ofText text)).1.outcome = .ok unit) :
    (compileInput invocation session input : StateM Transcript _) transcript =
      ((deliver invocation unit.code >>= fun outcome =>
        pure (outcome.map fun _ => (session.compile (.ofText text)).2)) : StateM Transcript _)
        (transcript.adding "" (invocation.tables [unit])
          (invocation.shown (report session input text unit))) := by
  rw [compileInput, bind_run, readText_run, read, report]
  dsimp only
  rw [bind_run, forM_tell_run, compiled]
  dsimp only
  rw [bind_run, tell_run, Transcript.adding_adding, ← Invocation.shown_append]
  by_cases shown : invocation.showSymbols
  · simp only [shown, if_true]
    rw [bind_run, remark_run, Transcript.adding_adding]
    simp only [Invocation.tables, shown, if_true, List.map_cons, List.map_nil, String.join_cons,
      String.join_nil, String.append_empty, String.empty_append, List.append_nil]
  · simp only [shown, Invocation.tables]
    rfl

theorem compileInput_of_printed (read : transcript.disk.readText input = .ok text)
    (compiled : (session.compile (.ofText text)).1.outcome = .ok unit)
    (printing : invocation.output = none) :
    (compileInput invocation session input : StateM Transcript _) transcript =
      (.ok (session.compile (.ofText text)).2, transcript.adding unit.code.text
        (invocation.tables [unit]) (invocation.shown (report session input text unit))) := by
  rw [compileInput_of_compiled read compiled, bind_run, deliver_printed printing, pure_run,
    Transcript.adding_adding, String.empty_append, String.append_empty, List.append_nil]
  rfl

theorem compileInput_of_refused {output : String} {fault : FileFault}
    (read : transcript.disk.readText input = .ok text)
    (compiled : (session.compile (.ofText text)).1.outcome = .ok unit)
    (writing : invocation.output = some output)
    (refused : transcript.disk.write output unit.code.text.toUTF8 = .error fault) :
    (compileInput invocation session input : StateM Transcript _) transcript =
      (.error (.uncreatable output fault), transcript.adding "" (invocation.tables [unit])
        (invocation.shown (report session input text unit))) := by
  rw [compileInput_of_compiled read compiled, bind_run, deliver_refused writing (by exact refused),
    pure_run]
  rfl

theorem compileInput_of_written {output : String} {after : Disk}
    (read : transcript.disk.readText input = .ok text)
    (compiled : (session.compile (.ofText text)).1.outcome = .ok unit)
    (writing : invocation.output = some output)
    (written : transcript.disk.write output unit.code.text.toUTF8 = .ok after) :
    (compileInput invocation session input : StateM Transcript _) transcript =
      (.ok (session.compile (.ofText text)).2,
        ({ transcript with disk := after } : Transcript).adding "" (invocation.tables [unit])
          (invocation.shown (report session input text unit ++ [.wrote output]))) := by
  rw [compileInput_of_compiled read compiled, bind_run, deliver_written writing (by exact written),
    pure_run, Invocation.shown_append]
  simp [Transcript.adding, Except.map]

/-! What the whole command does. -/

/-- What comes of compiled units and a failure, if there is one: what is printed, the disk, and the
failure that is told. Without an output path, the text of the units is printed. With one, the disk
changes only if the unit of the input is there. -/
inductive Delivers (disk : Disk) : Option String → List Compiled → Option Failure →
    String → Disk → Option Failure → Prop
  | printed (units : List Compiled) (failure : Option Failure) :
      Delivers disk none units failure (String.join (units.map (·.code.text))) disk failure
  | stopped (output : String) (failure : Failure) :
      Delivers disk (some output) [] (some failure) "" disk (some failure)
  | refused {output : String} {unit : Compiled} {fault : FileFault}
      (uncreatable : disk.write output unit.code.text.toUTF8 = .error fault) :
      Delivers disk (some output) [unit] none "" disk (some (.uncreatable output fault))
  | written {output : String} {unit : Compiled} {after : Disk}
      (created : disk.write output unit.code.text.toUTF8 = .ok after)
      (replaces : disk.Replaces output unit.code.text.toUTF8 after) :
      Delivers disk (some output) [unit] none "" after none

/-- The outcome of a command that ends with a failure, or with none. -/
def outcome : Option Failure → Except Failure Unit
  | none => .ok ()
  | some failure => .error failure

theorem Invocation.tables_nil : invocation.tables [] = "" := by
  simp [tables]

theorem Invocation.tables_cons : invocation.tables (unit :: units) =
    invocation.tables [unit] ++ invocation.tables units := by
  unfold tables
  split
  · simp
  · rfl

theorem compileInputs_of_error {failure : Failure} {after : Transcript}
    (failed : (compileInput invocation session input : StateM Transcript _) transcript =
      (.error failure, after)) (rest : List String) :
    (compileInputs invocation session (input :: rest) : StateM Transcript _) transcript =
      (.error failure, after) := by
  rw [compileInputs, bind_run, failed]
  rfl

theorem compileInputs_of_ok {next : Session} {after : Transcript}
    (done : (compileInput invocation session input : StateM Transcript _) transcript =
      (.ok next, after)) (rest : List String) :
    (compileInputs invocation session (input :: rest) : StateM Transcript _) transcript =
      (compileInputs invocation next rest : StateM Transcript _) after := by
  rw [compileInputs, bind_run, done]

theorem compileInputs_printing (printing : invocation.output = none) (session : Session)
    (inputs : List String) (transcript : Transcript) :
    ∃ texts units failure events, Completes transcript.disk session inputs texts units failure ∧
      (compileInputs invocation session inputs : StateM Transcript _) transcript =
        (outcome failure, transcript.adding (String.join (units.map (·.code.text)))
          (invocation.tables units) (invocation.shown events)) := by
  induction inputs generalizing session transcript with
  | nil =>
    refine ⟨[], [], none, [], Stops.finished.completes, ?_⟩
    rw [Invocation.tables_nil]
    exact congrArg (Prod.mk _) Transcript.adding_nothing.symm
  | cons input rest ih =>
    cases read : transcript.disk.readText input with
    | error fault =>
      refine ⟨[], [], some (.unreadable input fault), [], (Stops.unreadable read).completes, ?_⟩
      rw [compileInputs_of_error (compileInput_of_unreadable read), Invocation.tables_nil]
      exact congrArg (Prod.mk _) Transcript.adding_nothing.symm
    | ok text =>
      cases compiled : (session.compile (.ofText text)).1.outcome with
      | error fault =>
        refine ⟨[], [], some (.rejected input fault), (session.compile (.ofText text)).1.events,
          (Stops.rejected read compiled).completes, ?_⟩
        rw [compileInputs_of_error (compileInput_of_rejected read compiled), Invocation.tables_nil]
        rfl
      | ok unit =>
        obtain ⟨texts, units, failure, events, completes, others⟩ :=
          ih (session.compile (.ofText text)).2 (transcript.adding unit.code.text
            (invocation.tables [unit]) (invocation.shown (report session input text unit)))
        refine ⟨text :: texts, unit :: units, failure, report session input text unit ++ events,
          completes.cons read compiled, ?_⟩
        rw [compileInputs_of_ok (compileInput_of_printed read compiled printing), others,
          Transcript.adding_adding, Invocation.shown_append, ← Invocation.tables_cons,
          List.map_cons, String.join_cons]

theorem compileInputs_writing {output : String} (writing : invocation.output = some output)
    (session : Session) (input : String) (transcript : Transcript) :
    ∃ texts units failure after last events,
      Completes transcript.disk session [input] texts units failure ∧
      Delivers transcript.disk (some output) units failure "" after last ∧
      (compileInputs invocation session [input] : StateM Transcript _) transcript =
        (outcome last, ({ transcript with disk := after } : Transcript).adding ""
          (invocation.tables units) (invocation.shown events)) := by
  cases read : transcript.disk.readText input with
  | error fault =>
    refine ⟨[], [], _, transcript.disk, _, [], (Stops.unreadable read).completes,
      .stopped output _, ?_⟩
    rw [compileInputs_of_error (compileInput_of_unreadable read), Invocation.tables_nil]
    exact congrArg (Prod.mk _) Transcript.adding_nothing.symm
  | ok text =>
    cases compiled : (session.compile (.ofText text)).1.outcome with
    | error fault =>
      refine ⟨[], [], _, transcript.disk, _, (session.compile (.ofText text)).1.events,
        (Stops.rejected read compiled).completes, .stopped output _, ?_⟩
      rw [compileInputs_of_error (compileInput_of_rejected read compiled), Invocation.tables_nil]
      rfl
    | ok unit =>
      have completes : Completes transcript.disk session [input] [text] [unit] none :=
        Stops.finished.completes.cons read compiled
      cases attempt : transcript.disk.write output unit.code.text.toUTF8 with
      | error fault =>
        refine ⟨[text], [unit], none, transcript.disk, _, report session input text unit,
          completes, .refused attempt, ?_⟩
        exact compileInputs_of_error (compileInput_of_refused read compiled writing attempt) []
      | ok after =>
        refine ⟨[text], [unit], none, after, none,
          report session input text unit ++ [.wrote output], completes,
          .written attempt (Disk.replaces_of_write attempt), ?_⟩
        exact compileInputs_of_ok (compileInput_of_written read compiled writing attempt) []

theorem perform_of_fits (given : invocation.inputs ≠ [])
    (fits : ¬ (invocation.output.isSome ∧ 1 < invocation.inputs.length)) (disk : Disk) :
    ∃ texts units failure printed after last events,
      Completes disk { options := invocation.options } invocation.inputs texts units failure ∧
      Delivers disk invocation.output units failure printed after last ∧
      (perform invocation : StateM Transcript _) { disk } =
        (outcome last, ({ disk := after } : Transcript).adding printed (invocation.tables units)
          (invocation.shown events)) := by
  rw [perform, if_neg fits]
  cases way : invocation.output with
  | none =>
    obtain ⟨texts, units, failure, events, completes, ran⟩ :=
      compileInputs_printing way { options := invocation.options } invocation.inputs { disk }
    exact ⟨texts, units, failure, _, disk, failure, events, completes, .printed units failure, ran⟩
  | some output =>
    rw [way] at fits
    obtain ⟨input, only⟩ : ∃ input, invocation.inputs = [input] := by
      have positive := List.length_pos_iff.mpr given
      exact List.length_eq_one_iff.mp (by simp at fits; omega)
    obtain ⟨texts, units, failure, after, last, events, completes, delivers, ran⟩ :=
      compileInputs_writing way { options := invocation.options } input { disk }
    rw [only]
    exact ⟨texts, units, failure, "", after, last, events, completes, delivers, ran⟩

theorem readArguments_inputs {draft : Draft} {arguments : List String}
    (asked : readArguments draft arguments = .ok (.compile invocation)) :
    invocation.inputs ≠ [] := by
  have finished {draft : Draft} (asked : draft.finish = .ok (.compile invocation)) :
      invocation.inputs ≠ [] := by
    unfold Draft.finish at asked
    split at asked
    · cases asked
    · rename_i some
      obtain rfl := Request.compile.inj (Except.ok.inj asked)
      simpa using some
  fun_induction readArguments draft arguments with
  | case1 draft => exact finished asked
  | case2 | case4 | case5 | case7 | case8 | case9 => cases asked
  | case3 draft paths after _ => exact finished asked
  | case6 _ _ _ _ _ _ ih => exact ih asked
  | case10 _ _ _ _ _ _ _ _ _ _ _ ih => exact ih asked

/-- A command that is read as an invocation has an input, and does what the invocation does. -/
theorem run_of_arguments {arguments : List String}
    (asked : Request.ofArguments arguments = .ok (.compile invocation)) :
    invocation.inputs ≠ [] ∧ (run arguments : StateM Transcript Ending) = invocation.run := by
  refine ⟨readArguments_inputs asked, ?_⟩
  simp only [run, asked]

theorem run_of_perform {last : Option Failure} {after : Transcript}
    (performed : (perform invocation : StateM Transcript _) transcript = (outcome last, after)) :
    (invocation.run : StateM Transcript Ending) transcript =
      (if last.isNone then .success else .failed,
        after.adding "" (last.elim "" (·.message ++ "\n")) []) := by
  rw [Invocation.run, bind_run, performed]
  cases last with
  | none => exact congrArg (Prod.mk _) Transcript.adding_nothing.symm
  | some failure =>
    simp only [outcome, bind_run, remark_run]
    rfl

/-- The inputs of an invocation are compiled in order in one session, up to the first that cannot be
read or compiled, and the disk changes only at the output path, once its content is there. The exit
code is zero if there is no failure, and otherwise the message of the first failure is the only one.
With an output path and more than one input, nothing is done but to say so. -/
theorem run_batch {invocation : Invocation} (given : invocation.inputs ≠ []) (disk : Disk) :
    if invocation.output.isSome ∧ 1 < invocation.inputs.length then
      Ending.failed.code = 1 ∧
      ∀ (m : Type → Type) [Monad m] [LawfulMonad m] [Console m], (invocation.run : m Ending) = do
        Console.remark (Failure.manyInputs.message ++ "\n")
        return .failed
    else ∃ texts units failure last ending after,
      (invocation.run : StateM Transcript Ending) { disk } = (ending, after) ∧
      Completes disk { options := invocation.options } invocation.inputs texts units failure ∧
      Delivers disk invocation.output units failure after.printed after.disk last ∧
      ending.code = (if last.isNone then 0 else 1) ∧
      after.remarks = invocation.tables units ++ last.elim "" (·.message ++ "\n") ∧
      ∀ line ∈ after.logged, ∃ event : Event, line = event.text := by
  split
  · rename_i many
    refine ⟨rfl, fun m _ _ _ => ?_⟩
    simp only [Invocation.run, perform, if_pos many, pure_bind]
  · rename_i fits
    obtain ⟨texts, units, failure, printed, after, last, events, completes, delivers, performed⟩ :=
      perform_of_fits given fits disk
    refine ⟨texts, units, failure, last, _, _, run_of_perform performed, completes, ?_⟩
    rw [Transcript.adding_adding]
    refine ⟨?_, ?_, ?_, fun line member => ?_⟩
    · simpa [Transcript.adding] using delivers
    · cases last <;> rfl
    · simp [Transcript.adding]
    · have told : line ∈ (events.filter (·.isShown invocation.verbosity)).map Event.text := by
        simpa [Transcript.adding, Invocation.shown] using member
      obtain ⟨event, _, text⟩ := List.mem_map.mp told
      exact ⟨event, text.symm⟩

/-- A disk with one file, which holds a program. -/
def solitary : Disk :=
  { nodes := [(["a"], .file (String.ofList (Program.indexingText 3)).toUTF8)] }

theorem readText_solitary :
    solitary.readText "a" = .ok (String.ofList (Program.indexingText 3)) := by
  cbv

theorem write_solitary (content : ByteArray) :
    solitary.write "a" content = .ok (solitary.put ["a"] (.file content)) := by
  have known : solitary.resolve (.ofString "a") =
      .ok (.file ["a"] (String.ofList (Program.indexingText 3)).toUTF8) := by cbv
  have plain : (Path.ofString "a").trailing = false := by cbv
  simp [Disk.write, known, plain]

/-- A command puts the code of a program in the stead of it. -/
theorem run_batch_solitary :
    Request.ofArguments ["a", "-oa"] = .ok (.compile { inputs := ["a"], output := some "a" }) ∧
    ∃ unit after,
      (({} : Session).compile (.ofText (String.ofList (Program.indexingText 3)))).1.outcome =
        .ok unit ∧
      (run ["a", "-oa"] : StateM Transcript Ending) { disk := solitary } = (.success, after) ∧
      after.disk.read "a" = .ok unit.code.text.toUTF8 ∧ after.printed = "" := by
  have asked : Request.ofArguments ["a", "-oa"] =
      .ok (.compile { inputs := ["a"], output := some "a" }) := by cbv
  obtain ⟨given, read⟩ := run_of_arguments asked
  obtain ⟨code, accepted, _⟩ := Program.compile_of_spells (Program.spells_indexing 3)
    ⟨trivial, trivial⟩ trivial (by decide)
  obtain ⟨unit, compiled⟩ := accepts_of_compile accepted
  have expected : Completes solitary {} ["a"] _ [unit] none :=
    Stops.finished.completes.cons readText_solitary compiled
  obtain ⟨texts, units, failure, last, ending, after, ran, completes, delivers, code, _⟩ :=
    run_batch given solitary
  obtain ⟨_, rfl, rfl⟩ := completes.unique expected
  rw [read]
  refine ⟨asked, unit, after, compiled, ?_⟩
  generalize after.printed = printed, after.disk = remaining at delivers ⊢
  cases delivers with
  | refused uncreatable =>
    rw [write_solitary] at uncreatable
    cases uncreatable
  | written created replaces =>
    obtain rfl : ending = .success := by
      cases ending with
      | success => rfl
      | failed => cases code
      | misused => cases code
    exact ⟨ran, replaces.holds, rfl⟩

end Command

end OnePass
