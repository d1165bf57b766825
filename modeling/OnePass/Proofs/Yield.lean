import Mathlib
import OnePass.Proofs.Reading
import OnePass.Proofs.Scope

/-! What a phrase adds to a compilation, and how a run of tasks gets past a phrase. -/
namespace OnePass

/-- What comes of a phrase: its code, its names in order, the levels inside of it and the
number of its labels. -/
@[ext] structure Contribution where
  code : List Instruction := []
  mentions : List Mention := []
  nesting : Nat := 0
  labels : Nat := 0

namespace Contribution

instance : Append Contribution where
  append first second := {
    code := first.code ++ second.code
    mentions := first.mentions ++ second.mentions
    nesting := max first.nesting second.nesting
    labels := first.labels + second.labels }

@[simp] theorem append_def (first second : Contribution) :
    first ++ second = ⟨first.code ++ second.code, first.mentions ++ second.mentions,
      max first.nesting second.nesting, first.labels + second.labels⟩ := rfl

theorem append_nothing (c : Contribution) : c ++ {} = c := by
  simp

@[simp] def deeper (c : Contribution) : Contribution := { c with nesting := c.nesting + 1 }

end Contribution

namespace Listing

def append (code : Listing) (more : List Instruction) : Listing := more.foldl push code

theorem append_append (code : Listing) (first second : List Instruction) :
    (code.append first).append second = code.append (first ++ second) :=
  List.foldl_append.symm

theorem toList_append (code : Listing) (more : List Instruction) :
    (code.append more).toList = code.toList ++ more := by
  induction more generalizing code with
  | nil => simp [append]
  | cons instruction rest ih =>
    change ((code.push instruction).append rest).toList = _
    rw [ih, toList_push, List.append_assoc, List.singleton_append]

end Listing

namespace LabelSupply

@[simp] def first (supply : LabelSupply) : Label := ⟨supply.stem, supply.next⟩

@[simp] def after (supply : LabelSupply) (count : Nat) : LabelSupply :=
  ⟨supply.stem, supply.next + count⟩

end LabelSupply

namespace Compilation

namespace State

def plus (s : State) (input : Input) (c : Contribution) : State :=
  { s with
    source := input.source
    lookahead := input.lookahead
    symbols := s.symbols.extend c.mentions
    code := s.code.append c.code
    labels := s.labels.after c.labels }

def facing (s : State) (input : Input) : State :=
  { s with source := input.source, lookahead := input.lookahead }

theorem plus_plus (s : State) (first second : Input) (a b : Contribution) :
    (s.plus first a).plus second b = s.plus second (a ++ b) := by
  simp [plus, SymbolTable.extend_append, Listing.append_append, Nat.add_assoc]

end State

/-- Whether a phrase may follow in a state: its names fit those that are known, and its levels
those that are open. -/
def Admits (s : State) (c : Contribution) : Prop :=
  Scoped s.symbols.names c.mentions ∧ c.nesting ≤ maxNesting - s.depth

theorem admits_append {s : State} {input : Input} {a b : Contribution} :
    Admits s (a ++ b) ↔ Admits s a ∧ Admits (s.plus input a) b := by
  have known : Scoped (declaredNames a.mentions ++ s.symbols.names) b.mentions ↔
      Scoped (s.plus input a).symbols.names b.mentions :=
    Scoped.congr fun name => SymbolTable.mem_names_extend.symm
  have depth : (s.plus input a).depth = s.depth := rfl
  simp only [Admits, Contribution.append_def, scoped_append, known, depth, max_le_iff]
  tauto

/-- From tasks for a phrase and what follows it, a run comes to the tasks that follow, in the
state behind the phrase, if the phrase may follow. Otherwise it fails, but finds no fault with the
tokens. -/
def Yields (tasks rest : List Task) (s : State) (input : Input) (c : Contribution) : Prop :=
  (Admits s c → ∃ events, run tasks s = run rest { s.plus input c with events }) ∧
    (¬ Admits s c → ∃ fault after, run tasks s = .error fault after ∧ fault.isSyntactic = false)

variable {s : State} {middle input : Input} {tasks rest others : List Task} {a b c : Contribution}

theorem advance_of_moves (moved : s.input.Moves input) : advance s = .ok () (s.facing input) := by
  have delivered : s.source.next = (.ok input.lookahead, input.source) := moved
  unfold advance
  rw [delivered]
  rfl

theorem advance_of_fault {fault : Diagnostic} {after : Source}
    (failed : s.source.next = (.error fault, after)) :
    advance s = .error fault { s with source := after } := by
  unfold advance
  rw [failed]

theorem bind_of_ok {α β : Type} {step : Compilation α} {next : α → Compilation β} {value : α}
    {after : State} (done : step s = .ok value after) : (step >>= next) s = next value after := by
  simp only [bind, EStateM.bind, done]

theorem bind_of_error {α β : Type} {step : Compilation α} {next : α → Compilation β}
    {fault : Diagnostic} {after : State} (failed : step s = .error fault after) :
    (step >>= next) s = .error fault after := by
  simp only [bind, EStateM.bind, failed]

theorem get_eq : (get : Compilation State) s = .ok s s := rfl

theorem pushName_of_known {name : String} (line : Nat) (known : name ∈ s.symbols.names) :
    pushName name line s = .ok () { s with code := s.code.push (.push (.name name)) } := by
  obtain ⟨type, found⟩ := Option.ne_none_iff_exists'.mp
    (fun absent => SymbolTable.lookup_eq_none_iff.mp absent known)
  unfold pushName
  rw [bind_of_ok get_eq, found]
  rfl

theorem pushName_of_unknown {name : String} (line : Nat) (unknown : name ∉ s.symbols.names) :
    pushName name line s = .error (.undeclared line name) s := by
  have absent := SymbolTable.lookup_eq_none_iff.mpr unknown
  unfold pushName
  rw [bind_of_ok get_eq, absent]
  rfl

theorem declare_of_unknown {entry : Entry} {line : Nat} (unknown : entry.name ∉ s.symbols.names) :
    declare entry.name entry.type line s = .ok ()
      { s with
        symbols := s.symbols.add entry
        events := s.events.push (.declared entry.name entry.type line) } := by
  unfold declare
  rw [bind_of_ok get_eq, SymbolTable.declare_of_unknown unknown]
  rfl

theorem declare_of_known {entry : Entry} {line : Nat} (known : entry.name ∈ s.symbols.names) :
    declare entry.name entry.type line s = .error (.redeclared line entry.name) s := by
  unfold declare
  rw [bind_of_ok get_eq, SymbolTable.declare_of_known known]
  rfl

theorem enter_of_room (room : s.depth < maxNesting) :
    enter s = .ok () { s with depth := s.depth + 1 } := by
  unfold enter
  rw [bind_of_ok get_eq, if_pos room]
  rfl

theorem enter_of_full (full : ¬ s.depth < maxNesting) :
    enter s = .error (.tooDeep s.line maxNesting) s := by
  unfold enter
  rw [bind_of_ok get_eq, if_neg full]
  rfl

namespace Yields

theorem trans (first : Yields tasks rest s middle a)
    (second : ∀ events, Yields rest others { s.plus middle a with events } input b) :
    Yields tasks others s input (a ++ b) := by
  have split : Admits s (a ++ b) ↔ Admits s a ∧ Admits (s.plus middle a) b := admits_append
  constructor
  · intro admitted
    obtain ⟨early, late⟩ := split.mp admitted
    obtain ⟨events, reached⟩ := first.1 early
    obtain ⟨more, further⟩ := (second events).1 late
    refine ⟨more, ?_⟩
    rw [reached, further, ← State.plus_plus s middle input]
    rfl
  · intro refused
    by_cases early : Admits s a
    · obtain ⟨events, reached⟩ := first.1 early
      obtain ⟨fault, after, failed, other⟩ :=
        (second events).2 (fun late => refused (split.mpr ⟨early, late⟩))
      exact ⟨fault, after, reached.trans failed, other⟩
    · exact first.2 early

theorem congr (yields : Yields tasks rest s input a) (same : a = b) :
    Yields tasks rest s input b := same ▸ yields

theorem of_perform {task : Task} (parts : List Task) (events : Array Event) (admitted : Admits s c)
    (done : task.perform s = .ok parts { s.plus input c with events }) :
    Yields (task :: rest) (parts ++ rest) s input c :=
  ⟨fun _ => ⟨events, run_cons_ok rest done⟩, fun refused => absurd admitted refused⟩

theorem of_failure {task : Task} {fault : Diagnostic} {after : State} (refused : ¬ Admits s c)
    (failed : task.perform s = .error fault after) (other : fault.isSyntactic = false) :
    Yields (task :: rest) others s input c :=
  ⟨fun admitted => absurd admitted refused,
    fun _ => ⟨fault, _, run_cons_error rest failed, other⟩⟩

theorem admits_code (code : List Instruction) (labels : Nat) : Admits s { code, labels } :=
  ⟨trivial, Nat.zero_le _⟩

theorem of_look {task : Task} (parts : List Task) (done : task.perform s = .ok parts s) :
    Yields (task :: rest) (parts ++ rest) s s.input {} :=
  of_perform parts s.events (admits_code [] 0) done

theorem of_advance {task : Task} {next : Unit → Compilation (List Task)} (parts : List Task)
    (events : Array Event) (stepped : task.perform s = (advance >>= next) s)
    (moved : s.input.Moves input) (admitted : Admits s c)
    (done : next () (s.facing input) = .ok parts { s.plus input c with events }) :
    Yields (task :: rest) (parts ++ rest) s input c := by
  apply of_perform parts events admitted
  rw [stepped, bind_of_ok (advance_of_moves moved)]
  exact done

theorem of_pass {task : Task} (parts : List Task)
    (stepped : task.perform s = (do advance; return parts) s) (moved : s.input.Moves input) :
    Yields (task :: rest) (parts ++ rest) s input {} :=
  of_advance parts s.events stepped moved (admits_code [] 0) rfl

theorem of_emit {task : Task} {instruction : Instruction}
    (stepped : task.perform s = (do advance; emit instruction; return []) s)
    (moved : s.input.Moves input) : Yields (task :: rest) rest s input { code := [instruction] } :=
  of_advance [] s.events stepped moved (admits_code [instruction] 0) rfl

theorem of_use {task : Task} {name : String} {line : Nat} (parts : List Task)
    (stepped : task.perform s = (do advance; pushName name line; return parts) s)
    (moved : s.input.Moves input) : Yields (task :: rest) (parts ++ rest) s input
      { code := [.push (.name name)], mentions := [.uses name] } := by
  by_cases known : name ∈ s.symbols.names
  · have pushed := pushName_of_known (s := s.facing input) line known
    exact of_advance parts s.events stepped moved ⟨⟨known, trivial⟩, Nat.zero_le _⟩
      (bind_of_ok pushed)
  · have refused := pushName_of_unknown (s := s.facing input) line known
    have failed := (stepped.trans (bind_of_ok (advance_of_moves moved))).trans
      (bind_of_error refused)
    exact of_failure (fun admitted => known admitted.1.1) failed rfl

theorem of_declare {task : Task} {next : Unit → Compilation (List Task)} {line : Nat}
    {code : List Instruction} (entry : Entry) (parts : List Task)
    (stepped : task.perform s = (declare entry.name entry.type line >>= next) s)
    (done : ∀ events, next () { s with symbols := s.symbols.add entry, events } =
      .ok parts { s.plus input { code, mentions := [.declares entry] } with events }) :
    Yields (task :: rest) (parts ++ rest) s input { code, mentions := [.declares entry] } := by
  by_cases known : entry.name ∈ s.symbols.names
  · have failed := stepped.trans (bind_of_error (declare_of_known known))
    exact of_failure (fun admitted => admitted.1.1 known) failed rfl
  · refine of_perform parts (s.events.push (.declared entry.name entry.type line))
      ⟨⟨known, trivial⟩, Nat.zero_le _⟩ ?_
    rw [stepped, bind_of_ok (declare_of_unknown known)]
    exact done _

theorem expect {token : Token} (seen : s.input.token = token) (moved : s.input.Moves input) :
    Yields (.expect token.kind :: rest) rest s input {} := by
  refine of_pass [] ?_ moved
  have fits : s.lookahead.kind = token.kind := congrArg Token.kind seen
  change ((if s.lookahead.kind = token.kind then advance
    else unexpected token.kind.description) >>= fun _ => pure []) s = _
  rw [if_pos fits]

theorem pass {mark : Mark} (seen : s.input.token = .mark mark) (moved : s.input.Moves input) :
    Yields (.pass mark :: rest) rest s input {} := expect seen moved

theorem finish (seen : s.input.token = .finish) (moved : s.input.Moves input) :
    Yields (.expect .finish :: rest) rest s input {} := expect seen moved

theorem emitting (instruction : Instruction) :
    Yields (.emit instruction :: rest) rest s s.input { code := [instruction] } :=
  of_perform [] s.events (admits_code [instruction] 0) rfl

theorem admits_deeper : Admits s c.deeper ↔
    s.depth < maxNesting ∧ Admits { s with depth := s.depth + 1 } c := by
  simp only [Admits, Contribution.deeper]
  constructor
  · intro admitted
    obtain ⟨known, room⟩ := admitted
    exact ⟨by omega, known, by omega⟩
  · intro admitted
    obtain ⟨room, known, inside⟩ := admitted
    exact ⟨known, by omega⟩

theorem nested {task : Task}
    (inner : Yields (task :: .leave :: rest) (.leave :: rest) { s with depth := s.depth + 1 } input c) :
    Yields (.nested task :: rest) rest s input c.deeper := by
  have stepped : (Task.nested task).perform s = (do enter; return [task, .leave]) s := rfl
  by_cases room : s.depth < maxNesting
  · have done : (Task.nested task).perform s =
        .ok [task, .leave] { s with depth := s.depth + 1 } :=
      stepped.trans (bind_of_ok (enter_of_room room))
    have unfolded := run_cons_ok rest done
    constructor
    · intro admitted
      obtain ⟨events, reached⟩ := inner.1 (admits_deeper.mp admitted).2
      exact ⟨events, unfolded.trans (reached.trans
        (run_cons_ok rest (rfl : Task.leave.perform _ = .ok [] _)))⟩
    · intro refused
      obtain ⟨fault, after, failed, other⟩ :=
        inner.2 fun deep => refused (admits_deeper.mpr ⟨room, deep⟩)
      exact ⟨fault, after, unfolded.trans failed, other⟩
  · have failed := stepped.trans (bind_of_error (enter_of_full room))
    exact of_failure (fun admitted => room (admits_deeper.mp admitted).1) failed rfl

end Yields

end Compilation

end OnePass
