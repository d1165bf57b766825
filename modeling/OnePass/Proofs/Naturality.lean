import Mathlib
import OnePass.Proofs.Programs

/-! What a compilation does not look into: labels, which it only takes from a supply and passes on,
and places, which it only reports. A change of labels and places that the supply and the source
undergo is therefore carried through every step, and the run comes to the same up to that change. -/
namespace OnePass

/-- A change of lines and columns. -/
structure Relocation where
  line : Nat → Nat
  column : Nat → Nat

namespace Relocation

variable (change : Relocation)

def located (token : Located) : Located :=
  ⟨token.token, ⟨change.line token.place.line, change.column token.place.column⟩⟩

def fault : Diagnostic → Diagnostic
  | .unexpected line expected found => .unexpected (change.line line) expected found
  | .redeclared line name => .redeclared (change.line line) name
  | .undeclared line name => .undeclared (change.line line) name
  | .lexical line column message => .lexical (change.line line) (change.column column) message
  | .tooDeep line limit => .tooDeep (change.line line) limit

def delivered : Except Diagnostic Located → Except Diagnostic Located
  | .ok token => .ok (change.located token)
  | .error cause => .error (change.fault cause)

end Relocation

def Instruction.relabelled (rename : Label → Label) : Instruction → Instruction
  | label defined => label (rename defined)
  | goto target => goto (rename target)
  | goFalse target => goFalse (rename target)
  | other => other

/-- A change of labels and places. It concerns sources that deliver the same as before but for the
places, and supplies that give the same labels as before but for their names. -/
structure Change extends Relocation where
  label : Label → Label
  supply : LabelSupply → LabelSupply
  source : Source → Source
  /-- The sources that are changed. -/
  Concerns : Source → Prop
  fresh : ∀ labels, (supply labels).fresh = (label labels.fresh.1, supply labels.fresh.2)
  concerns_next : ∀ tokens, Concerns tokens → Concerns (tokens.next).2
  next : ∀ tokens, Concerns tokens →
    (source tokens).next = (toRelocation.delivered (tokens.next).1, source (tokens.next).2)
  line_source : ∀ tokens, Concerns tokens → (source tokens).line = line tokens.line

namespace Change

variable (change : Change)

def event : Event → Event
  | .allocated label => .allocated (change.label label)
  | .declared name type line => .declared name type (change.line line)
  | other => other

def task : Task → Task
  | .emit instruction => .emit (instruction.relabelled change.label)
  | .nested inner => .nested (task inner)
  | .declared type name line => .declared type name (change.line line)
  | .arraySize element name line => .arraySize element name (change.line line)
  | .declareArray element name line size => .declareArray element name (change.line line) size
  | .otherwise skip => .otherwise (change.label skip)
  | .loopBody top => .loopBody (change.label top)
  | .loopTest top => .loopTest (change.label top)
  | other => other

def listing (code : Listing) : Listing :=
  ⟨code.instructions.map (·.relabelled change.label)⟩

def state (s : Compilation.State) : Compilation.State where
  source := change.source s.source
  lookahead := change.located s.lookahead
  symbols := s.symbols
  code := change.listing s.code
  labels := change.supply s.labels
  depth := s.depth
  events := s.events.map change.event

end Change

namespace Compilation

open Change

variable {change : Change}

theorem line_state {s : State} (concerns : change.Concerns s.source) :
    (change.state s).line = change.line s.line := by
  unfold State.line
  by_cases ended : s.lookahead.token = .finish
  · rw [if_pos ended]
    exact (if_pos ended).trans (change.line_source _ concerns)
  · rw [if_neg ended]
    exact if_neg ended

theorem state_push (s : State) (instruction : Instruction) :
    change.state { s with code := s.code.push instruction } = { change.state s with
      code := (change.state s).code.push (instruction.relabelled change.label) } := by
  simp only [state, listing, Listing.push, Array.map_push]

/-- A result and the same result under a change. -/
inductive Carried {α : Type} (change : Change) (value : α → α) :
    EStateM.Result Diagnostic State α → EStateM.Result Diagnostic State α → Prop where
  | ok {result after} : change.Concerns after.source →
      Carried change value (.ok result after) (.ok (value result) (change.state after))
  | error {fault after} :
      Carried change value (.error fault after) (.error (change.fault fault) (change.state after))

/-- A step that comes to another one's result under a change. -/
def Carries {α : Type} (change : Change) (value : α → α) (step step' : Compilation α) : Prop :=
  ∀ s : State, change.Concerns s.source → Carried change value (step s) (step' (change.state s))

namespace Carries

variable {α β : Type} {value : α → α}

theorem pure (result : α) : Carries change value (pure result) (pure (value result)) :=
  fun _ concerns => .ok concerns

theorem throw (fault : Diagnostic) :
    Carries change value (throw fault) (throw (change.fault fault)) := fun _ _ => .error

theorem bind {value' : β → β} {step step' : Compilation α} {next next' : α → Compilation β}
    (first : Carries change value step step')
    (second : ∀ result, Carries change value' (next result) (next' (value result))) :
    Carries change value' (step >>= next) (step' >>= next') := by
  intro s concerns
  have here := first s concerns
  generalize one : step s = result at here
  generalize two : step' (change.state s) = result' at here
  cases here with
  | ok further =>
    rw [bind_of_ok one, bind_of_ok two]
    exact second _ _ further
  | error =>
    rw [bind_of_error one, bind_of_error two]
    exact .error

theorem look {next next' : State → Compilation α}
    (later : ∀ s, change.Concerns s.source →
      Carries change value (next s) (next' (change.state s))) :
    Carries change value (get >>= next) (get >>= next') := by
  intro s concerns
  rw [bind_of_ok get_eq, bind_of_ok get_eq]
  exact later s concerns s concerns

theorem advance : Carries change id advance advance := by
  intro s concerns
  have called := change.next s.source concerns
  have further := change.concerns_next s.source concerns
  rcases delivered : s.source.next with ⟨cause | token, after⟩ <;>
  rw [delivered] at called further
  · rw [advance_of_fault delivered, advance_of_fault (s := change.state s) called]
    exact .error
  · have moved : s.input.Moves ⟨token, after⟩ := delivered
    have moved' : (change.state s).input.Moves ⟨change.located token, change.source after⟩ := called
    rw [advance_of_moves moved, advance_of_moves moved']
    exact .ok further

theorem unexpected (expected : String) :
    Carries change value (unexpected expected) (unexpected expected) := by
  refine .look fun s concerns => ?_
  rw [line_state concerns]
  exact .throw _

theorem expect (kind : Kind) : Carries change id (expect kind) (expect kind) := by
  refine .look fun s concerns => ?_
  change Carries change id _ (if s.lookahead.kind = kind then _ else _)
  by_cases fits : s.lookahead.kind = kind
  · rw [if_pos fits]
    exact advance
  · rw [if_neg fits]
    exact unexpected _

theorem emit (instruction : Instruction) :
    Carries change id (emit instruction) (emit (instruction.relabelled change.label)) := by
  intro s concerns
  change Carried change id _ (.ok () { change.state s with
    code := (change.state s).code.push (instruction.relabelled change.label) })
  rw [← state_push]
  exact .ok concerns

theorem fresh : Carries change change.label fresh fresh := by
  intro s concerns
  have fresh := change.fresh s.labels
  have pushed : (s.events.push (.allocated s.labels.fresh.1)).map change.event =
      (s.events.map change.event).push (.allocated (change.label s.labels.fresh.1)) :=
    Array.map_push
  change Carried change change.label _ (.ok (change.supply s.labels).fresh.1 { change.state s with
    labels := (change.supply s.labels).fresh.2
    events := (s.events.map change.event).push (.allocated (change.supply s.labels).fresh.1) })
  rw [fresh, ← pushed]
  exact .ok concerns

theorem leave : Carries change id leave leave := fun _ concerns => .ok concerns

theorem enter : Carries change id enter enter := by
  intro s concerns
  by_cases room : s.depth < maxNesting
  · rw [enter_of_room room, enter_of_room (s := change.state s) room]
    exact .ok concerns
  · rw [enter_of_full room, enter_of_full (s := change.state s) room, line_state concerns]
    exact .error

theorem declare (entry : Entry) (line : Nat) : Carries change id
    (declare entry.name entry.type line) (declare entry.name entry.type (change.line line)) := by
  intro s concerns
  by_cases known : entry.name ∈ s.symbols.names
  · rw [declare_of_known known, declare_of_known (s := change.state s) known]
    exact .error
  · have pushed : (s.events.map change.event).push
        (.declared entry.name entry.type (change.line line)) =
        (s.events.push (.declared entry.name entry.type line)).map change.event := by
      rw [Array.map_push, event]
    rw [declare_of_unknown known, declare_of_unknown (s := change.state s) known]
    change Carried change id _ (.ok () { change.state s with
      symbols := s.symbols.add entry
      events := (s.events.map change.event).push _ })
    rw [pushed]
    exact .ok concerns

theorem pushName (name : String) (line : Nat) :
    Carries change id (pushName name line) (pushName name (change.line line)) := by
  intro s concerns
  by_cases known : name ∈ s.symbols.names
  · rw [pushName_of_known line known, pushName_of_known (s := change.state s) _ known]
    exact emit (.push (.name name)) s concerns
  · rw [pushName_of_unknown line known, pushName_of_unknown (s := change.state s) _ known]
    exact .error

end Carries

end Compilation

namespace Task

open Compilation

variable {change : Change}

/-- A step whose tasks are left under a change too. -/
abbrev CarriesParts (change : Change) : Compilation (List Task) → Compilation (List Task) → Prop :=
  Carries change (List.map change.task)

theorem carries_declaration (token : Token) :
    CarriesParts change (onDeclaration token) (onDeclaration token) := by
  fun_cases onDeclaration token
  case case4 => exact .unexpected _
  all_goals exact .bind .advance fun _ => .pure _

theorem carries_declarator (type : Scalar) (line : Nat) (token : Token) :
    CarriesParts change (onDeclarator type line token)
      (onDeclarator type (change.line line) token) := by
  unfold onDeclarator
  split
  · exact .bind .advance fun _ => .pure _
  · exact .unexpected _

theorem carries_declarators (type : Scalar) (token : Token) :
    CarriesParts change (onDeclarators type token) (onDeclarators type token) := by
  fun_cases onDeclarators type token
  case case1 => exact .bind .advance fun _ => .pure _
  case case2 => exact .pure _

theorem carries_declared (type : Scalar) (name : String) (line : Nat) (token : Token) :
    CarriesParts change (onDeclared type name line token)
      (onDeclared type name (change.line line) token) := by
  have declares : Carries change id (Compilation.declare name (.scalar type) line)
      (Compilation.declare name (.scalar type) (change.line line)) :=
    .declare ⟨name, .scalar type⟩ line
  unfold onDeclared
  split
  · exact .bind .advance fun _ => .pure _
  · exact .bind declares fun _ => .bind .advance fun _ => .bind (.emit _) fun _ => .pure _
  · exact .bind declares fun _ => .pure _

theorem carries_arraySize (element : Scalar) (name : String) (line sizeLine : Nat) (token : Token) :
    CarriesParts change (onArraySize element name line sizeLine token)
      (onArraySize element name (change.line line) (change.line sizeLine) token) := by
  unfold onArraySize
  split
  · rename_i size
    refine .bind .advance fun _ => ?_
    by_cases positive : 0 < size
    · rw [if_pos positive, if_pos positive]
      exact .pure _
    · rw [if_neg positive, if_neg positive]
      exact .throw _
  · exact .unexpected _

theorem carries_statement (line : Nat) (token : Token) :
    CarriesParts change (onStatement line token)
      (onStatement (change.line line) token) := by
  unfold onStatement
  split
  case h_1 => exact .bind .advance fun _ => .bind (.pushName _ _) fun _ => .pure _
  case h_2 | h_3 | h_4 => exact .pure _
  case h_7 | h_8 =>
    exact .bind .advance fun _ => .bind .fresh fun _ => .bind (.emit _) fun _ => .pure _
  case h_10 => exact .unexpected _
  all_goals exact .bind .advance fun _ => .pure _

theorem carries_otherwise (skip : Label) (token : Token) :
    CarriesParts change (onOtherwise skip token)
      (onOtherwise (change.label skip) token) := by
  unfold onOtherwise
  split
  · exact .bind .fresh fun _ => .bind (.emit _) fun _ => .bind (.emit _) fun _ =>
      .bind .advance fun _ => .pure _
  · exact .bind (.emit _) fun _ => .pure _

theorem carries_chain (tier : Tier) (token : Token) :
    CarriesParts change (onChain tier token) (onChain tier token) := by
  unfold onChain
  cases tier.operator? token with
  | none => exact .pure _
  | some op => cases tier <;> exact .bind .advance fun _ => .pure _

theorem carries_operand (line : Nat) (token : Token) :
    CarriesParts change (onOperand line token)
      (onOperand (change.line line) token) := by
  unfold onOperand
  split
  case h_1 | h_2 => exact .bind .advance fun _ => .pure _
  case h_7 => exact .bind .advance fun _ => .bind (.pushName _ _) fun _ => .pure _
  case h_8 => exact .unexpected _
  all_goals exact .bind .advance fun _ => .bind (.emit _) fun _ => .pure _

theorem carries_index (token : Token) :
    CarriesParts change (onIndex token) (onIndex token) := by
  fun_cases onIndex token
  case case1 => exact .bind .advance fun _ => .pure _
  case case2 => exact .pure _

/-- Performing a task under a change comes to the same under that change. -/
theorem perform_carries (task : Task) :
    CarriesParts change task.perform (change.task task).perform := by
  refine .look fun s concerns => ?_
  cases task with
  | expect kind => exact .bind (.expect kind) fun _ => .pure _
  | emit instruction => exact .bind (.emit _) fun _ => .pure _
  | nested inner => exact .bind .enter fun _ => .pure _
  | leave => exact .bind .leave fun _ => .pure _
  | declarations =>
    change CarriesParts change (pure (if beginsDeclaration s.lookahead.token then _ else _))
      (pure (if beginsDeclaration s.lookahead.token then _ else _))
    split <;> exact .pure _
  | declaration => exact carries_declaration _
  | declarator type => exact carries_declarator _ _ _
  | declarators type => exact carries_declarators _ _
  | declared type name line => exact carries_declared _ _ _ _
  | arraySize element name line =>
    have here : CarriesParts change _ (onArraySize element name (change.line line)
        (change.line s.line) s.lookahead.token) := carries_arraySize element name line s.line _
    rw [← line_state concerns] at here
    exact here
  | declareArray element name line size =>
    exact .bind (.declare ⟨name, .array element size⟩ line) fun _ =>
      .bind (.emit _) fun _ => .pure _
  | instructions =>
    change CarriesParts change (pure (if beginsInstruction s.lookahead.token then _ else _))
      (pure (if beginsInstruction s.lookahead.token then _ else _))
    split <;> exact .pure _
  | statement => exact carries_statement _ _
  | branch => exact .bind .fresh fun _ => .bind (.emit _) fun _ => .pure _
  | otherwise skip => exact carries_otherwise _ _
  | loopBody top => exact .bind .fresh fun _ => .bind (.emit _) fun _ => .pure _
  | loopTest top =>
    exact .bind .fresh fun _ => .bind (.emit _) fun _ => .bind (.emit _) fun _ =>
      .bind (.emit _) fun _ => .pure _
  -- the operands of a tier are tasks without labels and lines
  | level tier => cases tier <;> exact .pure _
  | chain tier => exact carries_chain _ _
  | operand => exact carries_operand _ _
  | index => exact carries_index _

end Task

namespace Compilation

variable (change : Change)

theorem count_leave_task (tasks : List Task) :
    (tasks.map change.task).count .leave = tasks.count .leave := by
  induction tasks with
  | nil => rfl
  | cons task rest ih => cases task <;> simp [Change.task, ih]

theorem state_unwind (tasks : List Task) (s : State) :
    unwind (tasks.map change.task) (change.state s) = change.state (unwind tasks s) := by
  unfold unwind
  rw [count_leave_task]
  rfl

theorem run_carries (tasks : List Task) :
    Carries change id (run tasks) (run (tasks.map change.task)) := by
  intro s concerns
  fun_induction run tasks s with
  | case1 s =>
    rw [List.map_nil, run_nil]
    exact .ok concerns
  | case2 s task rest parts after performed ih =>
    have here := task.perform_carries s concerns
    rw [performed] at here
    generalize two : (change.task task).perform (change.state s) = result at here
    cases here with
    | ok further =>
      rw [List.map_cons, run_cons_ok _ two, ← List.map_append]
      exact ih further
  | case3 s task rest fault after performed =>
    have here := task.perform_carries s concerns
    rw [performed] at here
    generalize two : (change.task task).perform (change.state s) = result at here
    cases here with
    | error =>
      rw [List.map_cons, run_cons_error _ two, state_unwind]
      exact .error

theorem program_carries (halting : Bool) :
    Carries change id (program halting) (program halting) := by
  have here := run_carries change (Task.program halting)
  cases halting <;> exact here

theorem start_of_change {source : Source} (concerns : change.Concerns source)
    (labels : LabelSupply) : start (change.source source) (change.supply labels) =
      match start source labels with
      | .ok initial => .ok (change.state initial)
      | .error fault => .error (change.fault fault) := by
  unfold start
  rw [change.next source concerns]
  have code : change.listing .empty = .empty := congrArg Listing.mk Array.map_empty
  have events : (#[] : Array Event).map change.event = #[] := Array.map_empty
  rcases source.next with ⟨cause | token, after⟩
  · rfl
  · simp only [Relocation.delivered, Change.state, code, events]

theorem concerns_of_start {source : Source} {labels : LabelSupply} {initial : State}
    (concerns : change.Concerns source) (opened : start source labels = .ok initial) :
    change.Concerns initial.source := by
  have further := change.concerns_next source concerns
  unfold start at opened
  split at opened
  · rename_i token after delivered
    obtain rfl := Except.ok.inj opened
    rwa [delivered] at further
  · cases opened

end Compilation

end OnePass
