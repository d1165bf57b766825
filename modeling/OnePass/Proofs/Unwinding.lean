import Mathlib
import OnePass.Proofs.Course
import OnePass.Proofs.SessionLabels

/-! What a run leaves behind, wherever it stops. A task that opens a level leaves another to close
it, so the levels that are open are those that the tasks left will close, and a run that fails
closes them. Code, symbols and labels are only added to. -/
namespace OnePass

theorem Entry.find?_insert {entry : Entry} {name : String} (other : entry.name ≠ name)
    (entries : List Entry) :
    (insert entry entries).find? (·.name = name) = entries.find? (·.name = name) := by
  induction entries with
  | nil => simp [insert, other]
  | cons head rest ih =>
    unfold insert
    split
    · simp [other]
    · rw [List.find?_cons, List.find?_cons, ih]

theorem SymbolTable.lookup_add_of_ne {table : SymbolTable} {entry : Entry} {name : String}
    (other : entry.name ≠ name) : (table.add entry).lookup name = table.lookup name := by
  by_cases known : entry.name ∈ table.names
  · rw [add, declare_of_known known]
  · have absent := lookup_eq_none_iff.mpr known
    have entries : (table.add entry).entries = Entry.insert entry table.entries := by
      simp only [add, declare, absent, dite_true]
    rw [lookup, entries, Entry.find?_insert other, lookup]

namespace Compilation

/-- What no step takes back: code is added at the end, labels are taken from the supply, and a
symbol keeps its type. -/
structure State.Extends (s after : State) : Prop extends s.Grows after where
  symbols : ∀ name type, s.symbols.lookup name = some type →
    after.symbols.lookup name = some type

namespace State.Extends

variable {s middle after : State}

theorem trans (first : s.Extends middle) (second : middle.Extends after) : s.Extends after :=
  ⟨first.toGrows.trans second.toGrows, fun name type known =>
    second.symbols name type (first.symbols name type known)⟩

theorem of_same (code : after.code = s.code) (labels : after.labels = s.labels)
    (symbols : after.symbols = s.symbols) : s.Extends after := by
  refine ⟨⟨?_, congrArg LabelSupply.stem labels, ?_⟩, fun name type known => symbols ▸ known⟩
  · rw [code]
  · rw [labels]

theorem refl (s : State) : s.Extends s := of_same rfl rfl rfl

theorem emit (s : State) (instruction : Instruction) :
    s.Extends { s with code := s.code.push instruction } := by
  refine ⟨⟨?_, rfl, Nat.le_refl _⟩, fun _ _ known => known⟩
  exact Listing.toList_push s.code instruction ▸ List.prefix_append _ _

theorem declare {entry : Entry} (new : entry.name ∉ s.symbols.names) (event : Event) :
    s.Extends { s with symbols := s.symbols.add entry, events := s.events.push event } := by
  refine ⟨⟨List.prefix_rfl, rfl, Nat.le_refl _⟩, fun name type known => ?_⟩
  have other : entry.name ≠ name := by
    rintro rfl
    rw [SymbolTable.lookup_eq_none_iff.mpr new] at known
    cases known
  exact (SymbolTable.lookup_add_of_ne other).trans known

end State.Extends

/-- Steps that are put together from the elementary ones that neither open nor close a level. -/
inductive Flat : {α : Type} → Compilation α → Prop where
  | pure {α : Type} (value : α) : Flat (pure value)
  | throw {α : Type} (fault : Diagnostic) : Flat (throw fault : Compilation α)
  | get : Flat (get : Compilation State)
  | advance : Flat advance
  | emit (instruction : Instruction) : Flat (emit instruction)
  | fresh : Flat fresh
  | declare (name : String) (type : DataType) (line : Nat) : Flat (declare name type line)
  | pushName (name : String) (line : Nat) : Flat (pushName name line)
  | bind {α β : Type} {step : Compilation α} {next : α → Compilation β} :
      Flat step → (∀ value, Flat (next value)) → Flat (step >>= next)

namespace Flat

theorem unexpected {α : Type} (expected : String) : Flat (unexpected expected : Compilation α) :=
  .bind .get fun _ => .throw _

theorem ite {α : Type} {condition : Prop} [Decidable condition] {yes no : Compilation α}
    (first : Flat yes) (second : Flat no) : Flat (if condition then yes else no) := by
  split
  · exact first
  · exact second

theorem expect (kind : Kind) : Flat (expect kind) :=
  .bind .get fun _ => .ite .advance (.unexpected _)

/-- Whether it succeeds or fails, a step without levels adds to the state and stays at its depth. -/
theorem adds {α : Type} {step : Compilation α} (flat : Flat step) (s : State) :
    s.Extends (leaves step s) ∧ (leaves step s).depth = s.depth := by
  induction flat generalizing s with
  | pure value => exact ⟨.refl s, rfl⟩
  | throw fault => exact ⟨.refl s, rfl⟩
  | get => exact ⟨.refl s, rfl⟩
  | advance =>
    unfold leaves Compilation.advance
    rcases s.source.next with ⟨fault | token, source⟩ <;> exact ⟨.of_same rfl rfl rfl, rfl⟩
  | emit instruction => exact ⟨.emit s instruction, rfl⟩
  | fresh => exact ⟨⟨⟨List.prefix_rfl, rfl, Nat.le_succ _⟩, fun _ _ known => known⟩, rfl⟩
  | declare name type line =>
    by_cases known : name ∈ s.symbols.names
    · rw [leaves_of_error (@declare_of_known s ⟨name, type⟩ line known)]
      exact ⟨.refl s, rfl⟩
    · rw [leaves_of_ok (@declare_of_unknown s ⟨name, type⟩ line known)]
      exact ⟨.declare known _, rfl⟩
  | pushName name line =>
    by_cases known : name ∈ s.symbols.names
    · rw [leaves_of_ok (pushName_of_known line known)]
      exact ⟨.emit s _, rfl⟩
    · rw [leaves_of_error (pushName_of_unknown line known)]
      exact ⟨.refl s, rfl⟩
  | @bind _ _ step next _ _ first second =>
    have here := first s
    cases done : step s with
    | error fault middle =>
      rw [leaves_of_error done] at here
      rwa [leaves_bind_of_error done]
    | ok value middle =>
      rw [leaves_of_ok done] at here
      rw [leaves_bind_of_ok done]
      have there := second value middle
      exact ⟨here.1.trans there.1, there.2.trans here.2⟩

end Flat

end Compilation

namespace Task

open Compilation

theorem flat_declaration (token : Token) : Flat (onDeclaration token) := by
  fun_cases onDeclaration token <;> repeat' first | intro _ | constructor

theorem flat_declarator (type : Scalar) (line : Nat) (token : Token) :
    Flat (onDeclarator type line token) := by
  fun_cases onDeclarator type line token <;> repeat' first | intro _ | constructor

theorem flat_declarators (type : Scalar) (token : Token) : Flat (onDeclarators type token) := by
  fun_cases onDeclarators type token <;> repeat' first | intro _ | constructor

theorem flat_declared (type : Scalar) (name : String) (line : Nat) (token : Token) :
    Flat (onDeclared type name line token) := by
  fun_cases onDeclared type name line token <;> repeat' first | intro _ | constructor

theorem flat_arraySize (element : Scalar) (name : String) (line sizeLine : Nat) (token : Token) :
    Flat (onArraySize element name line sizeLine token) := by
  fun_cases onArraySize element name line sizeLine token
  case case1 size => exact .bind .advance fun _ => .ite (.pure _) (.throw _)
  case case2 => exact .unexpected _

theorem flat_statement (line : Nat) (token : Token) : Flat (onStatement line token) := by
  fun_cases onStatement line token <;> repeat' first | intro _ | constructor

theorem flat_otherwise (skip : Label) (token : Token) : Flat (onOtherwise skip token) := by
  fun_cases onOtherwise skip token <;> repeat' first | intro _ | constructor

theorem flat_chain (tier : Tier) (token : Token) : Flat (onChain tier token) := by
  fun_cases onChain tier token <;> repeat' first | intro _ | constructor

theorem flat_operand (line : Nat) (token : Token) : Flat (onOperand line token) := by
  fun_cases onOperand line token <;> repeat' first | intro _ | constructor

theorem flat_index (token : Token) : Flat (onIndex token) := by
  fun_cases onIndex token <;> repeat' first | intro _ | constructor

theorem flat_perform {task : Task} (opens : ∀ inner, task ≠ nested inner) (closes : task ≠ leave) :
    Flat task.perform := by
  refine .bind .get fun s => ?_
  cases task with
  | nested inner => exact absurd rfl (opens inner)
  | leave => exact absurd rfl closes
  | expect kind => exact .bind (.expect kind) fun _ => .pure _
  | declaration => exact flat_declaration _
  | declarator type => exact flat_declarator _ _ _
  | declarators type => exact flat_declarators _ _
  | declared type name line => exact flat_declared _ _ _ _
  | arraySize element name line => exact flat_arraySize _ _ _ _ _
  | statement => exact flat_statement _ _
  | otherwise skip => exact flat_otherwise _ _
  | chain tier => exact flat_chain _ _
  | operand => exact flat_operand _ _
  | index => exact flat_index _
  | _ => repeat' first | intro _ | constructor

/-- A level is opened around something else than its end. -/
def isProper : Task → Bool
  | nested inner => inner ≠ leave && inner.isProper
  | _ => true

theorem Expands.proper {task : Task} {token : Token} {passes : Bool} {names : List String}
    {parts : List Task} (expands : task.Expands token passes names parts)
    (proper : task.isProper = true) : parts.all isProper = true := by
  cases expands with
  | nested =>
    obtain ⟨_, inner⟩ := Bool.and_eq_true_iff.mp proper
    simp [inner, isProper]
  | level tier => cases tier <;> rfl
  | @chain tier => cases tier <;> rfl
  | _ => rfl

/-- Only what opens a level leaves its end behind. -/
theorem Expands.count_leave {task : Task} {token : Token} {passes : Bool} {names : List String}
    {parts : List Task} (expands : task.Expands token passes names parts)
    (opens : ∀ inner, task ≠ .nested inner) : parts.count .leave = 0 := by
  cases expands with
  | nested => exact absurd rfl (opens _)
  | level tier => cases tier <;> rfl
  | @chain tier => cases tier <;> rfl
  | _ => rfl

end Task

namespace Compilation

variable {task : Task} {tasks rest parts others : List Task} {s after t : State}
  {fault : Diagnostic} {passed : List Located}

theorem perform_extends (task : Task) (s : State) : s.Extends (leaves task.perform s) := by
  cases task with
  | nested inner =>
    have stepped : (Task.nested inner).perform s = (do enter; return [inner, .leave]) s := rfl
    by_cases room : s.depth < maxNesting
    · rw [leaves_of_ok (stepped.trans (bind_of_ok (enter_of_room room)))]
      exact .of_same rfl rfl rfl
    · rw [leaves_of_error (stepped.trans (bind_of_error (enter_of_full room)))]
      exact .refl s
  | leave => exact .of_same rfl rfl rfl
  | _ => exact ((Task.flat_perform (by simp) (by simp)).adds s).1

theorem run_extends (tasks : List Task) (s : State) : s.Extends (leaves (run tasks) s) := by
  simp only [leaves]
  fun_induction run tasks s with
  | case1 s => exact .refl s
  | case2 s task rest parts after performed ih =>
    have here := perform_extends task s
    rw [leaves_of_ok performed] at here
    exact here.trans ih
  | case3 s task rest fault after performed =>
    have here := perform_extends task s
    rw [leaves_of_error performed] at here
    exact here.trans (.of_same rfl rfl rfl)

/-- The levels that are open are those that the tasks left will close. -/
structure Leveled (tasks : List Task) (s : State) : Prop where
  depth : s.depth = tasks.count .leave
  within : s.depth ≤ maxNesting
  proper : tasks.all Task.isProper = true

namespace Leveled

theorem step (leveled : Leveled (task :: rest) s) (done : task.perform s = .ok parts after) :
    Leveled (parts ++ rest) after := by
  obtain ⟨passes, names, steps⟩ := steps_of_perform done
  obtain ⟨depth, within, proper⟩ := leveled
  obtain ⟨here, behind⟩ := Bool.and_eq_true_iff.mp (List.all_cons.symm.trans proper)
  have further : (parts ++ rest).all Task.isProper = true := by
    rw [List.all_append, steps.expands.proper here, behind]
    rfl
  by_cases closes : task = .leave
  · subst closes
    obtain ⟨rfl, rfl⟩ := EStateM.Result.ok.inj (done : EStateM.Result.ok [] _ = .ok parts after)
    rw [List.count_cons_self] at depth
    exact ⟨Nat.sub_eq_of_eq_add depth, (Nat.sub_le _ _).trans within, further⟩
  by_cases opens : ∃ inner, task = .nested inner
  · obtain ⟨inner, rfl⟩ := opens
    have stepped : (Task.nested inner).perform s = (do enter; return [inner, .leave]) s := rfl
    have inside : inner ≠ .leave := of_decide_eq_true (Bool.and_eq_true_iff.mp here).1
    by_cases room : s.depth < maxNesting
    · rw [stepped, bind_of_ok (enter_of_room room)] at done
      obtain ⟨rfl, rfl⟩ := pure_eq_ok.1 done
      refine ⟨?_, room, further⟩
      rw [List.count_cons_of_ne (by simp)] at depth
      simp [inside, depth]
    · rw [stepped, bind_of_error (enter_of_full room)] at done
      cases done
  · have other : ∀ inner, task ≠ .nested inner := fun inner same => opens ⟨inner, same⟩
    have kept := ((Task.flat_perform other closes).adds s).2
    rw [leaves_of_ok done] at kept
    refine ⟨?_, kept ▸ within, further⟩
    rw [kept, depth, List.count_append, steps.expands.count_leave other, Nat.zero_add,
      List.count_cons_of_ne closes]

theorem depth_of_error (failed : task.perform s = .error fault after) :
    task ≠ .leave ∧ after.depth = s.depth := by
  have closes : task ≠ .leave := by
    rintro rfl
    cases failed
  refine ⟨closes, ?_⟩
  by_cases opens : ∃ inner, task = .nested inner
  · obtain ⟨inner, rfl⟩ := opens
    have stepped : (Task.nested inner).perform s = (do enter; return [inner, .leave]) s := rfl
    by_cases room : s.depth < maxNesting
    · rw [stepped, bind_of_ok (enter_of_room room)] at failed
      cases failed
    · rw [stepped, bind_of_error (enter_of_full room)] at failed
      obtain ⟨_, rfl⟩ := EStateM.Result.error.inj failed
      rfl
  · have kept := ((Task.flat_perform (fun inner same => opens ⟨inner, same⟩) closes).adds s).2
    rwa [leaves_of_error failed] at kept

/-- A run closes all levels, whether it comes to its end or not. -/
theorem run (leveled : Leveled tasks s) : (leaves (run tasks) s).depth = 0 := by
  simp only [leaves]
  fun_induction Compilation.run tasks s with
  | case1 s => exact leveled.depth
  | case2 s task rest parts after performed ih => exact ih (leveled.step performed)
  | case3 s task rest fault after performed =>
    obtain ⟨closes, kept⟩ := depth_of_error performed
    have depth := leveled.depth
    rw [List.count_cons_of_ne closes, ← kept] at depth
    exact Nat.sub_eq_zero_of_le depth.le

theorem reaches (leveled : Leveled tasks s) (reaches : Reaches tasks s passed others t) :
    Leveled others t := by
  induction reaches with
  | refl => exact leveled
  | stay steps _ ih =>
    exact ih (leveled.step (steps.alike _ _ (.inl (.refl _)) steps.proceeds))
  | pass steps _ ih =>
    exact ih (leveled.step (steps.alike _ _ (.inl (.refl _)) steps.proceeds))

/-- A step of a run stays within the limit, whether it succeeds or fails. -/
theorem within_step (leveled : Leveled (task :: rest) s) :
    (leaves task.perform s).depth ≤ maxNesting := by
  cases done : task.perform s with
  | ok parts after =>
    rw [leaves_of_ok done]
    exact (leveled.step done).within
  | error fault after =>
    rw [leaves_of_error done, (depth_of_error done).2]
    exact leveled.within

end Leveled

theorem leveled_program (outside : s.depth = 0) (halting : Bool) :
    Leveled (Task.program halting) s := by
  refine ⟨?_, outside ▸ Nat.zero_le _, ?_⟩
  · rw [outside]
    cases halting <;> rfl
  · cases halting <;> rfl

theorem program_of_other (other : s.lookahead.token ≠ .mark .void) (halting : Bool) :
    program halting s =
      .error (.unexpected s.line "'void'" s.lookahead.token.description) s := by
  have differs : s.lookahead.kind ≠ .mark .void := by
    intro same
    cases seen : s.lookahead.token <;> simp_all [Located.kind, Token.kind]
  have failed : (Task.pass .void).perform s =
      .error (.unexpected s.line "'void'" s.lookahead.token.description) s := by
    change ((if s.lookahead.kind = .mark .void then advance
      else unexpected (Kind.mark .void).description) >>= fun _ => pure []) s = _
    rw [if_neg differs]
    rfl
  have stopped := run_cons_error (Task.program halting).tail failed
  have still : unwind (Task.program halting).tail s = s := by cases halting <;> rfl
  rw [still] at stopped
  exact stopped

/-- Whatever comes of asking for a program, no level is open behind it, and on the way there were
never more than the limit. Code, symbols and labels are added to. Where there is no `void` in front,
nothing changes. -/
theorem program_unwinds (outside : s.depth = 0) (halting : Bool) :
    (leaves (program halting) s).depth = 0 ∧
      (∀ passed task rest t, Reaches (Task.program halting) s passed (task :: rest) t →
        t.depth ≤ maxNesting ∧ (leaves task.perform t).depth ≤ maxNesting) ∧
      s.Extends (leaves (program halting) s) ∧
      (s.lookahead.token ≠ .mark .void → program halting s =
        .error (.unexpected s.line "'void'" s.lookahead.token.description) s) := by
  have leveled := leveled_program outside halting
  refine ⟨leveled.run, fun passed task rest t reaches => ?_, run_extends _ s,
    fun other => program_of_other other halting⟩
  have there := leveled.reaches reaches
  exact ⟨there.within, there.within_step⟩

/-- `void main { if (1) { int a[2]; print((1 +;`: the operand is missing five levels deep. -/
def unfinished : List Located :=
  [.mark .void, .mark .main, .mark .openBrace, .mark .if, .mark .openParen, .integer 1,
    .mark .closeParen, .mark .openBrace, .mark .int, .name "a", .mark .openBracket, .integer 2,
    .mark .closeBracket, .mark .semicolon, .mark .print, .mark .openParen, .mark .openParen,
    .integer 1, .mark .plus, .mark .semicolon].map fun token => ⟨token, {}⟩

/-- The call fails and closes its levels, and the next one, which finds a semicolon in front,
changes nothing. -/
theorem program_unwinds_unfinished : ∃ initial after fault,
    start (.ofTokens unfinished) {} = .ok initial ∧ initial.depth = 0 ∧
    program true initial = .error (.unexpected 1 "'(', literal or identifier" "';'") after ∧
    after.depth = 0 ∧ initial.Extends after ∧ program true after = .error fault after := by
  let initial : State := { source := .given unfinished.tail 1, lookahead := ⟨.mark .void, {}⟩ }
  have started : start (.ofTokens unfinished) {} = .ok initial := rfl
  have stopped : (match program true initial with
      | .ok _ _ => none
      | .error fault after => some (fault, after.lookahead.token)) =
      some (.unexpected 1 "'(', literal or identifier" "';'", .mark .semicolon) := by cbv
  obtain ⟨closed, _, added, _⟩ := program_unwinds (s := initial) rfl true
  cases done : program true initial with
  | ok value after =>
    rw [done] at stopped
    cases stopped
  | error fault after =>
    rw [done] at stopped
    rw [leaves_of_error done] at closed added
    obtain ⟨rfl, seen⟩ := Prod.mk.inj (Option.some.inj stopped)
    obtain ⟨_, _, _, still⟩ := program_unwinds closed true
    exact ⟨initial, after, _, started, rfl, done, closed, added, still (by simp [seen])⟩

end Compilation

end OnePass
