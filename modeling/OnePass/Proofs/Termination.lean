import Mathlib
import OnePass.Proofs.Renaming
import OnePass.Proofs.Unwinding

/-! Why a compilation ends. A rule that succeeds passes a token, no rule but that of the program
passes the end of input, and each token that is passed leaves less to read. So wherever a rule is
come to again in its own course, there is less in front of it, and the number of steps of a run is
bounded by a multiple of what is left to read. -/
namespace OnePass

namespace Input

/-- What is left to read, the token in front included. -/
def remaining (i : Input) : Nat := i.lookahead.weight + i.source.remaining

variable {i j k : Input} {passed : List Located}

theorem Moves.remaining_le (moved : i.Moves j) : j.remaining ≤ i.source.remaining :=
  Source.weight_next_le moved

theorem Moves.remaining_lt (moved : i.Moves j) (inner : i.token ≠ .finish) :
    j.remaining < i.remaining := by
  have bound := moved.remaining_le
  have weight : i.lookahead.weight = 1 := if_neg inner
  unfold remaining at bound ⊢
  omega

theorem Passes.remaining_le (passes : i.Passes passed k)
    (inner : ∀ token ∈ passed, token.token ≠ .finish) :
    k.remaining + passed.length ≤ i.remaining := by
  induction passed generalizing i with
  | nil =>
    obtain rfl : i = k := passes
    exact le_rfl
  | cons token rest ih =>
    obtain ⟨rfl, j, moved, further⟩ := passes
    obtain ⟨first, others⟩ := List.forall_mem_cons.mp inner
    have shorter := moved.remaining_lt first
    have behind := ih further others
    rw [List.length_cons]
    omega

theorem Passes.append {first second : List Located} (left : i.Passes first j)
    (right : j.Passes second k) : i.Passes (first ++ second) k := by
  induction first generalizing i with
  | nil =>
    obtain rfl : i = j := left
    exact right
  | cons token rest ih =>
    obtain ⟨seen, middle, moved, further⟩ := left
    exact ⟨seen, middle, moved, ih further⟩

/-- Passing given tokens leads to an input, or to one where the next token cannot be read. Then the
token in front stays. -/
inductive Ends (first : Input) (tokens : List Located) : Input → Prop where
  | whole {last} : first.Passes tokens last → Ends first tokens last
  | broken {last source fault} : first.Passes tokens last →
      last.source.next = (.error fault, source) → Ends first tokens ⟨last.lookahead, source⟩

theorem Passes.ends {first second : List Located} (left : i.Passes first j)
    (right : j.Ends second k) : i.Ends (first ++ second) k := by
  cases right with
  | whole passes => exact .whole (left.append passes)
  | broken passes failed => exact .broken (left.append passes) failed

theorem Ends.remaining_le (ends : i.Ends passed k)
    (inner : ∀ token ∈ passed, token.token ≠ .finish) :
    k.remaining + passed.length ≤ i.remaining := by
  cases ends with
  | whole passes => exact passes.remaining_le inner
  | @broken j source fault passes failed =>
    have fewer := j.source.remaining_next_le
    have bound := passes.remaining_le inner
    rw [failed] at fewer
    unfold remaining at bound ⊢
    dsimp only at fewer ⊢
    omega

end Input

namespace Task

/-- A task for tokens of the program, and not for the end of input. -/
def isInner : Task → Bool
  | expect kind => kind ≠ .finish
  | nested inner => inner.isInner
  | _ => true

variable {task : Task} {token : Token} {passes : Bool} {names : List String} {parts : List Task}

theorem Expands.isInner (expands : task.Expands token passes names parts)
    (inner : task.isInner = true) : ∀ part ∈ parts, part.isInner = true := by
  apply List.all_eq_true.mp
  cases expands with
  | nested =>
    rw [List.all_cons, Bool.and_eq_true_iff]
    exact ⟨inner, rfl⟩
  | level tier => cases tier <;> rfl
  | @chain tier => cases tier <;> rfl
  | _ => rfl

theorem Expands.ne_finish (expands : task.Expands token true names parts)
    (inner : task.isInner = true) : token ≠ .finish := by
  rintro rfl
  cases expands with
  | expect => cases inner
  | @chain tier _ op found =>
    rw [operator?_finish] at found
    cases found

/-- What is sure to pass a token and does not do so at once leaves such a task behind. -/
theorem Expands.exists_consumes (expands : task.Expands token false names parts)
    (sure : task.consumes = true) : ∃ part ∈ parts, part.consumes = true := by
  cases expands with
  | nested => exact ⟨_, List.mem_cons_self, sure⟩
  | inner type => exact ⟨_, List.mem_cons_self, rfl⟩
  | branch skip => exact ⟨_, List.mem_cons_self, rfl⟩
  | loopBody top bottom => exact ⟨_, List.mem_cons_self, rfl⟩
  | level tier => exact ⟨_, List.mem_cons_self, by cases tier <;> rfl⟩
  | _ => cases sure

end Task

namespace Compilation

variable {task : Task} {tasks others parts : List Task} {s t after : State} {passed : List Located}
  {fault : Diagnostic}

/-! What a step does to the input. -/

theorem Steps.perform {passes : Bool} {names : List String}
    (steps : Steps task s passes names parts after) : task.perform s = .ok parts after :=
  steps.alike _ _ (.inl (.refl _)) steps.proceeds

/-- A step passes the token in front at most, and if the next one cannot be read it stays. -/
theorem Script.ends {i : Input} {passes ahead : Bool} {names : List String}
    {step : Compilation (List Task)} (script : Script task i passes ahead names step) (s : State) :
    (leaves step s).input = s.input ∨ ahead = true ∧
      (s.input.Ends [] (leaves step s).input ∨ s.input.Ends [s.lookahead] (leaves step s).input) := by
  induction script generalizing s with
  | give => exact .inl rfl
  | refuse => exact .inl rfl
  | advance script ih =>
    refine .inr ⟨rfl, ?_⟩
    rcases delivered : s.source.next with ⟨cause | token, source⟩
    · rw [leaves_bind_of_error (advance_of_fault delivered)]
      have here : s.input.Passes [] s.input := rfl
      exact .inl (.broken here delivered)
    · have moved : s.input.Moves ⟨token, source⟩ := delivered
      rw [leaves_bind_of_ok (advance_of_moves moved)]
      -- a step reads ahead once at most
      rcases ih (s.facing ⟨token, source⟩) with still | ⟨none, _⟩
      · rw [still]
        exact .inr (.whole ⟨rfl, _, moved, rfl⟩)
      · cases none
  | emit instruction script ih => exact ih { s with code := s.code.push instruction }
  | fresh script ih => exact ih _ _
  | leave script ih => exact ih { s with depth := s.depth - 1 }
  | declare entry line blames script ih =>
    by_cases present : entry.name ∈ s.symbols.names
    · rw [leaves_bind_of_error (declare_of_known present)]
      exact .inl rfl
    · rw [leaves_bind_of_ok (declare_of_unknown present)]
      exact ih _
  | pushName name line blames script ih =>
    by_cases present : name ∈ s.symbols.names
    · rw [leaves_bind_of_ok (pushName_of_known line present)]
      exact ih _
    · rw [leaves_bind_of_error (pushName_of_unknown line present)]
      exact .inl rfl

theorem leaves_enter (s : State) : (leaves (do enter; return parts) s).input = s.input := by
  by_cases room : s.depth < maxNesting
  · rw [leaves_bind_of_ok (enter_of_room room)]
    rfl
  · rw [leaves_bind_of_error (enter_of_full room)]

theorem perform_ends (task : Task) (s : State) :
    s.input.Ends [] (leaves task.perform s).input ∨
      s.input.Ends [s.lookahead] (leaves task.perform s).input := by
  obtain ⟨passes, step, acts, same⟩ := task.perform_acts s.input
  have stepped : leaves task.perform s = leaves step s := by
    unfold leaves
    rw [same s (.inl (.refl _))]
  rw [stepped]
  cases acts with
  | script script =>
    rcases script.ends s with still | ⟨_, ends⟩
    · exact .inl (.whole still.symm)
    · exact ends
  | unexpected expected => exact .inl (.whole rfl)
  | enter expands blames => exact .inl (.whole (leaves_enter s).symm)

theorem leaves_declare (entry : Entry) (line : Nat) {next : Compilation (List Task)}
    (still : ∀ s, (leaves next s).input = s.input) (s : State) :
    (leaves (do declare entry.name entry.type line; next) s).input = s.input := by
  by_cases present : entry.name ∈ s.symbols.names
  · rw [leaves_bind_of_error (declare_of_known present)]
  · rw [leaves_bind_of_ok (declare_of_unknown present)]
    exact still _

/-- In front of the end of input no task for something else moves. -/
theorem leaves_of_finish (ended : s.lookahead.token = .finish) (inner : task.isInner = true) :
    (leaves task.perform s).input = s.input := by
  obtain ⟨source, ⟨token, place⟩, symbols, code, labels, depth, events⟩ := s
  obtain rfl : token = .finish := ended
  cases task with
  | expect kind =>
    have differs : Kind.finish ≠ kind := Ne.symm (of_decide_eq_true inner)
    change (leaves ((if Kind.finish = kind then advance else unexpected kind.description) >>=
      fun _ => pure []) _).input = _
    rw [if_neg differs]
    rfl
  | nested inner => exact leaves_enter _
  | declared type name line =>
    exact leaves_declare ⟨name, .scalar type⟩ line (fun s => rfl) _
  | declareArray element name line size =>
    exact leaves_declare ⟨name, .array element size⟩ line (fun s => rfl) _
  | chain tier => cases tier <;> rfl
  | _ => rfl

theorem exists_ends_perform (inner : task.isInner = true) (s : State) :
    ∃ more, s.input.Ends more (leaves task.perform s).input ∧
      ∀ token ∈ more, token.token ≠ .finish := by
  by_cases ended : s.lookahead.token = .finish
  · exact ⟨[], .whole (leaves_of_finish ended inner).symm, List.forall_mem_nil _⟩
  · rcases perform_ends task s with still | moved
    · exact ⟨[], still, List.forall_mem_nil _⟩
    · exact ⟨[s.lookahead], moved, List.forall_mem_singleton.mpr ended⟩

namespace Reaches

theorem run_eq (reaches : Reaches tasks s passed others t) : run tasks s = run others t := by
  induction reaches with
  | refl => rfl
  | stay steps _ ih => rw [run_cons_ok _ steps.perform, ih]
  | pass steps _ ih => rw [run_cons_ok _ steps.perform, ih]

theorem inner (reaches : Reaches tasks s passed others t)
    (all : ∀ task ∈ tasks, task.isInner = true) :
    (∀ token ∈ passed, token.token ≠ .finish) ∧ ∀ task ∈ others, task.isInner = true := by
  induction reaches with
  | refl => exact ⟨List.forall_mem_nil _, all⟩
  | stay steps _ ih =>
    obtain ⟨here, behind⟩ := List.forall_mem_cons.mp all
    apply ih
    exact List.forall_mem_append.mpr ⟨steps.expands.isInner here, behind⟩
  | pass steps _ ih =>
    obtain ⟨here, behind⟩ := List.forall_mem_cons.mp all
    obtain ⟨tokens, left⟩ :=
      ih (List.forall_mem_append.mpr ⟨steps.expands.isInner here, behind⟩)
    exact ⟨List.forall_mem_cons.mpr ⟨steps.expands.ne_finish here, tokens⟩, left⟩

/-- A task that is sure to pass a token is not done without one. -/
theorem exists_consumes (reaches : Reaches tasks s passed others t)
    (sure : ∃ task ∈ tasks, task.consumes = true) :
    passed ≠ [] ∨ ∃ task ∈ others, task.consumes = true := by
  induction reaches with
  | refl => exact .inr sure
  | stay steps _ ih =>
    apply ih
    obtain ⟨task, member, consumes⟩ := sure
    rcases List.mem_cons.mp member with rfl | behind
    · obtain ⟨part, first, consumes⟩ := steps.expands.exists_consumes consumes
      exact ⟨part, List.mem_append_left _ first, consumes⟩
    · exact ⟨task, List.mem_append_right _ behind, consumes⟩
  | pass steps _ _ => exact .inl (List.cons_ne_nil _ _)

end Reaches

/-- A rule that takes tokens of the program only, each of which leaves less to read, and at least
one where it succeeds. -/
def Consuming (rule : Task) : Prop :=
  ∀ s, ∃ passed, s.input.Ends passed (leaves (run [rule]) s).input ∧
    (∀ token ∈ passed, token.token ≠ .finish) ∧
    (leaves (run [rule]) s).remaining + passed.length ≤ s.remaining ∧
    ∀ after, run [rule] s = .ok () after →
      passed ≠ [] ∧ ∀ rest, run (rule :: rest) s = run rest after

theorem consuming_of_consumes {rule : Task} (inner : rule.isInner = true)
    (sure : rule.consumes = true) : Consuming rule := by
  intro s
  have all : ∀ task ∈ [rule], task.isInner = true := List.forall_mem_singleton.mpr inner
  cases done : run [rule] s with
  | ok value last =>
    obtain ⟨passed, reaches⟩ := exists_reaches_of_ok done
    have tokens := (reaches.inner all).1
    have ends : s.input.Ends passed last.input := .whole reaches.passes
    have some : passed ≠ [] := by
      rcases reaches.exists_consumes ⟨rule, List.mem_cons_self, sure⟩ with some | ⟨_, member, _⟩
      · exact some
      · cases member
    rw [leaves_of_ok done]
    refine ⟨passed, ends, tokens, ends.remaining_le tokens, fun after same => ⟨some, fun rest => ?_⟩⟩
    exact run_append_of_ok (done.trans same)
  | error fault last =>
    obtain ⟨passed, task, rest, t, after, reaches, failed⟩ := exists_reaches_of_error done
    obtain ⟨tokens, left⟩ := reaches.inner all
    -- the task that fails may have passed a token before it does
    obtain ⟨more, ends, others⟩ := exists_ends_perform (left task List.mem_cons_self) t
    have stopped := (reaches.run_eq.trans (run_cons_error rest failed)).symm.trans done
    obtain ⟨_, rfl⟩ := EStateM.Result.error.inj stopped
    rw [leaves_of_error failed] at ends
    rw [leaves_of_error done]
    have whole : s.input.Ends (passed ++ more) after.input := reaches.passes.ends ends
    have inside : ∀ token ∈ passed ++ more, token.token ≠ .finish :=
      List.forall_mem_append.mpr ⟨tokens, others⟩
    exact ⟨passed ++ more, whole, inside, whole.remaining_le inside, nofun⟩

/-! Tasks in the course of others. -/

/-- One task is performed in the course of another. -/
def Enters (inner outer : Task × State) : Prop :=
  ∃ parts middle passed rest, outer.1.perform outer.2 = .ok parts middle ∧
    Reaches parts middle passed (inner.1 :: rest) inner.2

theorem cost_le_of_step {rest : List Task} (performed : task.perform s = .ok parts after)
    (further : t.remaining < after.remaining ∨ t.remaining = after.remaining ∧
      ∀ more, Task.cost (others ++ more) ≤ Task.cost (parts ++ rest ++ more)) :
    t.remaining < s.remaining ∨ t.remaining = s.remaining ∧
      ∀ more, Task.cost (others ++ more) ≤ Task.cost (task :: rest ++ more) := by
  rcases Task.perform_advances performed with shorter | ⟨same, cheaper⟩
  · left
    omega
  · rcases further with shorter | ⟨still, bound⟩
    · exact .inl (same ▸ shorter)
    · refine .inr ⟨still.trans same, fun more => (bound more).trans ?_⟩
      rw [List.append_assoc]
      exact (cheaper (rest ++ more)).le

theorem Reaches.cost_le (reaches : Reaches tasks s passed others t) :
    t.remaining < s.remaining ∨ t.remaining = s.remaining ∧
      ∀ more, Task.cost (others ++ more) ≤ Task.cost (tasks ++ more) := by
  induction reaches with
  | refl => exact .inr ⟨rfl, fun _ => le_rfl⟩
  | stay steps _ ih => exact cost_le_of_step steps.perform ih
  | pass steps _ ih => exact cost_le_of_step steps.perform ih

/-- What is performed in the course of a task has less to read in front of it, or it stands below
the task in the hierarchy of the rules. -/
theorem Enters.descends {inner outer : Task × State} (enters : Enters inner outer) :
    Prod.Lex (· < ·) (· < ·) (inner.2.remaining, inner.1.rank)
      (outer.2.remaining, outer.1.rank) := by
  obtain ⟨parts, middle, passed, rest, performed, reaches⟩ := enters
  rcases Task.perform_advances performed with shorter | ⟨same, cheaper⟩
  · rcases reaches.cost_le with further | ⟨still, _⟩
    · exact .left _ _ (further.trans shorter)
    · rw [still]
      exact .left _ _ shorter
  · rcases reaches.cost_le with further | ⟨still, bound⟩
    · exact .left _ _ (same ▸ further)
    · -- no token is passed on the way, so the rank of the task pays for all that it leaves
      have first : inner.1.rank ≤ Task.cost (inner.1 :: rest ++ []) := by
        rw [List.append_nil, Task.cost]
        exact Nat.le_add_right _ _
      have last : Task.cost [outer.1] = outer.1.rank := by
        simp
      rw [still, same]
      apply Prod.Lex.right
      have less := cheaper []
      have most := bound []
      omega

theorem wellFounded_enters : WellFounded Enters := by
  have order : WellFounded (Prod.Lex (· < ·) (· < ·) : Nat × Nat → Nat × Nat → Prop) :=
    (Prod.lex Nat.lt_wfRel Nat.lt_wfRel).wf
  exact Subrelation.wf Enters.descends
    (InvImage.wf (fun pair : Task × State => (pair.2.remaining, pair.1.rank)) order)

end Compilation

namespace Task

/-- The steps that a task may take, apart from twenty for each token that is passed. What a loop
tries again and again passes a token and is paid for by it in advance. -/
def toll : Task → Int
  | nested inner => inner.toll + 2
  | declaration => -4
  | statement => -3
  | loopBody _ => 2
  | operand => 0
  | level .product => 2
  | level .sum => 4
  | level .comparison => 6
  | level .conjunction => 8
  | level .disjunction => 10
  | _ => 1

def tolls (tasks : List Task) : Int := (tasks.map toll).sum

theorem neg_four_le_toll (task : Task) : -4 ≤ task.toll := by
  induction task with
  | nested inner ih =>
    rw [toll]
    omega
  | level tier => cases tier <;> simp [toll]
  | _ => simp [toll]

variable {task : Task} {token : Token} {passes : Bool} {names : List String} {parts : List Task}

theorem Expands.tolls_le (expands : task.Expands token passes names parts) :
    1 + tolls parts ≤ task.toll + if passes = true ∧ token ≠ .finish then 20 else 0 := by
  cases expands with
  | level tier => cases tier <;> simp [tolls, toll, operandOf]
  | @chain tier _ op found =>
    have inner : token ≠ .finish := (Expands.chain found).ne_finish rfl
    cases tier <;> simp [tolls, toll, operandOf, Tier.chains, inner]
  | expect =>
    simp only [tolls, toll, List.map_nil, List.sum_nil]
    split <;> omega
  | nested =>
    simp only [tolls, toll, List.map_cons, List.map_nil, List.sum_cons, List.sum_nil]
    split <;> omega
  | _ => simp [tolls, toll, declaratorList, expression, instruction, pass, condition]

/-- What is paid for in advance is performed at once. -/
theorem Expands.tail_toll (expands : task.Expands token passes names parts) :
    ∀ part ∈ parts.tail, 0 ≤ part.toll := by
  cases expands with
  | @chain tier => cases tier <;> simp [toll, Tier.chains]
  | _ => simp [toll, declaratorList, expression, instruction, pass, condition]

end Task

namespace Compilation

variable {task : Task} {tasks parts : List Task} {s after : State}

/-- The result of a run if it takes so many steps at most. -/
def runWithin : Nat → List Task → State → Option (EStateM.Result Diagnostic State Unit)
  | _, [], s => some (.ok () s)
  | 0, _ :: _, _ => none
  | bound + 1, task :: rest, s =>
    match task.perform s with
    | .ok parts after => runWithin bound (parts ++ rest) after
    | .error fault after => some (.error fault (unwind rest after))

theorem Steps.tolls_le {passes : Bool} {names : List String}
    (steps : Steps task s passes names parts after) :
    1 + Task.tolls parts + 20 * after.remaining ≤ task.toll + 20 * s.remaining := by
  have bound := steps.expands.tolls_le
  cases passes with
  | false =>
    have still : s.input = after.input := steps.proceeds
    have same : s.remaining = after.remaining := congrArg Input.remaining still
    rw [if_neg (by simp)] at bound
    omega
  | true =>
    have moved : s.input.Moves after.input := steps.proceeds
    by_cases ended : s.input.token = .finish
    · have fewer : after.remaining ≤ s.source.remaining := moved.remaining_le
      have whole : s.source.remaining ≤ s.remaining := Nat.le_add_left _ _
      rw [if_neg (fun given => given.2 ended)] at bound
      omega
    · have fewer : after.remaining < s.remaining := moved.remaining_lt ended
      rw [if_pos ⟨rfl, ended⟩] at bound
      omega

theorem runWithin_eq_run {bound : Nat} (paid : ∀ task ∈ tasks.tail, 0 ≤ task.toll)
    (enough : Task.tolls tasks + 20 * s.remaining + 5 ≤ bound) :
    runWithin bound tasks s = some (run tasks s) := by
  induction bound generalizing tasks s with
  | zero =>
    cases tasks with
    | nil => rw [runWithin, run_nil]
    | cons task rest =>
      -- the task in front may be paid for in advance, and a step is left for it even then
      have least := task.neg_four_le_toll
      have others : 0 ≤ Task.tolls rest := List.sum_nonneg (by simpa using paid)
      have whole : Task.tolls (task :: rest) = task.toll + Task.tolls rest := rfl
      omega
  | succ bound ih =>
    cases tasks with
    | nil => rw [runWithin, run_nil]
    | cons task rest =>
      rw [runWithin]
      cases done : task.perform s with
      | error fault after => rw [run_cons_error rest done]
      | ok parts after =>
        obtain ⟨passes, names, steps⟩ := steps_of_perform done
        have step := steps.tolls_le
        have before : Task.tolls (task :: rest) = task.toll + Task.tolls rest := rfl
        have behind : Task.tolls (parts ++ rest) = Task.tolls parts + Task.tolls rest := by
          rw [Task.tolls, List.map_append, List.sum_append, Task.tolls, Task.tolls]
        rw [run_cons_ok rest done]
        apply ih
        · cases parts with
          | nil => exact fun other member => paid other (List.mem_of_mem_tail member)
          | cons part parts =>
            exact List.forall_mem_append.mpr ⟨steps.expands.tail_toll, paid⟩
        · push_cast at enough
          omega

/-- A compilation ends because whatever is repeated passes a token. Asking for a program takes a
number of steps that is bounded by what is left to read. Instructions, declarations and expressions
take tokens of the program only, and at least one where they succeed. Each token that is taken off
the source, and each that is passed, leaves less to read. So what is performed in the course of a
task has less in front of it, unless it stands below the task in the hierarchy of the rules. -/
theorem program_ends (halting : Bool) (s : State) :
    runWithin (20 * s.remaining + 13) (Task.program halting) s = some (program halting s) ∧
      (∀ rule ∈ [Task.instruction, .declaration, .expression, .level .sum], Consuming rule) ∧
      (∀ (source after : Source) (token : Located), source.next = (.ok token, after) →
        token.token ≠ .finish → after.remaining < source.remaining) ∧
      (∀ i j : Input, i.Moves j → i.token ≠ .finish → j.remaining < i.remaining) ∧
      WellFounded Enters ∧
      ∀ inner outer, Enters inner outer → outer.1.rank ≤ inner.1.rank →
        inner.2.remaining < outer.2.remaining := by
  refine ⟨?_, ?_, fun source after token delivered inner => ?_, fun i j => Input.Moves.remaining_lt,
    wellFounded_enters, fun inner outer enters above => ?_⟩
  · apply runWithin_eq_run
    · cases halting <;> simp [Task.program, Task.toll, Task.pass]
    · cases halting <;> simp [Task.program, Task.tolls, Task.toll, Task.pass] <;> omega
  · intro rule member
    simp only [List.mem_cons, List.not_mem_nil, or_false] at member
    rcases member with rfl | rfl | rfl | rfl <;> exact consuming_of_consumes rfl rfl
  · have bound := Source.weight_next_le delivered
    have weight : token.weight = 1 := if_neg inner
    omega
  · rcases Prod.lex_def.mp enters.descends with shorter | ⟨_, below⟩
    · exact shorter
    · exact absurd below (Nat.not_lt.mpr above)

/-- `v[v[0]]`, where `v` is known. -/
def indexed : State where
  lookahead := ⟨.name "v", {}⟩
  source := .given ([.mark .openBracket, .name "v", .mark .openBracket, .integer 0,
    .mark .closeBracket, .mark .closeBracket].map fun token => ⟨token, {}⟩) 1
  symbols := SymbolTable.empty.add ⟨"v", .array .int 3⟩

/-- The operand inside the index of another opens no level, but there is less in front of it. The
whole expression is passed with success. -/
theorem program_ends_indexed :
    (∃ inner : State, Enters (.operand, inner) (.operand, indexed) ∧ inner.depth = indexed.depth ∧
      inner.remaining < indexed.remaining) ∧
    ∃ passed after, run [.level .sum] indexed = .ok () after ∧
      indexed.input.Ends passed after.input ∧ passed ≠ [] ∧
      after.remaining + passed.length ≤ indexed.remaining := by
  obtain ⟨_, consuming, _, _, _, shrinks⟩ := program_ends true indexed
  constructor
  · let named : State := leaves Task.operand.perform indexed
    let inner : State := leaves Task.index.perform named
    have operand : Task.operand.perform indexed = .ok [.index, .emit .load] named := rfl
    have index : Task.index.perform named =
      .ok [.level .sum, .pass .closeBracket, .emit (.binary .add)] inner := rfl
    have sum : (Task.level .sum).perform inner = .ok [.level .product, .chain .sum] inner := rfl
    have product : (Task.level .product).perform inner = .ok [.operand, .chain .product] inner := rfl
    obtain ⟨passed, reaches⟩ : ∃ passed, Reaches [.index, .emit .load] named passed
        [.operand, .chain .product, .chain .sum, .pass .closeBracket, .emit (.binary .add),
          .emit .load] inner := by
      apply exists_reaches_of_step index
      apply exists_reaches_of_step sum
      apply exists_reaches_of_step product
      exact ⟨[], .refl⟩
    have enters : Enters (.operand, inner) (.operand, indexed) := ⟨_, _, _, _, operand, reaches⟩
    exact ⟨inner, enters, rfl, shrinks _ _ enters le_rfl⟩
  · have succeeds : (match run [.level .sum] indexed with
        | .ok _ _ => true
        | .error _ _ => false) = true := by cbv
    cases done : run [.level .sum] indexed with
    | error fault after =>
      rw [done] at succeeds
      cases succeeds
    | ok value after =>
      obtain ⟨passed, ends, _, bound, whole⟩ := consuming (.level .sum) (by simp) indexed
      rw [leaves_of_ok done] at ends bound
      exact ⟨passed, after, rfl, ends, (whole after done).1, bound⟩

end Compilation

end OnePass
