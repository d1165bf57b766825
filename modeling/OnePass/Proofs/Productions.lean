import Mathlib
import OnePass.Proofs.Yield

/-! What performing a task can come to. A task looks at one token and then acts without looking
again: it passes the token or stays in front of it, and leaves the tasks of a production of the
grammar. So it does the same on all inputs that begin with the same token. -/
namespace OnePass

namespace Input

/-- The line that a fault in front of the input is reported with. -/
def line (i : Input) : Nat :=
  if i.lookahead.token = .finish then i.source.line else i.lookahead.place.line

/-- Going past the token in front, or staying there. -/
def Proceeds (i : Input) : Bool → Input → Prop
  | true, j => i.Moves j
  | false, j => i = j

/-- Inputs in which a compilation sees the same. -/
structure Looks (i j : Input) : Prop where
  token : i.token = j.token
  place : i.lookahead.place.line = j.lookahead.place.line
  line : i.line = j.line

theorem Looks.refl (i : Input) : i.Looks i := ⟨rfl, rfl, rfl⟩

/-- Inputs in front of which a task does the same. If it stays there, it does the same in front of
all names. -/
def Resembles (i : Input) (passes : Bool) (j : Input) : Prop :=
  i.Looks j ∨ passes = false ∧ ∃ one other, i.token = .name one ∧ j.token = .name other

theorem Resembles.looks {i j : Input} (same : i.Resembles true j) : i.Looks j := by
  rcases same with looks | ⟨none, _⟩
  · exact looks
  · cases none

theorem Resembles.congr {α : Type} {i j : Input} {passes : Bool} (same : i.Resembles passes j)
    (act : Token → α) (names : ∀ one other, act (.name one) = act (.name other)) :
    act i.token = act j.token := by
  rcases same with looks | ⟨_, one, other, here, there⟩
  · rw [looks.token]
  · rw [here, there, names one other]

end Input

namespace Task

/-- The productions of the grammar: what a task in front of a token turns into, whether the token
is passed, and the names that are declared by it. -/
inductive Expands : Task → Token → Bool → List String → List Task → Prop where
  | expect {token} : Expands (expect token.kind) token true [] []
  | emit {instruction token} : Expands (emit instruction) token false [] []
  | nested {inner token} : Expands (nested inner) token false [] [inner, leave]
  | leave {token} : Expands leave token false [] []
  | declarations {token} : Expands declarations token false [] [declaration, declarations]
  | declarationsEnd {token} : Expands declarations token false [] []
  | declaration (type : Scalar) :
      Expands declaration (.mark type.mark) true [] (declaratorList type)
  | declarator {type name line} :
      Expands (declarator type) (.name name) true [] [declared type name line]
  | declarators {type} :
      Expands (declarators type) (.mark .comma) true [] [declarator type, declarators type]
  | declaratorsEnd {type token} : Expands (declarators type) token false [] []
  | arrayBegin {type name line} :
      Expands (declared type name line) (.mark .openBracket) true [] [arraySize type name line]
  | initialValue {type name line} :
      Expands (declared type name line) (.mark .assign) true [name] [expression, emit .store]
  | declaredEnd {type name line token} : Expands (declared type name line) token false [name] []
  | arraySize {element name line size} : 0 < size →
      Expands (arraySize element name line) (.integer size) true []
        [pass .closeBracket, declareArray element name line size.toNat]
  | declareArray {element name line size token} :
      Expands (declareArray element name line size) token false [name] []
  | instructions {token} : Expands instructions token false [] [instruction, instructions]
  | instructionsEnd {token} : Expands instructions token false [] []
  | assignment {name} : Expands statement (.name name) true []
      [index, pass .assign, expression, emit .store, pass .semicolon]
  | inner (type : Scalar) : Expands statement (.mark type.mark) false [] [declaration]
  | print : Expands statement (.mark .print) true []
      (condition ++ [pass .semicolon, emit .print])
  | conditional : Expands statement (.mark .if) true [] (condition ++ [branch])
  | whileLoop {top} : Expands statement (.mark .while) true [] (condition ++ [loopBody top])
  | doLoop {top} : Expands statement (.mark .do) true []
      ([instruction, pass .while] ++ condition ++ [pass .semicolon, loopTest top])
  | block : Expands statement (.mark .openBrace) true [] [instructions, pass .closeBrace]
  | branch {token} (skip) : Expands branch token false [] [instruction, otherwise skip]
  | otherwise {skip bottom} :
      Expands (otherwise skip) (.mark .else) true [] [instruction, emit (.label bottom)]
  | otherwiseEnd {skip token} : Expands (otherwise skip) token false [] []
  | loopBody {token} (top bottom) :
      Expands (loopBody top) token false [] [instruction, emit (.goto top), emit (.label bottom)]
  | loopTest {top token} : Expands (loopTest top) token false [] []
  | level {token} (tier) : Expands (level tier) token false [] [operandOf tier, chain tier]
  | chain {tier token op} : tier.operator? token = some op → Expands (chain tier) token true []
      ([operandOf tier, emit (.binary op)] ++ if tier.chains then [chain tier] else [])
  | chainEnd {tier token} : Expands (chain tier) token false [] []
  | negation : Expands operand (.mark .not) true [] [nested operand, emit .not]
  | group : Expands operand (.mark .openParen) true [] [expression, pass .closeParen]
  | truth : Expands operand (.mark .true) true [] []
  | falsity : Expands operand (.mark .false) true [] []
  | integer {value} : Expands operand (.integer value) true [] []
  | real {value} : Expands operand (.real value) true [] []
  | name {name} : Expands operand (.name name) true [] [index, emit .load]
  | index : Expands index (.mark .openBracket) true []
      [level .sum, pass .closeBracket, emit (.binary .add)]
  | indexEnd {token} : Expands index token false [] []

/-- The faults that a task finds with the input in front of it. -/
inductive Blames : Task → Input → Diagnostic → Prop where
  | unexpected {task i} (expected) :
      Blames task i (.unexpected i.line expected i.token.description)
  | tooDeep {inner i} : Blames (nested inner) i (.tooDeep i.line Compilation.maxNesting)
  | scalar {type name line i} : Blames (declared type name line) i (.redeclared line name)
  | array {element name line size i} :
      Blames (declareArray element name line size) i (.redeclared line name)
  | target {name i} : i.token = .name name →
      Blames statement i (.undeclared i.lookahead.place.line name)
  | operand {name i} : i.token = .name name →
      Blames operand i (.undeclared i.lookahead.place.line name)

end Task

namespace Compilation

/-- What a task in front of an input does without looking again. Of the two flags, the first says
whether the token is passed in all, the second whether that is still to come; the names are those
declared so far. -/
inductive Script (task : Task) (i : Input) (passes : Bool) :
    Bool → List String → Compilation (List Task) → Prop where
  | give {names parts} : task.Expands i.token passes names parts →
      Script task i passes false names (pure parts)
  | refuse {ahead names} (expected) :
      Script task i passes ahead names (throw (.unexpected i.line expected i.token.description))
  | advance {names next} : Script task i passes false names next →
      Script task i passes true names (do advance; next)
  | emit {ahead names next} (instruction) : Script task i passes ahead names next →
      Script task i passes ahead names (do emit instruction; next)
  | fresh {ahead names} {next : Label → Compilation (List Task)} :
      (∀ label, Script task i passes ahead names (next label)) →
      Script task i passes ahead names (fresh >>= next)
  | leave {ahead names next} : Script task i passes ahead names next →
      Script task i passes ahead names (do leave; next)
  | declare {ahead names next} (entry : Entry) (line) :
      task.Blames i (.redeclared line entry.name) →
      Script task i passes ahead (entry.name :: names) next →
      Script task i passes ahead names (do declare entry.name entry.type line; next)
  | pushName {ahead names next} (name line) : task.Blames i (.undeclared line name) →
      Script task i passes ahead names next →
      Script task i passes ahead names (do pushName name line; next)

/-- What a task in front of an input does: a script, or a fault that is reported with the line and
the token there. -/
inductive Acts (task : Task) (i : Input) : Bool → Compilation (List Task) → Prop where
  | script {passes step} : Script task i passes passes [] step → Acts task i passes step
  | unexpected {passes} (expected) : Acts task i passes (unexpected expected)
  | enter {parts} : task.Expands i.token false [] parts →
      task.Blames i (.tooDeep i.line maxNesting) → Acts task i false (do enter; pure parts)

end Compilation

namespace Task

open Compilation

variable {i : Input}

theorem acts_declaration (i : Input) : Acts declaration i true (onDeclaration i.token) := by
  generalize seen : i.token = token
  fun_cases onDeclaration token
  case case1 => exact .script (.advance (.give (seen ▸ .declaration .int)))
  case case2 => exact .script (.advance (.give (seen ▸ .declaration .float)))
  case case3 => exact .script (.advance (.give (seen ▸ .declaration .boolean)))
  case case4 => exact .unexpected _

theorem acts_declarator (i : Input) (type : Scalar) (line : Nat) :
    Acts (declarator type) i true (onDeclarator type line i.token) := by
  generalize seen : i.token = token
  fun_cases onDeclarator type line token
  case case1 name => exact .script (.advance (.give (seen ▸ .declarator)))
  case case2 => exact .unexpected _

theorem acts_declarators (i : Input) (type : Scalar) :
    ∃ passes, Acts (declarators type) i passes (onDeclarators type i.token) := by
  generalize seen : i.token = token
  fun_cases onDeclarators type token
  case case1 => exact ⟨true, .script (.advance (.give (seen ▸ .declarators)))⟩
  case case2 => exact ⟨false, .script (.give .declaratorsEnd)⟩

theorem acts_declared (i : Input) (type : Scalar) (name : String) (line : Nat) :
    ∃ passes, Acts (declared type name line) i passes (onDeclared type name line i.token) := by
  generalize seen : i.token = token
  fun_cases onDeclared type name line token
  case case1 => exact ⟨true, .script (.advance (.give (seen ▸ .arrayBegin)))⟩
  case case2 =>
    exact ⟨true, .script (.declare ⟨name, .scalar type⟩ line .scalar
      (.advance (.emit _ (.give (seen ▸ .initialValue)))))⟩
  case case3 =>
    exact ⟨false, .script (.declare ⟨name, .scalar type⟩ line .scalar (.give .declaredEnd))⟩

theorem acts_arraySize (i : Input) (element : Scalar) (name : String) (line : Nat) :
    Acts (arraySize element name line) i true (onArraySize element name line i.line i.token) := by
  generalize seen : i.token = token
  fun_cases onArraySize element name line i.line token
  case case1 size =>
    refine .script (.advance ?_)
    by_cases positive : 0 < size
    · rw [if_pos positive]
      exact .give (seen ▸ .arraySize positive)
    · rw [if_neg positive, ← seen]
      exact .refuse _
  case case2 => exact .unexpected _

theorem acts_statement (i : Input) :
    ∃ passes, Acts statement i passes (onStatement i.lookahead.place.line i.token) ∧
      (passes = false → beginsDeclaration i.token = true) := by
  generalize seen : i.token = token
  fun_cases onStatement i.lookahead.place.line token
  case case1 name =>
    exact ⟨true, .script (.advance (.pushName _ _ (.target seen) (.give (seen ▸ .assignment)))),
      Bool.noConfusion⟩
  case case2 => exact ⟨false, .script (.give (seen ▸ .inner .int)), fun _ => rfl⟩
  case case3 => exact ⟨false, .script (.give (seen ▸ .inner .float)), fun _ => rfl⟩
  case case4 => exact ⟨false, .script (.give (seen ▸ .inner .boolean)), fun _ => rfl⟩
  case case5 => exact ⟨true, .script (.advance (.give (seen ▸ .print))), Bool.noConfusion⟩
  case case6 => exact ⟨true, .script (.advance (.give (seen ▸ .conditional))), Bool.noConfusion⟩
  case case7 =>
    exact ⟨true, .script (.advance (.fresh fun _ => .emit _ (.give (seen ▸ .whileLoop)))),
      Bool.noConfusion⟩
  case case8 =>
    exact ⟨true, .script (.advance (.fresh fun _ => .emit _ (.give (seen ▸ .doLoop)))),
      Bool.noConfusion⟩
  case case9 => exact ⟨true, .script (.advance (.give (seen ▸ .block))), Bool.noConfusion⟩
  case case10 => exact ⟨true, .unexpected _, Bool.noConfusion⟩

theorem acts_otherwise (i : Input) (skip : Label) :
    ∃ passes, Acts (otherwise skip) i passes (onOtherwise skip i.token) := by
  generalize seen : i.token = token
  fun_cases onOtherwise skip token
  case case1 =>
    exact ⟨true, .script (.fresh fun _ => .emit _ (.emit _ (.advance (.give (seen ▸ .otherwise)))))⟩
  case case2 => exact ⟨false, .script (.emit _ (.give .otherwiseEnd))⟩

theorem acts_chain (i : Input) (tier : Tier) :
    ∃ passes, Acts (chain tier) i passes (onChain tier i.token) := by
  unfold onChain
  cases found : tier.operator? i.token with
  | some op => exact ⟨true, .script (.advance (.give (.chain found)))⟩
  | none => exact ⟨false, .script (.give .chainEnd)⟩

theorem acts_operand (i : Input) :
    Acts operand i true (onOperand i.lookahead.place.line i.token) := by
  generalize seen : i.token = token
  fun_cases onOperand i.lookahead.place.line token
  case case1 => exact .script (.advance (.give (seen ▸ .negation)))
  case case2 => exact .script (.advance (.give (seen ▸ .group)))
  case case3 => exact .script (.advance (.emit _ (.give (seen ▸ .truth))))
  case case4 => exact .script (.advance (.emit _ (.give (seen ▸ .falsity))))
  case case5 => exact .script (.advance (.emit _ (.give (seen ▸ .integer))))
  case case6 => exact .script (.advance (.emit _ (.give (seen ▸ .real))))
  case case7 => exact .script (.advance (.pushName _ _ (.operand seen) (.give (seen ▸ .name))))
  case case8 => exact .unexpected _

theorem acts_index (i : Input) : ∃ passes, Acts index i passes (onIndex i.token) := by
  generalize seen : i.token = token
  fun_cases onIndex token
  case case1 => exact ⟨true, .script (.advance (.give (seen ▸ .index)))⟩
  case case2 => exact ⟨false, .script (.give .indexEnd)⟩

theorem acts_expect (i : Input) (kind : Kind) : ∃ step, Acts (expect kind) i true step ∧
    ∀ t : State, t.input.Looks i → (expect kind).perform t = step t := by
  by_cases fits : i.token.kind = kind
  · subst fits
    refine ⟨_, .script (.advance (.give .expect)), fun t same => ?_⟩
    have kind : t.lookahead.kind = i.token.kind := congrArg Token.kind same.token
    change ((if t.lookahead.kind = i.token.kind then advance
      else unexpected i.token.kind.description) >>= fun _ => pure []) t = _
    rw [if_pos kind]
  · refine ⟨_, .unexpected kind.description, fun t same => ?_⟩
    have differs : t.lookahead.kind ≠ kind :=
      fun same' => fits ((congrArg Token.kind same.token).symm.trans same')
    change ((if t.lookahead.kind = kind then advance else unexpected kind.description) >>=
      fun _ => pure []) t = _
    rw [if_neg differs]
    rfl

/-- In front of all inputs that resemble a given one, a task acts in one way. -/
theorem perform_acts (task : Task) (i : Input) : ∃ passes step, Acts task i passes step ∧
    ∀ t : State, t.input.Resembles passes i → task.perform t = step t := by
  cases task with
  | expect kind =>
    obtain ⟨step, acts, same⟩ := acts_expect i kind
    exact ⟨true, step, acts, fun t resembles => same t resembles.looks⟩
  | emit instruction => exact ⟨false, _, .script (.emit instruction (.give .emit)), fun _ _ => rfl⟩
  | nested inner => exact ⟨false, _, .enter .nested .tooDeep, fun _ _ => rfl⟩
  | leave => exact ⟨false, _, .script (.leave (.give .leave)), fun _ _ => rfl⟩
  | declarations =>
    let parts (token : Token) := if beginsDeclaration token then [declaration, declarations] else []
    refine ⟨false, pure (parts i.token), .script (.give ?_), fun t same => ?_⟩
    · cases begins : beginsDeclaration i.token <;> simp only [parts, begins]
      · exact .declarationsEnd
      · exact .declarations
    · rw [← same.congr parts fun _ _ => rfl]
      rfl
  | declaration =>
    refine ⟨true, _, acts_declaration i, fun t same => ?_⟩
    rw [← same.looks.token]
    rfl
  | declarator type =>
    refine ⟨true, _, acts_declarator i type i.lookahead.place.line, fun t same => ?_⟩
    rw [← same.looks.token, ← same.looks.place]
    rfl
  | declarators type =>
    obtain ⟨passes, acts⟩ := acts_declarators i type
    exact ⟨passes, _, acts, fun t same =>
      congrFun (same.congr (onDeclarators type) fun _ _ => rfl) t⟩
  | declared type name line =>
    obtain ⟨passes, acts⟩ := acts_declared i type name line
    exact ⟨passes, _, acts, fun t same =>
      congrFun (same.congr (onDeclared type name line) fun _ _ => rfl) t⟩
  | arraySize element name line =>
    refine ⟨true, _, acts_arraySize i element name line, fun t same => ?_⟩
    rw [← same.looks.token, ← same.looks.line]
    rfl
  | declareArray element name line size =>
    exact ⟨false, _, .script (.declare ⟨name, .array element size⟩ line .array
      (.emit _ (.give .declareArray))), fun _ _ => rfl⟩
  | instructions =>
    let parts (token : Token) := if beginsInstruction token then [instruction, instructions] else []
    refine ⟨false, pure (parts i.token), .script (.give ?_), fun t same => ?_⟩
    · cases begins : beginsInstruction i.token <;> simp only [parts, begins]
      · exact .instructionsEnd
      · exact .instructions
    · rw [← same.congr parts fun _ _ => rfl]
      rfl
  | statement =>
    obtain ⟨passes, acts, stays⟩ := acts_statement i
    refine ⟨passes, _, acts, fun t same => ?_⟩
    rcases same with looks | ⟨still, _, name, _, named⟩
    · rw [← looks.token, ← looks.place]
      rfl
    · have begins := stays still
      rw [named] at begins
      cases begins
  | branch =>
    exact ⟨false, _, .script (.fresh fun skip => .emit (.goFalse skip) (.give (.branch skip))),
      fun _ _ => rfl⟩
  | otherwise skip =>
    obtain ⟨passes, acts⟩ := acts_otherwise i skip
    exact ⟨passes, _, acts, fun t same =>
      congrFun (same.congr (onOtherwise skip) fun _ _ => rfl) t⟩
  | loopBody top =>
    exact ⟨false, _, .script (.fresh fun bottom => .emit (.goFalse bottom)
      (.give (.loopBody top bottom))), fun _ _ => rfl⟩
  | loopTest top =>
    exact ⟨false, _, .script (.fresh fun _ => .emit _ (.emit _ (.emit _ (.give .loopTest)))),
      fun _ _ => rfl⟩
  | level tier => exact ⟨false, _, .script (.give (.level tier)), fun _ _ => rfl⟩
  | chain tier =>
    obtain ⟨passes, acts⟩ := acts_chain i tier
    exact ⟨passes, _, acts, fun t same =>
      congrFun (same.congr (onChain tier) fun _ _ => by cases tier <;> rfl) t⟩
  | operand =>
    refine ⟨true, _, acts_operand i, fun t same => ?_⟩
    rw [← same.looks.token, ← same.looks.place]
    rfl
  | index =>
    obtain ⟨passes, acts⟩ := acts_index i
    exact ⟨passes, _, acts, fun t same => congrFun (same.congr onIndex fun _ _ => rfl) t⟩

end Task

namespace Compilation

/-- A step of a task: it proceeds from the input before to the one behind, declares the names that
the table has in addition, and would do the same on every input that resembles the one before. -/
structure Steps (task : Task) (s : State) (passes : Bool) (names : List String)
    (parts : List Task) (after : State) : Prop where
  expands : task.Expands s.input.token passes names parts
  proceeds : s.input.Proceeds passes after.input
  known : ∀ name, name ∈ after.symbols.names ↔ name ∈ names ∨ name ∈ s.symbols.names
  alike : ∀ i j, i.Resembles passes s.input → i.Proceeds passes j →
    task.perform (s.facing i) = .ok parts (after.facing j)

theorem moves_of_advance {s after : State} (done : advance s = .ok () after) :
    s.input.Moves after.input ∧ after = s.facing after.input := by
  unfold advance at done
  split at done
  · rename_i token rest delivered
    obtain ⟨_, rfl⟩ := EStateM.Result.ok.inj done
    exact ⟨delivered, rfl⟩
  · cases done

namespace Script

variable {task : Task} {i : Input} {passes ahead : Bool} {names : List String}
  {step : Compilation (List Task)} {s after : State} {parts : List Task} {fault : Diagnostic}

theorem of_ok (script : Script task i passes ahead names step) (done : step s = .ok parts after) :
    ∃ more, task.Expands i.token passes (more ++ names) parts ∧
      s.input.Proceeds ahead after.input ∧
      (∀ name, name ∈ after.symbols.names ↔ name ∈ more ∨ name ∈ s.symbols.names) ∧
      ∀ j k, j.Proceeds ahead k → step (s.facing j) = .ok parts (after.facing k) := by
  induction script generalizing s with
  | give expands =>
    obtain ⟨rfl, rfl⟩ := pure_eq_ok.1 done
    refine ⟨[], expands, rfl, fun name => by simp, fun j k still => ?_⟩
    obtain rfl : j = k := still
    rfl
  | refuse expected => exact absurd done throw_ne_ok
  | advance script ih =>
    obtain ⟨_, middle, moved, done⟩ := bind_eq_ok.1 done
    obtain ⟨moves, same⟩ := moves_of_advance moved
    obtain ⟨more, expands, still, known, alike⟩ := ih done
    have kept : middle.input = after.input := still
    refine ⟨more, expands, kept ▸ moves, ?_, fun j k moving => ?_⟩
    · rwa [same] at known
    · rw [bind_of_ok (advance_of_moves (s := s.facing j) moving)]
      have further := alike k k rfl
      rwa [same] at further
  | emit instruction script ih => exact ih done
  | fresh script ih => exact ih _ done
  | leave script ih => exact ih done
  | declare entry line blames script ih =>
    by_cases present : entry.name ∈ s.symbols.names
    · rw [bind_of_error (declare_of_known present)] at done
      cases done
    · rw [bind_of_ok (declare_of_unknown present)] at done
      obtain ⟨more, expands, proceeds, known, alike⟩ := ih done
      refine ⟨more ++ [entry.name], by simpa using expands, proceeds, fun name => ?_,
        fun j k proceeding => ?_⟩
      · rw [known, SymbolTable.mem_names_add]
        simp [or_assoc]
      · rw [bind_of_ok (declare_of_unknown (s := s.facing j) present)]
        exact alike j k proceeding
  | pushName name line blames script ih =>
    by_cases present : name ∈ s.symbols.names
    · rw [bind_of_ok (pushName_of_known line present)] at done
      obtain ⟨more, expands, proceeds, known, alike⟩ := ih done
      refine ⟨more, expands, proceeds, known, fun j k proceeding => ?_⟩
      rw [bind_of_ok (pushName_of_known (s := s.facing j) line present)]
      exact alike j k proceeding
    · rw [bind_of_error (pushName_of_unknown line present)] at done
      cases done

theorem of_error (script : Script task i passes ahead names step)
    (failed : step s = .error fault after) :
    ahead = true ∧ (s.source.next).1 = .error fault ∨
      task.Blames i fault ∧
        (∀ line name, fault = .undeclared line name → name ∉ s.symbols.names) ∧
        ∀ j k, j.Proceeds ahead k → ∃ after, step (s.facing j) = .error fault after := by
  induction script generalizing s with
  | give expands => cases failed
  | refuse expected =>
    obtain ⟨rfl, _⟩ := EStateM.Result.error.inj failed
    exact .inr ⟨.unexpected expected, nofun, fun j k _ => ⟨_, rfl⟩⟩
  | advance script ih =>
    rcases delivered : s.source.next with ⟨cause | token, source⟩
    · have stopped : Compilation.advance s = .error cause { s with source } := by
        unfold Compilation.advance
        rw [delivered]
      rw [bind_of_error stopped] at failed
      obtain ⟨rfl, _⟩ := EStateM.Result.error.inj failed
      exact .inl ⟨rfl, rfl⟩
    · have moved : s.input.Moves ⟨token, source⟩ := delivered
      rw [bind_of_ok (advance_of_moves moved)] at failed
      rcases ih failed with ⟨none, _⟩ | ⟨blamed, unknown, alike⟩
      · cases none
      · refine .inr ⟨blamed, unknown, fun j k moving => ?_⟩
        rw [bind_of_ok (advance_of_moves (s := s.facing j) moving)]
        exact alike k k rfl
  | emit instruction script ih => exact ih failed
  | fresh script ih => exact ih _ failed
  | leave script ih => exact ih failed
  | declare entry line blames script ih =>
    by_cases present : entry.name ∈ s.symbols.names
    · rw [bind_of_error (declare_of_known present)] at failed
      obtain ⟨rfl, _⟩ := EStateM.Result.error.inj failed
      exact .inr ⟨blames, nofun, fun j k _ =>
        ⟨_, bind_of_error (declare_of_known (s := s.facing j) present)⟩⟩
    · rw [bind_of_ok (declare_of_unknown present)] at failed
      rcases ih failed with source | ⟨blamed, unknown, alike⟩
      · exact .inl source
      · refine .inr ⟨blamed, fun line name same member => ?_, fun j k proceeding => ?_⟩
        · exact unknown line name same (SymbolTable.mem_names_add.mpr (.inr member))
        · rw [bind_of_ok (declare_of_unknown (s := s.facing j) present)]
          exact alike j k proceeding
  | pushName name line blames script ih =>
    by_cases present : name ∈ s.symbols.names
    · rw [bind_of_ok (pushName_of_known line present)] at failed
      rcases ih failed with source | ⟨blamed, unknown, alike⟩
      · exact .inl source
      · refine .inr ⟨blamed, unknown, fun j k proceeding => ?_⟩
        rw [bind_of_ok (pushName_of_known (s := s.facing j) line present)]
        exact alike j k proceeding
    · rw [bind_of_error (pushName_of_unknown line present)] at failed
      obtain ⟨rfl, _⟩ := EStateM.Result.error.inj failed
      refine .inr ⟨blames, fun _ _ same => ?_, fun j k _ =>
        ⟨_, bind_of_error (pushName_of_unknown (s := s.facing j) line present)⟩⟩
      cases same
      exact present

end Script

variable {task : Task} {s after : State} {parts : List Task} {fault : Diagnostic}

theorem steps_of_perform (done : task.perform s = .ok parts after) :
    ∃ passes names, Steps task s passes names parts after := by
  obtain ⟨passes, step, acts, same⟩ := task.perform_acts s.input
  rw [same s (.inl (.refl _))] at done
  cases acts with
  | script script =>
    obtain ⟨names, expands, proceeds, known, alike⟩ := script.of_ok done
    rw [List.append_nil] at expands
    exact ⟨passes, names, expands, proceeds, known, fun i j resembles proceeding =>
      (same (s.facing i) resembles).trans (alike i j proceeding)⟩
  | unexpected expected => exact absurd done unexpected_ne_ok
  | enter expands blames =>
    by_cases room : s.depth < maxNesting
    · rw [bind_of_ok (enter_of_room room)] at done
      obtain ⟨rfl, rfl⟩ := pure_eq_ok.1 done
      refine ⟨false, [], expands, rfl, fun name => by simp, fun i j resembles still => ?_⟩
      obtain rfl : i = j := still
      rw [same (s.facing i) resembles, bind_of_ok (enter_of_room (s := s.facing i) room)]
      rfl
    · rw [bind_of_error (enter_of_full room)] at done
      cases done

/-- A task fails with the fault of its source, or it finds a fault that it would find on every input
that looks the same. -/
theorem blames_of_perform (failed : task.perform s = .error fault after) :
    (s.source.next).1 = .error fault ∨
      task.Blames s.input fault ∧
        (∀ line name, fault = .undeclared line name → name ∉ s.symbols.names) ∧
        ∀ i j, i.Looks s.input → i.Moves j →
          ∃ after, task.perform (s.facing i) = .error fault after := by
  obtain ⟨passes, step, acts, same⟩ := task.perform_acts s.input
  rw [same s (.inl (.refl _))] at failed
  cases acts with
  | script script =>
    rcases script.of_error failed with ⟨_, source⟩ | ⟨blames, unknown, alike⟩
    · exact .inl source
    · refine .inr ⟨blames, unknown, fun i j looks moving => ?_⟩
      rw [same (s.facing i) (.inl looks)]
      cases passes with
      | true => exact alike i j moving
      | false => exact alike i i rfl
  | unexpected expected =>
    obtain ⟨rfl, _⟩ := EStateM.Result.error.inj failed
    refine .inr ⟨.unexpected expected, nofun, fun i j looks _ => ?_⟩
    have there : unexpected expected (s.facing i) = (.error
        (.unexpected i.line expected i.token.description) (s.facing i) :
        EStateM.Result Diagnostic State (List Task)) := rfl
    rw [same (s.facing i) (.inl looks), there, looks.line, looks.token]
    exact ⟨s.facing i, rfl⟩
  | enter expands blames =>
    by_cases room : s.depth < maxNesting
    · rw [bind_of_ok (enter_of_room room)] at failed
      cases failed
    · rw [bind_of_error (enter_of_full room)] at failed
      obtain ⟨rfl, _⟩ := EStateM.Result.error.inj failed
      refine .inr ⟨blames, nofun, fun i j looks _ => ⟨s.facing i, ?_⟩⟩
      have line : (s.facing i).line = s.line := looks.line
      rw [same (s.facing i) (.inl looks), bind_of_error (enter_of_full (s := s.facing i) room),
        line]

end Compilation

end OnePass
