import Mathlib
import OnePass.Proofs.Parsing

/-! What the names among the tokens are there for. A name declares where it stands behind a type or
a comma, and is used everywhere else. So it can be told from the tokens in front of it, and a run
that has passed them is poised for the one or for the other. -/
namespace OnePass

def Mark.opensDeclarator : Mark → Bool
  | int => Bool.true
  | float => Bool.true
  | boolean => Bool.true
  | comma => Bool.true
  | _ => Bool.false

namespace Token

def isName : Token → Bool
  | name _ => true
  | _ => false

/-- Whether a name behind the token declares. -/
def opensDeclarator : Token → Bool
  | mark m => m.opensDeclarator
  | _ => false

def naming (declares : Bool) : Token → List (Bool × String)
  | name text => [(declares, text)]
  | _ => []

theorem mem_naming {declares : Bool} {token : Token} {text : String} :
    (true, text) ∈ token.naming declares ↔ declares = true ∧ token = .name text := by
  cases token <;> simp [naming, eq_comm]

theorem length_naming (declares : Bool) (token : Token) :
    (token.naming declares).length = if token.isName then 1 else 0 := by
  cases token <;> rfl

end Token

/-- The names among tokens, and whether each of them declares. -/
def namings : Bool → List Token → List (Bool × String)
  | _, [] => []
  | declares, token :: rest => token.naming declares ++ namings token.opensDeclarator rest

/-- Whether a name behind the tokens declares. -/
def opening : Bool → List Token → Bool
  | declares, [] => declares
  | _, token :: rest => opening token.opensDeclarator rest

theorem namings_append (declares : Bool) (first second : List Token) :
    namings declares (first ++ second) =
      namings declares first ++ namings (opening declares first) second := by
  induction first generalizing declares with
  | nil => rfl
  | cons token rest ih => simp only [List.cons_append, namings, opening, ih, List.append_assoc]

theorem length_namings (declares : Bool) (tokens : List Token) :
    (namings declares tokens).length = tokens.countP Token.isName := by
  induction tokens generalizing declares with
  | nil => rfl
  | cons token rest ih =>
    rw [namings, List.length_append, Token.length_naming, ih, List.countP_cons, Nat.add_comm]

def Mention.naming : Mention → Bool × String
  | declares entry => (true, entry.name)
  | uses name => (false, name)

theorem mem_declaredNames {mentions : List Mention} {name : String} :
    name ∈ declaredNames mentions ↔ (true, name) ∈ mentions.map Mention.naming := by
  induction mentions with
  | nil => simp [declaredNames]
  | cons mention rest ih => cases mention <;> simp [declaredNames, Mention.naming, ih]

/-! The names of a tree. -/

theorem BinaryOp.opensDeclarator_mark (op : BinaryOp) : op.mark.opensDeclarator = false := by
  cases op <;> rfl

theorem Scalar.opensDeclarator_mark (type : Scalar) : type.mark.opensDeclarator = true := by
  cases type <;> rfl

theorem Expr.namings_spelling {grade : Grade} (e : Expr grade) (rest : List Token) :
    namings false (e.spelling ++ rest) = e.mentions.map Mention.naming ++ namings false rest := by
  induction e generalizing rest with
  | truth value => cases value <;> rfl
  | integer | real | name => rfl
  | join | compare => simp_all [spelling, namings, Token.naming, Token.opensDeclarator,
      BinaryOp.opensDeclarator_mark]
  | _ => simp_all [spelling, namings, Token.naming, Token.opensDeclarator, Mark.opensDeclarator,
      Mention.naming]

theorem Expr.namings_enclosed (e : Expression) (declares : Bool) (rest : List Token) :
    namings declares (e.enclosed ++ rest) =
      e.mentions.map Mention.naming ++ namings false rest := by
  simp [enclosed, namings, Token.naming, Token.opensDeclarator, Mark.opensDeclarator,
    namings_spelling]

theorem Declarator.namings_spelling (type : Scalar) (d : Declarator) (rest : List Token) :
    namings true (d.spelling ++ rest) =
      (d.mentions type).map Mention.naming ++ namings false rest := by
  cases d <;> simp [spelling, mentions, namings, Token.naming, Token.opensDeclarator,
    Mark.opensDeclarator, Mention.naming, Expr.namings_spelling]

theorem Declarator.namings_further (type : Scalar) (ds : List Declarator) (rest : List Token) :
    namings false (furtherSpelling ds ++ rest) =
      (ds.flatMap (mentions type)).map Mention.naming ++ namings false rest := by
  induction ds with
  | nil => rfl
  | cons d ds ih =>
    simp only [furtherSpelling, List.flatMap_cons, List.cons_append, List.append_assoc, namings,
      Token.naming, Token.opensDeclarator, Mark.opensDeclarator, List.nil_append, List.map_append,
      namings_spelling type d] at ih ⊢
    rw [ih]

theorem Declaration.namings_spelling (d : Declaration) (declares : Bool) (rest : List Token) :
    namings declares (d.spelling ++ rest) =
      d.mentions.map Mention.naming ++ namings false rest := by
  have plain : Mark.semicolon.opensDeclarator = false := rfl
  simp [spelling, mentions, namings, Token.naming, Token.opensDeclarator,
    Scalar.opensDeclarator_mark, Declarator.namings_spelling d.type,
    Declarator.namings_further d.type, plain]

theorem Declaration.namings_all (ds : List Declaration) (rest : List Token) :
    namings false (ds.flatMap spelling ++ rest) =
      (ds.flatMap mentions).map Mention.naming ++ namings false rest := by
  induction ds with
  | nil => rfl
  | cons d ds ih => simp [namings_spelling, ih]

theorem Statement.namings_spelling {extent : Extent} (st : Statement extent) (rest : List Token) :
    namings false (st.spelling ++ rest) = st.mentions.map Mention.naming ++ namings false rest := by
  induction st generalizing rest with
  | declare d => exact d.namings_spelling false rest
  | _ => simp_all [spelling, namings, Token.naming, Token.opensDeclarator, Mark.opensDeclarator,
      Mention.naming, Expr.namings_spelling, Expr.namings_enclosed]

namespace Program

theorem namings_spelling (p : Program) :
    namings false p.spelling = p.mentions.map Mention.naming := by
  simp [spelling, mentions, namings, Token.naming, Token.opensDeclarator, Mark.opensDeclarator,
    Declaration.namings_all, Statement.namings_spelling]

/-- The mentions by the names in front of a place. -/
def mentionsBefore (p : Program) (i : Nat) : List Mention :=
  p.mentions.take ((p.spelling.take i).countP Token.isName)

/-- What the name at a place is there for. The names of a program stand among its tokens in the
order of its mentions. -/
def mentionAt (p : Program) (i : Nat) : Option Mention :=
  if p.spelling[i]?.any Token.isName then
    p.mentions[(p.spelling.take i).countP Token.isName]?
  else none

variable (p : Program) {u v : List Token} {name : String}

theorem map_mentionsBefore (whole : p.spelling = u ++ v) :
    (p.mentionsBefore u.length).map Mention.naming = namings false u := by
  have split := namings_append false u v
  rw [← whole, p.namings_spelling] at split
  rw [mentionsBefore, List.map_take, split, whole, List.take_left, ← length_namings false u,
    List.take_left]

/-- The names that are declared in front of a place are those that the tokens in front of it
declare. -/
theorem mem_declaredNames_before (name : String) (whole : p.spelling = u ++ v) :
    name ∈ declaredNames (p.mentionsBefore u.length) ↔ (true, name) ∈ namings false u := by
  rw [mem_declaredNames, p.map_mentionsBefore whole]

/-- A name is there for what the tokens in front of it say. -/
theorem mentionAt_name (whole : p.spelling = u ++ .name name :: v) :
    (p.mentionAt u.length).map Mention.naming = some (opening false u, name) := by
  have split := namings_append false u (.name name :: v)
  rw [← whole, p.namings_spelling] at split
  have there : p.spelling[u.length]? = some (.name name) := by
    rw [whole, List.getElem?_append_right le_rfl, Nat.sub_self]
    rfl
  rw [mentionAt, there, whole, List.take_left, ← length_namings false u]
  change Option.map _ (p.mentions[_]?) = _
  rw [← List.getElem?_map, split, List.getElem?_append_right le_rfl, Nat.sub_self]
  rfl

theorem exists_name_of_mentionAt {i : Nat} {mention : Mention}
    (found : p.mentionAt i = some mention) :
    ∃ u name v, p.spelling = u ++ .name name :: v ∧ u.length = i := by
  unfold mentionAt at found
  split at found
  · rename_i named
    rcases there : p.spelling[i]? with _ | token
    · rw [there] at named
      cases named
    · rw [there] at named
      cases token with
      | name text =>
        obtain ⟨inside, here⟩ := List.getElem?_eq_some_iff.mp there
        refine ⟨p.spelling.take i, text, p.spelling.drop (i + 1), ?_, ?_⟩
        · rw [← here, List.cons_getElem_drop_succ, List.take_append_drop]
        · exact List.length_take_of_le inside.le
      | _ => cases named
  · cases found

end Program

/-! The names that a run has to do with. -/

namespace Task

/-- A task of which no part but those behind a type or a comma passes a name that declares. -/
def quiet : Task → Bool
  | expect .name => false
  | expect (.mark m) => !m.opensDeclarator
  | nested inner => inner.quiet
  | declarator _ => false
  | declared .. => false
  | arraySize .. => false
  | declareArray .. => false
  | _ => true

/-- Whether the next name that tasks pass declares, and the names that they have passed but not yet
declared. -/
inductive Poised : Bool → List String → List Task → Prop where
  | quiet {tasks} : (∀ task ∈ tasks, task.quiet = true) → Poised false [] tasks
  | declarator {type rest} : (∀ task ∈ rest, task.quiet = true) →
      Poised true [] (declarator type :: rest)
  | declared {type name line rest} : (∀ task ∈ rest, task.quiet = true) →
      Poised false [name] (declared type name line :: rest)
  | arraySize {element name line rest} : (∀ task ∈ rest, task.quiet = true) →
      Poised false [name] (arraySize element name line :: rest)
  | closing {element name line size rest} : (∀ task ∈ rest, task.quiet = true) →
      Poised false [name] (pass .closeBracket :: declareArray element name line size :: rest)
  | declareArray {element name line size rest} : (∀ task ∈ rest, task.quiet = true) →
      Poised false [name] (declareArray element name line size :: rest)

theorem poised_program (halting : Bool) : Poised false [] (program halting) := by
  apply Poised.quiet
  cases halting <;> decide

variable {task : Task} {rest parts : List Task} {token : Token} {passes declares : Bool}
  {names awaited : List String}

theorem quiet_operandOf (tier : Tier) : (operandOf tier).quiet = true := by cases tier <;> rfl

/-- A quiet task stays quiet, or opens a declarator. -/
theorem Expands.poised_of_quiet (expands : task.Expands token passes names parts)
    (still : task.quiet = true) (others : ∀ task ∈ rest, task.quiet = true) :
    names = [] ∧ Poised (bif passes then token.opensDeclarator else false) [] (parts ++ rest) := by
  have plain (parts : List Task) (fine : ∀ task ∈ parts, task.quiet = true) :
      Poised false [] (parts ++ rest) :=
    .quiet fun task member => (List.mem_append.mp member).elim (fine task) (others task)
  cases expands with
  | expect =>
    refine ⟨rfl, ?_⟩
    have closed : token.opensDeclarator = false := by
      cases token with
      | mark m => simpa [Task.quiet, Token.kind, Token.opensDeclarator] using still
      | _ => rfl
    rw [cond_true, closed]
    exact plain [] (List.forall_mem_nil _)
  | nested => exact ⟨rfl, plain _ (by simpa [Task.quiet] using still)⟩
  | declarator | arrayBegin | initialValue | declaredEnd | arraySize | declareArray => cases still
  | declaration type =>
    refine ⟨rfl, ?_⟩
    rw [cond_true, Token.opensDeclarator, type.opensDeclarator_mark]
    exact .declarator (List.forall_mem_cons.mpr ⟨rfl, List.forall_mem_cons.mpr ⟨rfl, others⟩⟩)
  | declarators => exact ⟨rfl, .declarator (List.forall_mem_cons.mpr ⟨rfl, others⟩)⟩
  | chain found =>
    obtain ⟨_, rfl⟩ := operator?_eq_some found
    refine ⟨rfl, ?_⟩
    rw [cond_true, Token.opensDeclarator, BinaryOp.opensDeclarator_mark]
    refine plain _ ?_
    split <;> simp [quiet_operandOf, Task.quiet]
  | level tier => exact ⟨rfl, plain _ (by simp [quiet_operandOf, Task.quiet])⟩
  | _ =>
    exact ⟨rfl, plain _ (by simp [Task.quiet, condition, pass, expression, instruction,
      Mark.opensDeclarator])⟩

/-- A step leaves the tasks poised. The names passed and not yet declared are declared or stay so,
and a name that it passes is one of them exactly if it declares. -/
theorem Poised.step (poised : Poised declares awaited (task :: rest))
    (expands : task.Expands token passes names parts) :
    ∃ more, Poised (bif passes then token.opensDeclarator else declares) more (parts ++ rest) ∧
      ∀ name, name ∈ names ∨ name ∈ more ↔
        name ∈ awaited ∨ passes = true ∧ declares = true ∧ token = .name name := by
  cases poised with
  | quiet still =>
    obtain ⟨here, others⟩ := List.forall_mem_cons.mp still
    obtain ⟨rfl, poised⟩ := expands.poised_of_quiet here others
    exact ⟨[], poised, by simp⟩
  | declarator others =>
    cases expands with
    | @declarator _ name line => exact ⟨[name], .declared others, by simp [eq_comm]⟩
  | @declared _ name _ _ others =>
    cases expands with
    | arrayBegin => exact ⟨[name], .arraySize others, by simp⟩
    | initialValue =>
      refine ⟨[], .quiet ?_, by simp⟩
      exact List.forall_mem_cons.mpr ⟨rfl, List.forall_mem_cons.mpr ⟨rfl, others⟩⟩
    | declaredEnd => exact ⟨[], .quiet others, by simp⟩
  | @arraySize _ name _ _ others =>
    cases expands with
    | arraySize positive => exact ⟨[name], .closing others, by simp⟩
  | @closing element name line size rest others =>
    -- a task to pass a mark is one to pass its kind, from which the token is to be told
    generalize first : pass .closeBracket = task at expands
    cases expands with
    | expect =>
      obtain rfl := Token.kind_eq_mark_iff.mp (Task.expect.inj first).symm
      exact ⟨[name], .declareArray others, by simp⟩
    | _ => cases first
  | @declareArray _ name _ _ _ others =>
    cases expands with
    | declareArray => exact ⟨[], .quiet others, by simp⟩

/-- A task that passes a name which does not declare is for an assignment or an operand, and has no
names to declare. -/
theorem Poised.eq_of_use {name : String} (poised : Poised false awaited (task :: rest))
    (expands : task.Expands (.name name) true names parts) :
    awaited = [] ∧ (task = statement ∨ task = operand) := by
  cases poised with
  | quiet still =>
    have here := still task (List.mem_cons_self ..)
    cases expands with
    | assignment => exact ⟨rfl, .inl rfl⟩
    | name => exact ⟨rfl, .inr rfl⟩
    | expect | declarator => cases here
    | chain found =>
      obtain ⟨_, other⟩ := operator?_eq_some found
      cases other
  | declared | arraySize | declareArray => cases expands
  | closing =>
    generalize first : pass .closeBracket = task at expands
    cases expands <;> cases first

theorem Poised.eq_of_declarator (poised : Poised true awaited (task :: rest)) :
    awaited = [] ∧ ∃ type, task = Task.declarator type := by
  cases poised with
  | @declarator type => exact ⟨rfl, type, rfl⟩

end Task

namespace Compilation

variable {task : Task} {tasks others rest parts : List Task} {s t middle : State}
  {passes declares : Bool} {names awaited : List String} {passed : List Located}

theorem Steps.poised (steps : Steps task s passes names parts middle)
    (poised : Task.Poised declares awaited (task :: rest)) :
    ∃ more, Task.Poised (bif passes then s.input.token.opensDeclarator else declares) more
        (parts ++ rest) ∧
      ∀ name, name ∈ middle.symbols.names ∨ name ∈ more ↔
        (name ∈ s.symbols.names ∨ name ∈ awaited) ∨
          passes = true ∧ declares = true ∧ s.input.token = .name name := by
  obtain ⟨more, further, known⟩ := poised.step steps.expands
  refine ⟨more, further, fun name => ?_⟩
  rw [steps.known name, or_right_comm, known name, or_right_comm, or_comm (a := name ∈ awaited)]

/-- On a course, the names that are known or still to be declared are those known before and those
that the tokens passed declare. -/
theorem Reaches.poised (reaches : Reaches tasks s passed others t)
    (poised : Task.Poised declares awaited tasks) :
    ∃ more, Task.Poised (opening declares (passed.map (·.token))) more others ∧
      ∀ name, name ∈ t.symbols.names ∨ name ∈ more ↔
        (name ∈ s.symbols.names ∨ name ∈ awaited) ∨
          (true, name) ∈ namings declares (passed.map (·.token)) := by
  induction reaches generalizing declares awaited with
  | refl => exact ⟨awaited, poised, by simp [namings]⟩
  | stay steps _ ih =>
    obtain ⟨more, further, stepped⟩ := steps.poised poised
    obtain ⟨last, poised, known⟩ := ih further
    refine ⟨last, poised, fun name => ?_⟩
    rw [known name, stepped name]
    simp
  | pass steps _ ih =>
    obtain ⟨more, further, stepped⟩ := steps.poised poised
    obtain ⟨last, poised, known⟩ := ih further
    refine ⟨last, poised, fun name => ?_⟩
    rw [known name, stepped name, List.map_cons, namings, List.mem_append, Token.mem_naming,
      or_assoc]
    simp [State.input, Input.token]

end Compilation

end OnePass
