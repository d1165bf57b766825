import Mathlib
import OnePass.Proofs.Declarations

/-! How a compilation gets past instructions and programs. An `else` goes to the nearest `if`,
so behind an instruction that ends in an open `if` no `else` may stand. -/
namespace OnePass

namespace Statement

variable {extent : Extent}

@[simp] def contribution (labels : LabelSupply) (st : Statement extent) : Contribution where
  code := st.code labels.stem labels.next
  mentions := st.mentions
  nesting := st.nesting
  labels := st.labelCount

/-- A token that may stand behind instructions. -/
def Ends : {extent : Extent} → Statement extent → Token → Prop
  | .one, st, token => st.isOpen = true → token ≠ .mark .else
  | .many, _, token => token = .mark .closeBrace

theorem begins (st : Statement .one) :
    ∃ token more, st.spelling = token :: more ∧ Task.beginsInstruction token = true := by
  cases st with
  | declare d =>
    refine ⟨.mark d.type.mark, _, rfl, ?_⟩
    cases d.type <;> rfl
  | _ => exact ⟨_, _, rfl, rfl⟩

end Statement

def Extent.task : Extent → Task
  | one => .statement
  | many => .instructions

namespace Compilation

variable {s : State} {input : Input} {rest : List Task} {top skip bottom : Label}

theorem perform_statement {token : Token} (seen : s.input.token = token) :
    Task.statement.perform s = Task.onStatement s.lookahead.place.line token s :=
  congrArg (Task.onStatement s.lookahead.place.line · s) seen

theorem yields_branch (skip : Label) (here : s.labels.first = skip) :
    Yields (.branch :: rest) (.instruction :: .otherwise skip :: rest) s s.input
      { code := [.goFalse skip], labels := 1 } := by
  subst here
  exact Yields.of_perform [.instruction, .otherwise s.labels.first] _ (Yields.admits_code _ _) rfl

theorem yields_otherwise_end (ends : s.input.token ≠ .mark .else) :
    Yields (.otherwise skip :: rest) rest s s.input { code := [.label skip] } := by
  have nothing : Task.onOtherwise skip s.input.token = do
      Compilation.emit (.label skip)
      return [] := by
    unfold Task.onOtherwise
    split
    · contradiction
    · rfl
  exact Yields.of_perform [] s.events (Yields.admits_code _ _) (congrFun nothing s)

theorem yields_otherwise (bottom : Label) (here : s.labels.first = bottom)
    (seen : s.input.token = .mark .else) (moved : s.input.Moves input) :
    Yields (.otherwise skip :: rest) (.instruction :: .emit (.label bottom) :: rest) s input
      { code := [.goto bottom, .label skip], labels := 1 } := by
  subst here
  let events := s.events.push (.allocated s.labels.first)
  let jumping : State := { s with
    code := (s.code.push (.goto s.labels.first)).push (.label skip)
    labels := s.labels.after 1
    events }
  refine Yields.of_perform [.instruction, .emit (.label s.labels.first)] events
    (Yields.admits_code _ _) ?_
  calc
    _ = Task.onOtherwise skip (.mark .else) s := congrArg (Task.onOtherwise skip · s) seen
    _ = (advance >>= fun _ => pure [.instruction, .emit (.label s.labels.first)]) jumping := rfl
    _ = _ := bind_of_ok (advance_of_moves (s := jumping) moved)

theorem yields_loopBody (bottom : Label) (here : s.labels.first = bottom) :
    Yields (.loopBody top :: rest)
      (.instruction :: .emit (.goto top) :: .emit (.label bottom) :: rest) s s.input
      { code := [.goFalse bottom], labels := 1 } := by
  subst here
  exact Yields.of_perform [.instruction, .emit (.goto top), .emit (.label s.labels.first)] _
    (Yields.admits_code _ _) rfl

theorem yields_loopTest (bottom : Label) (here : s.labels.first = bottom) :
    Yields (.loopTest top :: rest) rest s s.input
      { code := [.goFalse bottom, .goto top, .label bottom], labels := 1 } := by
  subst here
  exact Yields.of_perform [] _ (Yields.admits_code _ _) rfl

theorem yields_while (top : Label) (here : s.labels.first = top)
    (seen : s.input.token = .mark .while) (moved : s.input.Moves input) :
    Yields (.statement :: rest) (Task.condition ++ .loopBody top :: rest) s input
      { code := [.label top], labels := 1 } := by
  subst here
  exact Yields.of_advance (Task.condition ++ [.loopBody s.labels.first])
    (s.events.push (.allocated s.labels.first)) (perform_statement seen) moved
    (Yields.admits_code [.label s.labels.first] 1) rfl

theorem yields_do (top : Label) (here : s.labels.first = top) (seen : s.input.token = .mark .do)
    (moved : s.input.Moves input) :
    Yields (.statement :: rest) (.instruction :: .pass .while :: (Task.condition ++
      .pass .semicolon :: .loopTest top :: rest)) s input
      { code := [.label top], labels := 1 } := by
  subst here
  exact Yields.of_advance ([.instruction, .pass .while] ++ Task.condition ++
      [.pass .semicolon, .loopTest s.labels.first])
    (s.events.push (.allocated s.labels.first)) (perform_statement seen) moved
    (Yields.admits_code [.label s.labels.first] 1) rfl

theorem yields_instructions_more (seen : Task.beginsInstruction s.input.token = true) :
    Yields (.instructions :: rest) (.instruction :: .instructions :: rest) s s.input {} := by
  apply Yields.of_look [.instruction, .instructions]
  change (pure (if Task.beginsInstruction s.input.token then _ else _) : Compilation _) s = _
  rw [if_pos seen]
  rfl

theorem yields_instructions_end (seen : s.input.token = .mark .closeBrace) :
    Yields (.instructions :: rest) rest s s.input {} := by
  apply Yields.of_look []
  change (pure (if Task.beginsInstruction s.input.token then _ else _) : Compilation _) s = _
  rw [seen]
  rfl

theorem else_notBehind {middle : Input} (more : Statement .many)
    (reads : middle.Reads more.spelling input) (ends : input.token = .mark .closeBrace) :
    middle.token ≠ .mark .else := by
  cases more with
  | nil =>
    obtain rfl := reads
    rw [ends]
    decide
  | cons one more =>
    obtain ⟨token, others, spelled, begins⟩ := one.begins
    obtain ⟨next, inside, _⟩ := Input.reads_append.mp reads
    rw [spelled] at inside
    rw [inside.1]
    rintro rfl
    cases begins

/-- Where tokens spell instructions and may end there, a run gets past them. -/
def Crossable {extent : Extent} (st : Statement extent) : Prop :=
  ∀ {s : State} {input : Input} {rest : List Task} (labels : LabelSupply), s.labels = labels →
    st.ElseNearest → s.input.Reads st.spelling input → st.Ends input.token →
      Yields (extent.task :: rest) rest s input (st.contribution labels)

namespace Crossable

theorem declare (d : Declaration) : Crossable (.declare d) := by
  intro s input rest labels here nearest reads ends
  have stepped : Task.statement.perform s = .ok [.declaration] s := by
    rw [perform_statement reads.1]
    cases d.type <;> rfl
  have begun : Yields (.statement :: rest) (.declaration :: rest) s s.input _ :=
    Yields.of_look [.declaration] stepped
  have read := begun.trans fun _ => yields_declaration d reads
  exact read.congr (by simp)

theorem assign (name : String) (value : Expression) : Crossable (.assign name value) := by
  intro s input rest labels here nearest reads ends
  obtain ⟨seen, first, moved, assigned, second, entered, reads⟩ := reads
  obtain ⟨third, inside, closed, next, left, rfl⟩ := Input.reads_append.mp reads
  have stop : (Grade.joined .disjunction).Stops third.token := by rw [closed]; decide
  have unindexed : first.token ≠ .mark .openBracket := by rw [assigned]; decide
  have used : Yields (.statement :: rest) (.index :: .pass .assign :: .expression ::
      .emit .store :: .pass .semicolon :: rest) s first _ :=
    Yields.of_use [.index, .pass .assign, .expression, .emit .store, .pass .semicolon]
      (perform_statement seen) moved
  have ended := used.trans fun _ => yields_index_end unindexed
  have passed := ended.trans fun _ => Yields.pass assigned entered
  have valued := passed.trans fun _ => yields_expression value inside stop
  have stored := valued.trans fun _ => Yields.emitting .store
  have whole := stored.trans fun _ => Yields.pass closed left
  exact whole.congr (by simp)

theorem update (name : String) (index : Index) (value : Expression) :
    Crossable (.update name index value) := by
  intro s input rest labels here nearest reads ends
  obtain ⟨seen, first, moved, opened, second, entered, reads⟩ := reads
  obtain ⟨third, indexed, closed, fourth, left, assigned, fifth, set, reads⟩ :=
    Input.reads_append.mp reads
  obtain ⟨sixth, inside, stopped, next, final, rfl⟩ := Input.reads_append.mp reads
  have stopIndex : (Grade.joined .sum).Stops third.token := by rw [closed]; decide
  have stop : (Grade.joined .disjunction).Stops sixth.token := by rw [stopped]; decide
  have used : Yields (.statement :: rest) (.index :: .pass .assign :: .expression ::
      .emit .store :: .pass .semicolon :: rest) s first _ :=
    Yields.of_use [.index, .pass .assign, .expression, .emit .store, .pass .semicolon]
      (perform_statement seen) moved
  have begun := used.trans fun _ => yields_index opened entered
  have counted := begun.trans fun _ => (passable index).whole indexed stopIndex
  have shut := counted.trans fun _ => Yields.pass closed left
  have added := shut.trans fun _ => Yields.emitting (.binary .add)
  have passed := added.trans fun _ => Yields.pass assigned set
  have valued := passed.trans fun _ => yields_expression value inside stop
  have stored := valued.trans fun _ => Yields.emitting .store
  have whole := stored.trans fun _ => Yields.pass stopped final
  exact whole.congr (by simp)

theorem print (value : Expression) : Crossable (.print value) := by
  intro s input rest labels here nearest reads ends
  obtain ⟨seen, first, moved, reads⟩ := reads
  obtain ⟨second, inside, closed, next, left, rfl⟩ := Input.reads_append.mp reads
  have begun : Yields (.statement :: rest)
      (Task.condition ++ .pass .semicolon :: .emit .print :: rest) s first _ :=
    Yields.of_pass (Task.condition ++ [.pass .semicolon, .emit .print])
      (perform_statement seen) moved
  have valued := begun.trans fun _ => yields_enclosed value inside
  have passed := valued.trans fun _ => Yields.pass closed left
  have printed := passed.trans fun _ => Yields.emitting .print
  exact printed.congr (by simp)

theorem ifThen {body : Statement .one} (condition : Expression) (ih : Crossable body) :
    Crossable (.ifThen condition body) := by
  intro s input rest labels here nearest reads ends
  subst here
  obtain ⟨seen, first, moved, reads⟩ := reads
  obtain ⟨second, tested, inside⟩ := Input.reads_append.mp reads
  have begun : Yields (.statement :: rest) (Task.condition ++ .branch :: rest) s first _ :=
    Yields.of_pass (Task.condition ++ [.branch]) (perform_statement seen) moved
  have asked := begun.trans fun _ => yields_enclosed condition tested
  have branched := asked.trans fun _ => yields_branch s.labels.first rfl
  have done := branched.trans fun _ =>
    Yields.nested (ih (s.labels.after 1) rfl nearest inside fun _ => ends rfl)
  have ended := done.trans fun _ => yields_otherwise_end (ends rfl)
  exact ended.congr (by simp)

theorem ifElse {yes no : Statement .one} (condition : Expression) (ihYes : Crossable yes)
    (ihNo : Crossable no) :
    Crossable (.ifElse condition yes no) := by
  intro s input rest labels here nearest reads ends
  subst here
  obtain ⟨closed, nearestYes, nearestNo⟩ := nearest
  obtain ⟨seen, first, moved, reads⟩ := reads
  obtain ⟨second, tested, reads⟩ := Input.reads_append.mp reads
  obtain ⟨third, inside, other, fourth, entered, behind⟩ := Input.reads_append.mp reads
  have apart : yes.Ends third.token := by
    intro unended
    rw [closed] at unended
    cases unended
  have begun : Yields (.statement :: rest) (Task.condition ++ .branch :: rest) s first _ :=
    Yields.of_pass (Task.condition ++ [.branch]) (perform_statement seen) moved
  have asked := begun.trans fun _ => yields_enclosed condition tested
  have branched := asked.trans fun _ => yields_branch s.labels.first rfl
  have done := branched.trans fun _ =>
    Yields.nested (ihYes (s.labels.after 1) rfl nearestYes inside apart)
  have jumped := done.trans fun _ =>
    yields_otherwise (s.labels.after (1 + yes.labelCount)).first
      (by simp [State.plus]) other entered
  have both := jumped.trans fun _ =>
    Yields.nested (ihNo (s.labels.after (1 + yes.labelCount + 1))
      (by simp [State.plus]) nearestNo behind ends)
  have ended := both.trans fun _ => Yields.emitting _
  exact ended.congr (by
    simp [Nat.add_assoc]
    omega)

theorem whileDo {body : Statement .one} (condition : Expression) (ih : Crossable body) :
    Crossable (.whileDo condition body) := by
  intro s input rest labels here nearest reads ends
  subst here
  obtain ⟨seen, first, moved, reads⟩ := reads
  obtain ⟨second, tested, inside⟩ := Input.reads_append.mp reads
  have begun : Yields (.statement :: rest) _ s first _ := yields_while s.labels.first rfl seen moved
  have asked := begun.trans fun _ => yields_enclosed condition tested
  have branched := asked.trans fun _ => yields_loopBody (s.labels.after 1).first rfl
  have done := branched.trans fun _ =>
    Yields.nested (ih (s.labels.after 2) rfl nearest inside ends)
  have back := done.trans fun _ => Yields.emitting _
  have ended := back.trans fun _ => Yields.emitting _
  exact ended.congr (by simp)

theorem doWhile {body : Statement .one} (condition : Expression) (ih : Crossable body) :
    Crossable (.doWhile body condition) := by
  intro s input rest labels here nearest reads ends
  subst here
  obtain ⟨seen, first, moved, reads⟩ := reads
  obtain ⟨second, inside, again, third, entered, reads⟩ := Input.reads_append.mp reads
  obtain ⟨fourth, tested, closed, next, left, rfl⟩ := Input.reads_append.mp reads
  have apart : body.Ends second.token := fun _ => by rw [again]; decide
  have begun : Yields (.statement :: rest) _ s first _ := yields_do s.labels.first rfl seen moved
  have done := begun.trans fun _ =>
    Yields.nested (ih (s.labels.after 1) rfl nearest inside apart)
  have passed := done.trans fun _ => Yields.pass again entered
  have asked := passed.trans fun _ => yields_enclosed condition tested
  have shut := asked.trans fun _ => Yields.pass closed left
  have ended := shut.trans fun _ =>
    yields_loopTest (s.labels.after (1 + body.labelCount)).first
      (by simp [State.plus])
  exact ended.congr (by
    simp
    omega)

theorem block {body : Statement .many} (ih : Crossable body) : Crossable (.block body) := by
  intro s input rest labels here nearest reads ends
  obtain ⟨seen, first, moved, reads⟩ := reads
  obtain ⟨second, inside, closed, next, left, rfl⟩ := Input.reads_append.mp reads
  have begun : Yields (.statement :: rest) (.instructions :: .pass .closeBrace :: rest) s first _ :=
    Yields.of_pass [.instructions, .pass .closeBrace] (perform_statement seen) moved
  have done := begun.trans fun _ => ih labels here nearest inside closed
  have ended := done.trans fun _ => Yields.pass closed left
  exact ended.congr (by simp)

theorem nil : Crossable .nil := by
  intro s input rest labels here nearest reads ends
  obtain rfl := reads
  exact yields_instructions_end ends

theorem cons {one : Statement .one} {more : Statement .many} (ihOne : Crossable one)
    (ihMore : Crossable more) :
    Crossable (.cons one more) := by
  intro s input rest labels here nearest reads ends
  subst here
  obtain ⟨middle, inside, behind⟩ := Input.reads_append.mp reads
  obtain ⟨token, others, spelled, begins⟩ := one.begins
  have seen : Task.beginsInstruction s.input.token = true := by
    rw [spelled] at inside
    rw [inside.1, begins]
  have apart : one.Ends middle.token := fun _ => else_notBehind more behind ends
  have begun : Yields (.instructions :: rest) _ s s.input _ := yields_instructions_more seen
  have done := begun.trans fun _ =>
    Yields.nested (ihOne s.labels rfl nearest.1 inside apart)
  have ended := done.trans fun _ =>
    ihMore (s.labels.after one.labelCount)
      (by simp [State.plus]) nearest.2 behind ends
  exact ended.congr (by simp)

end Crossable

theorem crossable {extent : Extent} (st : Statement extent) : Crossable st := by
  induction st with
  | declare d => exact Crossable.declare d
  | assign name value => exact Crossable.assign name value
  | update name index value => exact Crossable.update name index value
  | print value => exact Crossable.print value
  | ifThen condition body ih => exact Crossable.ifThen condition ih
  | ifElse condition yes no ihYes ihNo => exact Crossable.ifElse condition ihYes ihNo
  | whileDo condition body ih => exact Crossable.whileDo condition ih
  | doWhile body condition ih => exact Crossable.doWhile condition ih
  | block body ih => exact Crossable.block ih
  | nil => exact Crossable.nil
  | cons one more ihOne ihMore => exact Crossable.cons ihOne ihMore

end Compilation

end OnePass
