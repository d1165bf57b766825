import Mathlib
import OnePass.Proofs.Expression

/-! How a compilation gets past declarations. -/
namespace OnePass

namespace Declarator

@[simp] def contribution (type : Scalar) (d : Declarator) : Contribution where
  code := d.code type
  mentions := d.mentions type
  nesting := d.nesting

@[simp] def contributionAll (type : Scalar) (declarators : List Declarator) : Contribution where
  code := declarators.flatMap (code type)
  mentions := declarators.flatMap (mentions type)
  nesting := nestingAll declarators

end Declarator

namespace Declaration

@[simp] def contribution (d : Declaration) : Contribution where
  code := d.code
  mentions := d.mentions
  nesting := d.nesting

@[simp] def contributionAll (declarations : List Declaration) : Contribution where
  code := declarations.flatMap code
  mentions := declarations.flatMap mentions
  nesting := nestingAll declarations

end Declaration

namespace Compilation

variable {s : State} {input : Input} {rest : List Task} {type : Scalar} {name : String}
  {line size : Nat}

theorem yields_declared_end
    (ends : s.input.token = .mark .comma ∨ s.input.token = .mark .semicolon) :
    Yields (.declared type name line :: rest) rest s s.input
      { mentions := [.declares ⟨name, .scalar type⟩] } := by
  have stepped : (Task.declared type name line).perform s =
      (do declare name (.scalar type) line; return []) s := by
    change Task.onDeclared type name line s.input.token s = _
    rcases ends with seen | seen <;> rw [seen] <;> rfl
  exact Yields.of_declare ⟨name, .scalar type⟩ [] stepped fun _ => rfl

theorem yields_declared_value (seen : s.input.token = .mark .assign)
    (moved : s.input.Moves input) :
    Yields (.declared type name line :: rest) (.expression :: .emit .store :: rest) s input
      { code := [.push (.name name)], mentions := [.declares ⟨name, .scalar type⟩] } := by
  refine Yields.of_declare ⟨name, .scalar type⟩ [.expression, .emit .store]
    (congrArg (Task.onDeclared type name line · s) seen) fun events => ?_
  let known : State := { s with symbols := s.symbols.add ⟨name, .scalar type⟩, events }
  exact bind_of_ok (advance_of_moves (s := known) moved)

theorem yields_declared_size (seen : s.input.token = .mark .openBracket)
    (moved : s.input.Moves input) :
    Yields (.declared type name line :: rest) (.arraySize type name line :: rest) s input {} :=
  Yields.of_pass [.arraySize type name line] (congrArg (Task.onDeclared type name line · s) seen)
    moved

theorem yields_arraySize (positive : 0 < size) (seen : s.input.token = .integer size)
    (moved : s.input.Moves input) :
    Yields (.arraySize type name line :: rest)
      (.pass .closeBracket :: .declareArray type name line size :: rest) s input {} := by
  refine Yields.of_pass [.pass .closeBracket, .declareArray type name line size] ?_ moved
  change Task.onArraySize type name line s.line s.input.token s = _
  have fits : (0 : Int) < size := Int.natCast_pos.mpr positive
  simp only [seen, Task.onArraySize, fits, if_true, Int.toNat_natCast]

theorem yields_declareArray :
    Yields (.declareArray type name line size :: rest) rest s s.input
      { code := [.array name type size], mentions := [.declares ⟨name, .array type size⟩] } :=
  Yields.of_declare ⟨name, .array type size⟩ [] rfl fun _ => rfl

theorem yields_declarator_name (seen : s.input.token = .name name) (moved : s.input.Moves input) :
    Yields (.declarator type :: rest) (.declared type name s.lookahead.place.line :: rest)
      s input {} :=
  Yields.of_pass [.declared type name s.lookahead.place.line]
    (congrArg (Task.onDeclarator type s.lookahead.place.line · s) seen) moved

theorem yields_declarator (d : Declarator) (reads : s.input.Reads d.spelling input)
    (ends : input.token = .mark .comma ∨ input.token = .mark .semicolon) :
    Yields (.declarator type :: rest) rest s input (d.contribution type) := by
  cases d with
  | plain name =>
    obtain ⟨seen, next, moved, rfl⟩ := reads
    have named : Yields (.declarator type :: rest) _ s next _ := yields_declarator_name seen moved
    have declared := named.trans fun _ => yields_declared_end ends
    exact declared.congr (by simp [Declarator.code, Declarator.mentions, Declarator.nesting])
  | initialized name value =>
    obtain ⟨seen, next, moved, assigned, first, entered, reads⟩ := reads
    have stop : (Grade.joined .disjunction).Stops input.token := by
      rcases ends with last | last <;> rw [last] <;> decide
    have named : Yields (.declarator type :: rest) _ s next _ := yields_declarator_name seen moved
    have declared := named.trans fun _ => yields_declared_value assigned entered
    have valued := declared.trans fun _ => yields_expression value reads stop
    have stored := valued.trans fun _ => Yields.emitting .store
    exact stored.congr (by simp [Declarator.code, Declarator.mentions, Declarator.nesting])
  | array name size positive =>
    obtain ⟨seen, first, moved, opened, second, entered, sized, third, counted, closed, next, left,
      rfl⟩ := reads
    have named : Yields (.declarator type :: rest) _ s first _ := yields_declarator_name seen moved
    have begun := named.trans fun _ => yields_declared_size opened entered
    have measured := begun.trans fun _ => yields_arraySize positive sized counted
    have ended := measured.trans fun _ => Yields.pass closed left
    have declared := ended.trans fun _ => yields_declareArray
    exact declared.congr (by simp [Declarator.code, Declarator.mentions, Declarator.nesting])

theorem yields_declarators_comma (seen : s.input.token = .mark .comma)
    (moved : s.input.Moves input) :
    Yields (.declarators type :: rest) (.declarator type :: .declarators type :: rest) s input {} :=
  Yields.of_pass [.declarator type, .declarators type]
    (congrArg (Task.onDeclarators type · s) seen) moved

theorem yields_declarators_end (seen : s.input.token = .mark .semicolon) :
    Yields (.declarators type :: rest) rest s s.input {} :=
  Yields.of_look [] (congrArg (Task.onDeclarators type · s) seen)

theorem ends_declarator {others : List Declarator} {middle : Input}
    (reads : middle.Reads (Declarator.furtherSpelling others) input)
    (last : input.token = .mark .semicolon) :
    middle.token = .mark .comma ∨ middle.token = .mark .semicolon := by
  cases others with
  | nil =>
    obtain rfl := reads
    exact Or.inr last
  | cons d others => exact Or.inl reads.1

theorem yields_declarators (others : List Declarator)
    (reads : s.input.Reads (Declarator.furtherSpelling others) input)
    (last : input.token = .mark .semicolon) :
    Yields (.declarators type :: rest) rest s input (Declarator.contributionAll type others) := by
  induction others generalizing s with
  | nil =>
    obtain rfl := reads
    exact yields_declarators_end last
  | cons d others ih =>
    obtain ⟨seen, first, moved, reads⟩ := reads
    obtain ⟨middle, inside, behind⟩ := Input.reads_append.mp reads
    have begun : Yields (.declarators type :: rest) _ s first _ :=
      yields_declarators_comma seen moved
    have read := begun.trans fun _ => yields_declarator d inside (ends_declarator behind last)
    have ended := read.trans fun _ => ih behind
    exact ended.congr (by simp [Declarator.nestingAll])

theorem yields_type (seen : s.input.token = .mark type.mark) (moved : s.input.Moves input) :
    Yields (.declaration :: rest)
      (.declarator type :: .declarators type :: .pass .semicolon :: rest) s input {} := by
  refine Yields.of_pass (Task.declaratorList type) ?_ moved
  change Task.onDeclaration s.input.token s = _
  rw [seen]
  cases type <;> rfl

theorem yields_declaration (d : Declaration) (reads : s.input.Reads d.spelling input) :
    Yields (.declaration :: rest) rest s input d.contribution := by
  obtain ⟨seen, first, moved, reads⟩ := reads
  obtain ⟨second, inside, reads⟩ := Input.reads_append.mp reads
  obtain ⟨third, behind, closed, next, left, rfl⟩ := Input.reads_append.mp reads
  have begun : Yields (.declaration :: rest) _ s first _ := yields_type seen moved
  have one := begun.trans fun _ => yields_declarator d.first inside (ends_declarator behind closed)
  have all := one.trans fun _ => yields_declarators d.others behind closed
  have ended := all.trans fun _ => Yields.pass closed left
  exact ended.congr (by simp [Declaration.code, Declaration.mentions, Declaration.nesting])

theorem beginsDeclaration_mark (type : Scalar) :
    Task.beginsDeclaration (.mark type.mark) = true := by
  cases type <;> rfl

theorem yields_declarations_more (seen : Task.beginsDeclaration s.input.token = true) :
    Yields (.declarations :: rest) (.declaration :: .declarations :: rest) s s.input {} := by
  apply Yields.of_look [.declaration, .declarations]
  change (pure (if Task.beginsDeclaration s.input.token then _ else _) : Compilation _) s = _
  rw [if_pos seen]
  rfl

theorem yields_declarations_end (seen : Task.beginsDeclaration s.input.token = false) :
    Yields (.declarations :: rest) rest s s.input {} := by
  apply Yields.of_look []
  change (pure (if Task.beginsDeclaration s.input.token then _ else _) : Compilation _) s = _
  rw [seen]
  rfl

theorem yields_declarations (ds : List Declaration)
    (reads : s.input.Reads (ds.flatMap Declaration.spelling) input)
    (last : Task.beginsDeclaration input.token = false) :
    Yields (.declarations :: rest) rest s input (Declaration.contributionAll ds) := by
  induction ds generalizing s with
  | nil =>
    obtain rfl := reads
    exact yields_declarations_end last
  | cons d ds ih =>
    obtain ⟨middle, inside, behind⟩ := Input.reads_append.mp reads
    have seen : Task.beginsDeclaration s.input.token = true := by
      rw [inside.1]
      exact beginsDeclaration_mark d.type
    have begun : Yields (.declarations :: rest) _ s s.input _ := yields_declarations_more seen
    have read := begun.trans fun _ => yields_declaration d inside
    have ended := read.trans fun _ => ih behind
    exact ended.congr (by simp [Declaration.nestingAll])

end Compilation

end OnePass
