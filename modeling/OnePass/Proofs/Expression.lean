import Mathlib
import OnePass.Proofs.Translation
import OnePass.Proofs.Yield

/-! How a compilation gets past an expression: tokens that spell a tree yield the code of the
tree. An expression ends where no operator of its tiers and no index follows. -/
namespace OnePass

def Tier.within : Tier → List Tier
  | disjunction => [disjunction, conjunction, comparison, sum, product]
  | conjunction => [conjunction, comparison, sum, product]
  | comparison => [comparison, sum, product]
  | sum => [sum, product]
  | product => [product]

namespace Grade

def tiers : Grade → List Tier
  | single => []
  | joined tier => tier.within

def Stops (grade : Grade) (token : Token) : Prop :=
  token ≠ .mark .openBracket ∧ ∀ tier ∈ grade.tiers, tier.operator? token = none

instance (grade : Grade) (token : Token) : Decidable (grade.Stops token) :=
  inferInstanceAs (Decidable (_ ∧ _))

def core : Grade → Grade
  | single => single
  | joined tier => tier.inner

def pending (grade : Grade) (goesOn : Bool) : List Task :=
  match grade with
  | single => []
  | joined tier => if goesOn then [.chain tier] else []

def task : Grade → Task
  | single => .operand
  | joined tier => .level tier

theorem stops_joined {tier : Tier} {token : Token} :
    (joined tier).Stops token ↔ tier.operator? token = none ∧ tier.inner.Stops token := by
  have tiers : (joined tier).tiers = tier :: tier.inner.tiers := by cases tier <;> rfl
  simp only [Stops, tiers, List.forall_mem_cons]
  tauto

theorem core_stops {grade : Grade} {token : Token} (stops : grade.Stops token) :
    grade.core.Stops token := by
  cases grade with
  | single => exact stops
  | joined tier => exact (stops_joined.mp stops).2

end Grade

theorem Task.operandOf_eq (tier : Tier) : Task.operandOf tier = tier.inner.task := by
  cases tier <;> rfl

namespace BinaryOp

theorem operator?_mark {op : BinaryOp} {tier : Tier} (belongs : op.tier = tier) :
    tier.operator? (.mark op.mark) = some op := by
  subst belongs
  cases op <;> rfl

theorem inner_stops_mark {op : BinaryOp} {tier : Tier} (belongs : op.tier = tier) :
    tier.inner.Stops (.mark op.mark) := by
  subst belongs
  cases op <;> decide

end BinaryOp

namespace Expr

@[simp] def contribution {grade : Grade} (e : Expr grade) : Contribution where
  code := e.code
  mentions := e.mentions
  nesting := e.nesting

/-- Whether more operators of the tier may follow. Behind a comparison none may. -/
def goesOn : {grade : Grade} → Expr grade → Bool
  | _, compare _ _ _ _ => false
  | _, _ => true

end Expr

namespace Compilation

variable {s : State} {input : Input} {rest : List Task}

theorem yields_chain_end {tier : Tier} (ends : tier.operator? s.input.token = none) :
    Yields (.chain tier :: rest) rest s s.input {} := by
  apply Yields.of_look []
  change Task.onChain tier s.input.token s = _
  rw [Task.onChain, ends]
  rfl

theorem yields_chain {tier : Tier} {op : BinaryOp} (seen : s.input.token = .mark op.mark)
    (belongs : op.tier = tier) (moved : s.input.Moves input) :
    Yields (.chain tier :: rest) (Task.operandOf tier :: .emit (.binary op) ::
      ((if tier.chains then [.chain tier] else []) ++ rest)) s input {} := by
  refine Yields.of_pass ([Task.operandOf tier, .emit (.binary op)] ++
    if tier.chains then [.chain tier] else []) ?_ moved
  change Task.onChain tier s.input.token s = _
  rw [Task.onChain, seen, BinaryOp.operator?_mark belongs]

theorem yields_index (seen : s.input.token = .mark .openBracket) (moved : s.input.Moves input) :
    Yields (.index :: rest)
      (.level .sum :: .pass .closeBracket :: .emit (.binary .add) :: rest) s input {} :=
  Yields.of_pass [.level .sum, .pass .closeBracket, .emit (.binary .add)]
    (congrArg (Task.onIndex · s) seen) moved

theorem yields_index_end (ends : s.input.token ≠ .mark .openBracket) :
    Yields (.index :: rest) rest s s.input {} := by
  have nothing : Task.onIndex s.input.token = pure [] := by
    unfold Task.onIndex
    split
    · contradiction
    · rfl
  exact Yields.of_look [] (congrFun nothing s)

theorem perform_operand {token : Token} (seen : s.input.token = token) :
    Task.operand.perform s = Task.onOperand s.lookahead.place.line token s :=
  congrArg (Task.onOperand s.lookahead.place.line · s) seen

theorem yields_level (tier : Tier) :
    Yields (.level tier :: rest) (tier.inner.task :: .chain tier :: rest) s s.input {} := by
  rw [← Task.operandOf_eq]
  exact Yields.of_look [Task.operandOf tier, .chain tier] rfl

/-- Where tokens spell the expression, a run gets past it, up to where operators of its own
tier may go on. -/
def Passable {grade : Grade} (e : Expr grade) : Prop :=
  ∀ (s : State) (input : Input) (rest : List Task), s.input.Reads e.spelling input →
    grade.core.Stops input.token →
      Yields (grade.task :: rest) (grade.pending e.goesOn ++ rest) s input e.contribution

theorem Passable.whole {grade : Grade} {e : Expr grade} (passable : Passable e)
    (reads : s.input.Reads e.spelling input) (stops : grade.Stops input.token) :
    Yields (grade.task :: rest) rest s input e.contribution := by
  have begun := passable s input rest reads (Grade.core_stops stops)
  cases grade with
  | single => exact begun
  | joined tier =>
    have ends := (Grade.stops_joined.mp stops).1
    cases more : e.goesOn with
    | false => rwa [more] at begun
    | true =>
      rw [more] at begun
      have ended := begun.trans fun _ => yields_chain_end ends
      exact ended.congr (Contribution.append_nothing _)

theorem goesOn_of_chains {tier : Tier} (e : Expr (.joined tier)) (chains : tier ≠ .comparison) :
    e.goesOn = true := by
  cases e with
  | bare operand => rfl
  | join op belongs chains left right => rfl
  | compare op belongs left right => exact absurd rfl chains

theorem passable {grade : Grade} (e : Expr grade) : Passable e := by
  induction e with
  | integer value =>
    intro s input rest spelled stops
    obtain ⟨seen, next, moved, rfl⟩ := spelled
    exact Yields.of_emit (perform_operand seen) moved
  | real value =>
    intro s input rest spelled stops
    obtain ⟨seen, next, moved, rfl⟩ := spelled
    exact Yields.of_emit (perform_operand seen) moved
  | truth value =>
    intro s input rest spelled stops
    cases value with
    | true =>
      obtain ⟨seen, next, moved, rfl⟩ := spelled
      exact Yields.of_emit (perform_operand seen) moved
    | false =>
      obtain ⟨seen, next, moved, rfl⟩ := spelled
      exact Yields.of_emit (perform_operand seen) moved
  | name text =>
    intro s input rest spelled stops
    obtain ⟨seen, next, moved, rfl⟩ := spelled
    have used : Yields (.operand :: rest) (.index :: .emit .load :: rest) s next _ :=
      Yields.of_use [.index, .emit .load] (perform_operand seen) moved
    have ended := used.trans fun _ => yields_index_end stops.1
    exact ended.trans fun _ => Yields.emitting .load
  | element text index ih =>
    intro s input rest spelled stops
    obtain ⟨seen, first, moved, opened, second, entered, reads⟩ := spelled
    obtain ⟨third, inside, closed, next, left, rfl⟩ := Input.reads_append.mp reads
    have stop : (Grade.joined .sum).Stops third.token := by rw [closed]; decide
    have used : Yields (.operand :: rest) (.index :: .emit .load :: rest) s first _ :=
      Yields.of_use [.index, .emit .load] (perform_operand seen) moved
    have begun := used.trans fun _ => yields_index opened entered
    have read := begun.trans fun _ => ih.whole inside stop
    have passed := read.trans fun _ => Yields.pass closed left
    have added := passed.trans fun _ => Yields.emitting (.binary .add)
    have loaded := added.trans fun _ => Yields.emitting .load
    exact loaded.congr (by simp)
  | not operand ih =>
    intro s input rest spelled stops
    obtain ⟨seen, next, moved, reads⟩ := spelled
    have begun : Yields (.operand :: rest) (.nested .operand :: .emit .not :: rest) s next _ :=
      Yields.of_pass [.nested .operand, .emit .not] (perform_operand seen) moved
    have read := begun.trans fun _ => Yields.nested (ih.whole reads stops)
    have negated := read.trans fun _ => Yields.emitting .not
    exact negated.congr (by simp)
  | group inner ih =>
    intro s input rest spelled stops
    obtain ⟨seen, first, moved, reads⟩ := spelled
    obtain ⟨second, inside, closed, next, left, rfl⟩ := Input.reads_append.mp reads
    have stop : (Grade.joined .disjunction).Stops second.token := by rw [closed]; decide
    have begun : Yields (.operand :: rest) (.expression :: .pass .closeParen :: rest) s first _ :=
      Yields.of_pass [.expression, .pass .closeParen] (perform_operand seen) moved
    have read := begun.trans fun _ => Yields.nested (ih.whole inside stop)
    have passed := read.trans fun _ => Yields.pass closed left
    exact passed.congr (by simp)
  | bare tier operand ih =>
    intro s input rest reads stops
    have begun : Yields (.level tier :: rest) (tier.inner.task :: .chain tier :: rest) s s.input _ :=
      yields_level tier
    have read := begun.trans fun _ => ih.whole reads stops
    exact read.congr (by simp)
  | join tier op belongs chains left right ihl ihr =>
    intro s input rest reads stops
    obtain ⟨first, before, seen, second, moved, behind⟩ := Input.reads_append.mp reads
    have stop : tier.inner.Stops first.token := by
      rw [seen]
      exact BinaryOp.inner_stops_mark belongs
    have begun := ihl s first rest before stop
    rw [goesOn_of_chains left chains] at begun
    have passed := begun.trans fun _ => yields_chain seen belongs moved
    rw [Task.operandOf_eq, Tier.chains_iff.mpr chains] at passed
    have read := passed.trans fun _ => ihr.whole behind stops
    have joined := read.trans fun _ => Yields.emitting (.binary op)
    exact joined.congr (by simp)
  | compare op belongs left right ihl ihr =>
    intro s input rest reads stops
    obtain ⟨first, before, seen, second, moved, behind⟩ := Input.reads_append.mp reads
    have stop : (Grade.joined .sum).Stops first.token := by
      rw [seen]
      exact BinaryOp.inner_stops_mark belongs
    have begun : Yields (.level .comparison :: rest) (.level .sum :: .chain .comparison :: rest)
        s s.input _ := yields_level .comparison
    have read := begun.trans fun _ => ihl.whole before stop
    have passed := read.trans fun _ => yields_chain seen belongs moved
    have compared := passed.trans fun _ => ihr.whole behind stops
    have joined := compared.trans fun _ => Yields.emitting (.binary op)
    exact joined.congr (by simp)

theorem yields_expression (e : Expression) (reads : s.input.Reads e.spelling input)
    (stops : (Grade.joined .disjunction).Stops input.token) :
    Yields (.expression :: rest) rest s input e.contribution.deeper :=
  Yields.nested ((passable e).whole reads stops)

theorem yields_enclosed (e : Expression) (reads : s.input.Reads e.enclosed input) :
    Yields (Task.condition ++ rest) rest s input e.contribution.deeper := by
  obtain ⟨seen, first, moved, reads⟩ := reads
  obtain ⟨second, inside, closed, next, left, rfl⟩ := Input.reads_append.mp reads
  have stop : (Grade.joined .disjunction).Stops second.token := by rw [closed]; decide
  have begun : Yields (Task.condition ++ rest) (.expression :: .pass .closeParen :: rest) s first _ :=
    Yields.pass seen moved
  have read := begun.trans fun _ => yields_expression e inside stop
  have passed := read.trans fun _ => Yields.pass closed left
  exact passed.congr (by simp)

end Compilation

end OnePass
