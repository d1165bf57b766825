import Mathlib
import OnePass.Proofs.Course
import OnePass.Proofs.Instructions

/-! The tokens that tasks stand for. The token that a task passes and the tokens that its parts
stand for are tokens that the task stands for. So what is passed on a course begins a tree, and a run
that succeeds has read one. A task for the end of a phrase stands for tokens that complete whatever
tree the phrase began with. -/
namespace OnePass

theorem Token.kind_eq_mark_iff {token : Token} {m : Mark} :
    token.kind = .mark m ↔ token = .mark m := by
  cases token <;> simp [kind]

namespace Task

def language : Task → Language Token
  | expect kind => {w | ∃ token : Token, token.kind = kind ∧ w = [token]}
  | nested inner => inner.language
  | declarations => {w | ∃ ds : List Declaration, w = ds.flatMap Declaration.spelling}
  | declaration => {w | ∃ d : Declaration, w = d.spelling}
  | declarator _ => {w | ∃ d : Declarator, w = d.spelling}
  | declarators _ => {w | ∃ ds, w = Declarator.furtherSpelling ds}
  | declared _ name _ => {w | ∃ d : Declarator, d.spelling = .name name :: w}
  | arraySize .. => {w | ∃ size : Nat, 0 < size ∧ w = [.integer size, .mark .closeBracket]}
  | instructions => {w | ∃ st : Statement .many, w = st.spelling}
  | statement => {w | ∃ st : Statement .one, w = st.spelling}
  | branch => {w | ∀ condition : Expression, ∃ st : Statement .one,
      st.spelling = .mark .if :: (condition.enclosed ++ w)}
  | otherwise _ => {w | ∀ (condition : Expression) (yes : Statement .one), ∃ st : Statement .one,
      st.spelling = .mark .if :: (condition.enclosed ++ (yes.spelling ++ w))}
  | loopBody _ => {w | ∃ st : Statement .one, w = st.spelling}
  | level tier => {w | ∃ e : Expr (.joined tier), w = e.spelling}
  | chain tier => {w | ∀ left : Expr (.joined tier), left.goesOn = true →
      ∃ e : Expr (.joined tier), e.spelling = left.spelling ++ w}
  | operand => {w | ∃ e : Expr .single, w = e.spelling}
  | index => {w | w = [] ∨
      ∃ e : Index, w = .mark .openBracket :: (e.spelling ++ [.mark .closeBracket])}
  | _ => 1

def languageAll (tasks : List Task) : Language Token := (tasks.map language).prod

theorem mem_languageAll_nil {w : List Token} : w ∈ languageAll [] ↔ w = [] := Language.mem_one w

theorem mem_languageAll_cons {task : Task} {rest : List Task} {w : List Token} :
    w ∈ languageAll (task :: rest) ↔
      ∃ u ∈ task.language, ∃ v ∈ languageAll rest, u ++ v = w := by
  rw [languageAll, List.map_cons, List.prod_cons]
  exact Language.mem_mul

theorem mem_languageAll_append {first second : List Task} {w : List Token} :
    w ∈ languageAll (first ++ second) ↔
      ∃ u ∈ languageAll first, ∃ v ∈ languageAll second, u ++ v = w := by
  rw [languageAll, List.map_append, List.prod_append]
  exact Language.mem_mul

theorem mem_pass {m : Mark} {w : List Token} : w ∈ (pass m).language ↔ w = [.mark m] := by
  constructor
  · intro member
    obtain ⟨token, kind, rfl⟩ := member
    rw [Token.kind_eq_mark_iff.mp kind]
  · intro same
    exact ⟨.mark m, rfl, same⟩

variable {token : Token} {rest : List Task} {v w : List Token}

theorem mem_condition (given : w ∈ languageAll (condition ++ rest)) :
    ∃ e : Expression, ∃ v ∈ languageAll rest, w = e.enclosed ++ v := by
  simp only [condition, List.cons_append, List.nil_append, mem_languageAll_cons, mem_pass] at given
  obtain ⟨_, rfl, _, ⟨_, ⟨e, rfl⟩, _, ⟨_, rfl, v, behind, rfl⟩, rfl⟩, rfl⟩ := given
  exact ⟨e, v, behind, by simp [Expr.enclosed]⟩

theorem exists_joined {tier : Tier} {op : BinaryOp} (found : op.tier = tier)
    (left : Expr (.joined tier)) (more : left.goesOn = true) (right : Expr tier.inner) :
    ∃ e : Expr (.joined tier), e.spelling = left.spelling ++ .mark op.mark :: right.spelling ∧
      (tier.chains = true → e.goesOn = true) := by
  by_cases chains : tier = .comparison
  · subst chains
    cases left with
    | bare _ first => exact ⟨.compare op found first right, rfl, Bool.noConfusion⟩
    | join _ _ _ chains _ _ => exact absurd rfl chains
    | compare => cases more
  · exact ⟨.join tier op found chains left right, rfl, fun _ => rfl⟩

theorem operator?_eq_some {tier : Tier} {op : BinaryOp} (found : tier.operator? token = some op) :
    op.tier = tier ∧ token = .mark op.mark := by
  revert found
  fun_cases Tier.operator? tier token <;> intro found <;> cases found <;> exact ⟨rfl, rfl⟩

theorem mem_operandOf {tier : Tier} (member : w ∈ (operandOf tier).language) :
    ∃ e : Expr tier.inner, w = e.spelling := by
  cases tier <;> exact member

theorem mem_level {tier : Tier} (given : w ∈ languageAll [operandOf tier, chain tier]) :
    w ∈ (level tier).language := by
  simp only [mem_languageAll_cons, mem_languageAll_nil] at given
  obtain ⟨_, operand, _, ⟨v, completes, _, rfl, rfl⟩, rfl⟩ := given
  obtain ⟨first, rfl⟩ := mem_operandOf operand
  obtain ⟨e, spelled⟩ := completes (.bare tier first) rfl
  refine ⟨e, ?_⟩
  rw [spelled, List.append_nil]
  rfl

theorem mem_chain {tier : Tier} {op : BinaryOp} (found : tier.operator? token = some op)
    (given : w ∈ languageAll ([operandOf tier, emit (.binary op)] ++
      if tier.chains then [chain tier] else [])) :
    token :: w ∈ (chain tier).language := by
  obtain ⟨belongs, rfl⟩ := operator?_eq_some found
  simp only [List.cons_append, List.nil_append, mem_languageAll_cons] at given
  obtain ⟨_, operand, _, ⟨_, rfl, v, further, rfl⟩, rfl⟩ := given
  obtain ⟨right, rfl⟩ := mem_operandOf operand
  intro left more
  obtain ⟨joined, spelled, goesOn⟩ := exists_joined belongs left more right
  cases chains : tier.chains with
  | false =>
    rw [chains] at further
    obtain rfl := mem_languageAll_nil.mp further
    exact ⟨joined, by simpa using spelled⟩
  | true =>
    rw [chains] at further
    obtain ⟨u, completes, _, nothing, rfl⟩ := mem_languageAll_cons.mp further
    obtain rfl := mem_languageAll_nil.mp nothing
    obtain ⟨e, whole⟩ := completes joined (goesOn chains)
    exact ⟨e, by simp [whole, spelled]⟩

theorem mem_declaration {type : Scalar} (given : w ∈ languageAll (declaratorList type)) :
    .mark type.mark :: w ∈ declaration.language := by
  simp only [declaratorList, mem_languageAll_cons, mem_languageAll_nil, mem_pass] at given
  obtain ⟨_, ⟨first, rfl⟩, _, ⟨_, ⟨others, rfl⟩, _, ⟨_, rfl, _, rfl, rfl⟩, rfl⟩, rfl⟩ := given
  exact ⟨⟨type, first, others⟩, rfl⟩

theorem mem_assignment {name : String}
    (given : w ∈ languageAll [index, pass .assign, expression, emit .store, pass .semicolon]) :
    .name name :: w ∈ statement.language := by
  simp only [mem_languageAll_cons, mem_languageAll_nil, mem_pass] at given
  obtain ⟨_, indexed, _, ⟨_, rfl, _, ⟨_, ⟨value, rfl⟩, _, ⟨_, rfl, _, ⟨_, rfl, _, rfl, rfl⟩, rfl⟩,
    rfl⟩, rfl⟩, rfl⟩ := given
  rcases indexed with rfl | ⟨e, rfl⟩
  · exact ⟨.assign name value, by simp [Statement.spelling]⟩
  · exact ⟨.update name e value, by simp [Statement.spelling]⟩

theorem mem_conditional (given : w ∈ languageAll (condition ++ [branch])) :
    .mark .if :: w ∈ statement.language := by
  obtain ⟨condition, _, further, rfl⟩ := mem_condition given
  obtain ⟨_, completes, _, nothing, rfl⟩ := mem_languageAll_cons.mp further
  obtain rfl := mem_languageAll_nil.mp nothing
  obtain ⟨st, spelled⟩ := completes condition
  exact ⟨st, by simp [spelled]⟩

theorem mem_whileLoop {top : Label} (given : w ∈ languageAll (condition ++ [loopBody top])) :
    .mark .while :: w ∈ statement.language := by
  obtain ⟨condition, _, further, rfl⟩ := mem_condition given
  obtain ⟨_, ⟨body, rfl⟩, _, nothing, rfl⟩ := mem_languageAll_cons.mp further
  obtain rfl := mem_languageAll_nil.mp nothing
  exact ⟨.whileDo condition body, by simp [Statement.spelling]⟩

theorem mem_doLoop {top : Label}
    (given : w ∈ languageAll ([instruction, pass .while] ++ condition ++
      [pass .semicolon, loopTest top])) :
    .mark .do :: w ∈ statement.language := by
  rw [List.append_assoc] at given
  simp only [List.cons_append, List.nil_append, mem_languageAll_cons, mem_pass] at given
  obtain ⟨_, ⟨body, rfl⟩, _, ⟨_, rfl, _, further, rfl⟩, rfl⟩ := given
  obtain ⟨condition, _, behind, rfl⟩ := mem_condition further
  simp only [mem_languageAll_cons, mem_languageAll_nil, mem_pass] at behind
  obtain ⟨_, rfl, _, ⟨_, rfl, _, rfl, rfl⟩, rfl⟩ := behind
  exact ⟨.doWhile body condition, by simp [Statement.spelling]⟩

theorem mem_print (given : w ∈ languageAll (condition ++ [pass .semicolon, emit .print])) :
    .mark .print :: w ∈ statement.language := by
  obtain ⟨value, _, behind, rfl⟩ := mem_condition given
  simp only [mem_languageAll_cons, mem_languageAll_nil, mem_pass] at behind
  obtain ⟨_, rfl, _, ⟨_, rfl, _, rfl, rfl⟩, rfl⟩ := behind
  exact ⟨.print value, by simp [Statement.spelling]⟩

/-- What the parts of a production stand for, behind the token that it passes, is what its task
stands for. -/
theorem Expands.mem_language {task : Task} {passes : Bool} {names : List String} {parts : List Task}
    (expands : task.Expands token passes names parts) (given : w ∈ languageAll parts) :
    (bif passes then [token] else []) ++ w ∈ task.language := by
  cases expands with
  | expect =>
    obtain rfl := mem_languageAll_nil.mp given
    exact ⟨token, rfl, rfl⟩
  | emit | leave | declareArray | loopTest => exact given
  | nested =>
    simp only [mem_languageAll_cons, mem_languageAll_nil] at given
    obtain ⟨u, inside, _, ⟨_, rfl, _, rfl, rfl⟩, rfl⟩ := given
    change u ++ [] ∈ _
    rwa [List.append_nil]
  | declarations =>
    simp only [mem_languageAll_cons, mem_languageAll_nil] at given
    obtain ⟨_, ⟨d, rfl⟩, _, ⟨_, ⟨ds, rfl⟩, _, rfl, rfl⟩, rfl⟩ := given
    exact ⟨d :: ds, by simp⟩
  | declarationsEnd => exact ⟨[], given⟩
  | declaration type => exact mem_declaration given
  | declarator =>
    simp only [mem_languageAll_cons, mem_languageAll_nil] at given
    obtain ⟨_, ⟨d, spelled⟩, _, rfl, rfl⟩ := given
    exact ⟨d, by simp [spelled]⟩
  | declarators =>
    simp only [mem_languageAll_cons, mem_languageAll_nil] at given
    obtain ⟨_, ⟨d, rfl⟩, _, ⟨_, ⟨ds, rfl⟩, _, rfl, rfl⟩, rfl⟩ := given
    exact ⟨d :: ds, by simp [Declarator.furtherSpelling]⟩
  | declaratorsEnd => exact ⟨[], given⟩
  | arrayBegin =>
    simp only [mem_languageAll_cons, mem_languageAll_nil] at given
    obtain ⟨_, ⟨size, positive, rfl⟩, _, rfl, rfl⟩ := given
    exact ⟨.array _ size positive, rfl⟩
  | @initialValue _ name =>
    simp only [mem_languageAll_cons, mem_languageAll_nil] at given
    obtain ⟨_, ⟨value, rfl⟩, _, ⟨_, rfl, _, rfl, rfl⟩, rfl⟩ := given
    exact ⟨.initialized name value, by simp [Declarator.spelling]⟩
  | declaredEnd =>
    obtain rfl := mem_languageAll_nil.mp given
    exact ⟨.plain _, rfl⟩
  | @arraySize _ _ _ size positive =>
    simp only [mem_languageAll_cons, mem_languageAll_nil, mem_pass] at given
    obtain ⟨_, rfl, _, ⟨_, rfl, _, rfl, rfl⟩, rfl⟩ := given
    have kept : (size.toNat : Int) = size := Int.toNat_of_nonneg positive.le
    exact ⟨size.toNat, by omega, by rw [kept]; rfl⟩
  | instructions =>
    simp only [mem_languageAll_cons, mem_languageAll_nil] at given
    obtain ⟨_, ⟨st, rfl⟩, _, ⟨_, ⟨sts, rfl⟩, _, rfl, rfl⟩, rfl⟩ := given
    exact ⟨.cons st sts, by simp [Statement.spelling]⟩
  | instructionsEnd => exact ⟨.nil, given⟩
  | assignment => exact mem_assignment given
  | inner type =>
    simp only [mem_languageAll_cons, mem_languageAll_nil] at given
    obtain ⟨_, ⟨d, rfl⟩, _, rfl, rfl⟩ := given
    exact ⟨.declare d, by simp [Statement.spelling]⟩
  | print => exact mem_print given
  | conditional => exact mem_conditional given
  | whileLoop => exact mem_whileLoop given
  | doLoop => exact mem_doLoop given
  | block =>
    simp only [mem_languageAll_cons, mem_languageAll_nil, mem_pass] at given
    obtain ⟨_, ⟨body, rfl⟩, _, ⟨_, rfl, _, rfl, rfl⟩, rfl⟩ := given
    exact ⟨.block body, rfl⟩
  | branch skip =>
    simp only [mem_languageAll_cons, mem_languageAll_nil] at given
    obtain ⟨_, ⟨yes, rfl⟩, _, ⟨_, completes, _, rfl, rfl⟩, rfl⟩ := given
    intro condition
    obtain ⟨st, spelled⟩ := completes condition yes
    exact ⟨st, by simp [spelled]⟩
  | otherwise =>
    simp only [mem_languageAll_cons, mem_languageAll_nil] at given
    obtain ⟨_, ⟨no, rfl⟩, _, ⟨_, rfl, _, rfl, rfl⟩, rfl⟩ := given
    exact fun condition yes => ⟨.ifElse condition yes no, by simp [Statement.spelling]⟩
  | otherwiseEnd =>
    obtain rfl := mem_languageAll_nil.mp given
    exact fun condition yes => ⟨.ifThen condition yes, by simp [Statement.spelling]⟩
  | loopBody top bottom =>
    simp only [mem_languageAll_cons, mem_languageAll_nil] at given
    obtain ⟨_, ⟨body, rfl⟩, _, ⟨_, rfl, _, ⟨_, rfl, _, rfl, rfl⟩, rfl⟩, rfl⟩ := given
    exact ⟨body, by simp⟩
  | level tier => exact mem_level given
  | chain found => exact mem_chain found given
  | chainEnd =>
    obtain rfl := mem_languageAll_nil.mp given
    exact fun left _ => ⟨left, (List.append_nil _).symm⟩
  | negation =>
    simp only [mem_languageAll_cons, mem_languageAll_nil] at given
    obtain ⟨_, ⟨e, rfl⟩, _, ⟨_, rfl, _, rfl, rfl⟩, rfl⟩ := given
    exact ⟨.not e, by simp [Expr.spelling]⟩
  | group =>
    simp only [mem_languageAll_cons, mem_languageAll_nil, mem_pass] at given
    obtain ⟨_, ⟨e, rfl⟩, _, ⟨_, rfl, _, rfl, rfl⟩, rfl⟩ := given
    exact ⟨.group e, rfl⟩
  | truth =>
    obtain rfl := mem_languageAll_nil.mp given
    exact ⟨.truth true, rfl⟩
  | falsity =>
    obtain rfl := mem_languageAll_nil.mp given
    exact ⟨.truth false, rfl⟩
  | @integer value =>
    obtain rfl := mem_languageAll_nil.mp given
    exact ⟨.integer value, rfl⟩
  | @real value =>
    obtain rfl := mem_languageAll_nil.mp given
    exact ⟨.real value, rfl⟩
  | @name name =>
    simp only [mem_languageAll_cons, mem_languageAll_nil] at given
    obtain ⟨_, rfl | ⟨e, rfl⟩, _, ⟨_, rfl, _, rfl, rfl⟩, rfl⟩ := given
    · exact ⟨.name name, rfl⟩
    · exact ⟨.element name e, by simp [Expr.spelling]⟩
  | index =>
    simp only [mem_languageAll_cons, mem_languageAll_nil, mem_pass] at given
    obtain ⟨_, ⟨e, rfl⟩, _, ⟨_, rfl, _, ⟨_, rfl, _, rfl, rfl⟩, rfl⟩, rfl⟩ := given
    exact .inr ⟨e, by simp⟩
  | indexEnd =>
    obtain rfl := mem_languageAll_nil.mp given
    exact .inl rfl

theorem nonempty_joined (tier : Tier) : Nonempty (Expr (.joined tier)) := by
  have product : Expr (.joined .product) := .bare .product (.integer 0)
  have sum : Expr (.joined .sum) := .bare .sum product
  have comparison : Expr (.joined .comparison) := .bare .comparison sum
  have conjunction : Expr (.joined .conjunction) := .bare .conjunction comparison
  cases tier with
  | disjunction => exact ⟨.bare .disjunction conjunction⟩
  | conjunction => exact ⟨conjunction⟩
  | comparison => exact ⟨comparison⟩
  | sum => exact ⟨sum⟩
  | product => exact ⟨product⟩

/-- There are tokens that a task stands for. -/
theorem exists_mem_language (task : Task) : ∃ w, w ∈ task.language := by
  induction task with
  | expect kind =>
    cases kind with
    | integer => exact ⟨_, .integer 0, rfl, rfl⟩
    | real => exact ⟨_, .real default, rfl, rfl⟩
    | name => exact ⟨_, .name "", rfl, rfl⟩
    | mark m => exact ⟨_, .mark m, rfl, rfl⟩
    | finish => exact ⟨_, .finish, rfl, rfl⟩
  | nested inner ih => exact ih
  | declarations => exact ⟨_, [], rfl⟩
  | declaration => exact ⟨_, ⟨.int, .plain "", []⟩, rfl⟩
  | declarator type => exact ⟨_, .plain "", rfl⟩
  | declarators type => exact ⟨_, [], rfl⟩
  | declared type name line => exact ⟨[], .plain name, rfl⟩
  | arraySize => exact ⟨_, 1, one_pos, rfl⟩
  | instructions => exact ⟨_, .nil, rfl⟩
  | statement | loopBody => exact ⟨_, .block .nil, rfl⟩
  | branch => exact ⟨_, fun condition => ⟨.ifThen condition (.block .nil), rfl⟩⟩
  | otherwise skip =>
    exact ⟨[], fun condition yes => ⟨.ifThen condition yes, by simp [Statement.spelling]⟩⟩
  | level tier =>
    obtain ⟨e⟩ := nonempty_joined tier
    exact ⟨_, e, rfl⟩
  | chain tier => exact ⟨[], fun left _ => ⟨left, (List.append_nil _).symm⟩⟩
  | operand => exact ⟨_, .integer 0, rfl⟩
  | index => exact ⟨[], .inl rfl⟩
  | emit | leave | declareArray | loopTest => exact ⟨[], rfl⟩

theorem exists_mem_languageAll (tasks : List Task) : ∃ w, w ∈ languageAll tasks := by
  induction tasks with
  | nil => exact ⟨[], mem_languageAll_nil.mpr rfl⟩
  | cons task rest ih =>
    obtain ⟨u, first⟩ := task.exists_mem_language
    obtain ⟨v, behind⟩ := ih
    exact ⟨u ++ v, mem_languageAll_cons.mpr ⟨u, first, v, behind, rfl⟩⟩

theorem mem_program {halting : Bool} (given : w ∈ languageAll (program halting)) :
    ∃ p : Program, w = p.spelling ++ [Token.finish] := by
  unfold program at given
  have ending : ∀ v ∈ languageAll (if halting then [emit .halt] else []), v = [] := by
    intro v member
    cases halting with
    | false => exact mem_languageAll_nil.mp member
    | true =>
      simp only [if_true, mem_languageAll_cons, mem_languageAll_nil] at member
      obtain ⟨_, rfl, _, rfl, rfl⟩ := member
      rfl
  simp only [List.cons_append, List.nil_append, mem_languageAll_cons, mem_pass] at given
  obtain ⟨_, rfl, _, ⟨_, rfl, _, ⟨_, rfl, _, ⟨_, ⟨ds, rfl⟩, _, ⟨_, ⟨body, rfl⟩, _, ⟨_, rfl, _, ⟨_,
    ⟨token, kind, rfl⟩, v, last, rfl⟩, rfl⟩, rfl⟩, rfl⟩, rfl⟩, rfl⟩, rfl⟩ := given
  obtain rfl := (Token.kind_eq_finish_iff token).mp kind
  obtain rfl := ending v last
  exact ⟨⟨ds, body⟩, by simp [Program.spelling]⟩

end Task

namespace Statement

/-- An `else` behind an instruction that it would belong to can be read into it. -/
theorem exists_attached {extent : Extent} (st : Statement extent) (no : Statement .one)
    (unended : st.isOpen = true) (nearest : st.ElseNearest) (fine : no.ElseNearest) :
    ∃ whole : Statement .one, whole.spelling = st.spelling ++ .mark .else :: no.spelling ∧
      whole.ElseNearest := by
  induction st with
  | ifThen condition body ih =>
    cases inner : body.isOpen with
    | true =>
      obtain ⟨whole, spelled, settled⟩ := ih inner nearest
      exact ⟨.ifThen condition whole, by simp [spelling, spelled], settled⟩
    | false => exact ⟨.ifElse condition body no, by simp [spelling], inner, nearest, fine⟩
  | ifElse condition yes other _ ih =>
    obtain ⟨closed, before, behind⟩ := nearest
    obtain ⟨whole, spelled, settled⟩ := ih unended behind
    exact ⟨.ifElse condition yes whole, by simp [spelling, spelled], closed, before, settled⟩
  | whileDo condition body ih =>
    obtain ⟨whole, spelled, settled⟩ := ih unended nearest
    exact ⟨.whileDo condition whole, by simp [spelling, spelled], settled⟩
  | _ => cases unended

/-- Whatever `if` an `else` belongs to, the tokens can be read with each `else` at the nearest. -/
theorem exists_nearest {extent : Extent} (st : Statement extent) :
    ∃ other : Statement extent, other.spelling = st.spelling ∧ other.ElseNearest := by
  induction st with
  | ifThen condition body ih =>
    obtain ⟨body', spelled, nearest⟩ := ih
    exact ⟨.ifThen condition body', by simp [spelling, spelled], nearest⟩
  | ifElse condition yes no ihYes ihNo =>
    obtain ⟨yes', one, nearest⟩ := ihYes
    obtain ⟨no', two, fine⟩ := ihNo
    cases unended : yes'.isOpen with
    | false =>
      exact ⟨.ifElse condition yes' no', by simp [spelling, one, two], unended, nearest, fine⟩
    | true =>
      obtain ⟨whole, spelled, settled⟩ := yes'.exists_attached no' unended nearest fine
      exact ⟨.ifThen condition whole, by simp [spelling, spelled, one, two], settled⟩
  | whileDo condition body ih =>
    obtain ⟨body', spelled, nearest⟩ := ih
    exact ⟨.whileDo condition body', by simp [spelling, spelled], nearest⟩
  | doWhile body condition ih =>
    obtain ⟨body', spelled, nearest⟩ := ih
    exact ⟨.doWhile body' condition, by simp [spelling, spelled], nearest⟩
  | block body ih =>
    obtain ⟨body', spelled, nearest⟩ := ih
    exact ⟨.block body', by simp [spelling, spelled], nearest⟩
  | cons first rest ihFirst ihRest =>
    obtain ⟨first', one, before⟩ := ihFirst
    obtain ⟨rest', two, behind⟩ := ihRest
    exact ⟨.cons first' rest', by simp [spelling, one, two], before, behind⟩
  | declare d => exact ⟨.declare d, rfl, trivial⟩
  | assign name value => exact ⟨.assign name value, rfl, trivial⟩
  | update name index value => exact ⟨.update name index value, rfl, trivial⟩
  | print value => exact ⟨.print value, rfl, trivial⟩
  | nil => exact ⟨.nil, rfl, trivial⟩

end Statement

theorem Program.exists_nearest (p : Program) :
    ∃ q : Program, q.spelling = p.spelling ∧ q.body.ElseNearest := by
  obtain ⟨body, spelled, nearest⟩ := p.body.exists_nearest
  exact ⟨⟨p.declarations, body⟩, by simp [spelling, spelled], nearest⟩

namespace Compilation

variable {tasks others : List Task} {s t final : State} {passed : List Located} {w : List Token}

/-- What is passed on a course, in front of tokens that the tasks left stand for, is what the tasks
at its start stand for. -/
theorem Reaches.mem_languageAll (reaches : Reaches tasks s passed others t)
    (given : w ∈ Task.languageAll others) :
    passed.map (·.token) ++ w ∈ Task.languageAll tasks := by
  induction reaches with
  | refl => exact given
  | stay steps _ ih =>
    obtain ⟨u, inside, v, behind, whole⟩ := Task.mem_languageAll_append.mp (ih given)
    exact Task.mem_languageAll_cons.mpr ⟨u, steps.expands.mem_language inside, v, behind, whole⟩
  | pass steps _ ih =>
    obtain ⟨u, inside, v, behind, whole⟩ := Task.mem_languageAll_append.mp (ih given)
    refine Task.mem_languageAll_cons.mpr ⟨_, steps.expands.mem_language inside, v, behind, ?_⟩
    rw [List.map_cons, List.cons_append, ← whole]
    rfl

theorem exists_program {halting : Bool} {s final : State}
    (done : program halting s = .ok () final) :
    ∃ p : Program, p.body.ElseNearest ∧
      s.input.Reads (p.spelling ++ [Token.finish]) final.input := by
  obtain ⟨passed, reaches⟩ := exists_reaches_of_ok done
  have whole := reaches.mem_languageAll (Task.mem_languageAll_nil.mpr rfl)
  obtain ⟨p, spelled⟩ := Task.mem_program whole
  obtain ⟨q, same, nearest⟩ := p.exists_nearest
  refine ⟨q, nearest, ?_⟩
  rw [same, ← spelled, List.append_nil]
  exact reaches.passes.reads

end Compilation

end OnePass
