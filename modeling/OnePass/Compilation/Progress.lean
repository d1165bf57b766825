import OnePass.Compilation.Task

/-! Why a compilation ends. Performing a task either passes a token or leaves tasks of
lower cost. The cost of a list of tasks counts up to the first task that is sure to pass a
token, since whatever stands behind it is reached with less input. -/
namespace OnePass

namespace Compilation

variable {α β : Type} {s after : State}

theorem bind_eq_ok {step : Compilation α} {next : α → Compilation β} {result : β} :
    (step >>= next) s = .ok result after ↔
      ∃ value middle, step s = .ok value middle ∧ next value middle = .ok result after := by
  simp only [bind, EStateM.bind]
  cases step s with
  | ok value middle =>
    simp only [EStateM.Result.ok.injEq]
    exact ⟨fun h => ⟨value, middle, ⟨rfl, rfl⟩, h⟩, by rintro ⟨_, _, ⟨rfl, rfl⟩, h⟩; exact h⟩
  | error fault middle => simp

theorem pure_eq_ok {value result : α} :
    (pure value : Compilation α) s = .ok result after ↔ value = result ∧ s = after :=
  ⟨EStateM.Result.ok.inj, fun ⟨same, still⟩ => same ▸ still ▸ rfl⟩

theorem throw_ne_ok {fault : Diagnostic} {result : α} :
    (throw fault : Compilation α) s ≠ .ok result after :=
  fun done => nomatch done

theorem unexpected_ne_ok {expected : String} {result : α} :
    unexpected expected s ≠ .ok result after :=
  throw_ne_ok

def KeepsInput (step : Compilation α) : Prop :=
  ∀ s result after, step s = .ok result after →
    after.source = s.source ∧ after.lookahead = s.lookahead

namespace KeepsInput

theorem bind {step : Compilation α} {next : α → Compilation β} (first : KeepsInput step)
    (second : ∀ value, KeepsInput (next value)) : KeepsInput (step >>= next) := by
  intro s result after done
  obtain ⟨value, middle, left, right⟩ := bind_eq_ok.1 done
  have earlier := first _ _ _ left
  have later := second value _ _ _ right
  exact ⟨later.1.trans earlier.1, later.2.trans earlier.2⟩

theorem pure (value : α) : KeepsInput (pure value) := by
  intro s result after done
  simp [(pure_eq_ok.1 done).2]

theorem throw (fault : Diagnostic) : KeepsInput (throw fault : Compilation α) :=
  fun _ _ _ done => absurd done throw_ne_ok

theorem unexpected (expected : String) : KeepsInput (unexpected expected : Compilation α) :=
  fun _ _ _ done => absurd done unexpected_ne_ok

theorem emit (instruction : Instruction) : KeepsInput (emit instruction) := by
  intro s result after done
  obtain ⟨_, rfl⟩ := EStateM.Result.ok.inj done
  exact ⟨rfl, rfl⟩

theorem fresh : KeepsInput fresh := by
  intro s result after done
  obtain ⟨_, rfl⟩ := EStateM.Result.ok.inj done
  exact ⟨rfl, rfl⟩

theorem leave : KeepsInput leave := by
  intro s result after done
  obtain ⟨_, rfl⟩ := EStateM.Result.ok.inj done
  exact ⟨rfl, rfl⟩

theorem enter : KeepsInput enter := by
  intro s result after done
  change (if s.depth < maxNesting then set { s with depth := s.depth + 1 }
    else MonadExcept.throw (Diagnostic.tooDeep s.line maxNesting) : Compilation Unit) s = _ at done
  split at done
  · obtain ⟨_, rfl⟩ := EStateM.Result.ok.inj done
    exact ⟨rfl, rfl⟩
  · exact absurd done throw_ne_ok

theorem declare (name : String) (type : DataType) (line : Nat) :
    KeepsInput (declare name type line) := by
  intro s result after done
  unfold Compilation.declare at done
  obtain ⟨_, _, seen, done⟩ := bind_eq_ok.1 done
  obtain ⟨rfl, rfl⟩ := EStateM.Result.ok.inj seen
  cases known : s.symbols.declare name type <;> rw [known] at done
  · exact absurd done throw_ne_ok
  · obtain ⟨_, rfl⟩ := EStateM.Result.ok.inj done
    exact ⟨rfl, rfl⟩

theorem pushName (name : String) (line : Nat) : KeepsInput (pushName name line) := by
  intro s result after done
  unfold Compilation.pushName at done
  obtain ⟨_, _, seen, done⟩ := bind_eq_ok.1 done
  obtain ⟨rfl, rfl⟩ := EStateM.Result.ok.inj seen
  cases known : s.symbols.lookup name <;> rw [known] at done
  · exact absurd done throw_ne_ok
  · exact emit _ _ _ _ done

theorem remaining {step : Compilation α} (keeps : KeepsInput step) {result : α}
    (done : step s = .ok result after) : after.remaining = s.remaining := by
  have same := keeps _ _ _ done
  simp [State.remaining, same]

end KeepsInput

theorem remaining_of_advance (done : advance s = .ok () after) :
    after.remaining ≤ s.source.remaining := by
  unfold advance at done
  split at done
  · rename_i token rest delivered
    simp only [EStateM.Result.ok.injEq, true_and] at done
    subst done
    exact Source.weight_next_le delivered
  · simp at done

theorem remaining_lt_of_advance (done : advance s = .ok () after)
    (inner : s.lookahead.token ≠ .finish) : after.remaining < s.remaining := by
  have bound := remaining_of_advance done
  simp only [State.remaining, Located.weight, inner, if_false] at bound ⊢
  omega

end Compilation

namespace Task

open Compilation

/-- Whether performing a task to its end is sure to pass a token. -/
@[simp] def consumes : Task → Bool
  | expect kind => kind ≠ .finish
  | nested inner => inner.consumes
  | declaration => true
  | declarator _ => true
  | arraySize .. => true
  | statement => true
  | branch => true
  | loopBody _ => true
  | level _ => true
  | operand => true
  | _ => false

/-- More than the number of tasks performed before a task passes a token or is gone. -/
@[simp] def rank : Task → Nat
  | nested inner => inner.rank + 2
  | declarations => 2
  | statement => 2
  | instructions => 5
  | branch => 5
  | loopBody _ => 5
  | level .product => 2
  | level .sum => 3
  | level .comparison => 4
  | level .conjunction => 5
  | level .disjunction => 6
  | _ => 1

/-- The ranks up to the first task that is sure to pass a token. -/
@[simp] def cost : List Task → Nat
  | [] => 0
  | task :: rest => task.rank + if task.consumes then 0 else cost rest

/-- What one step has to achieve: less input, or the same input and a lower cost. -/
def Advances (task : Task) (s : State) (tasks : List Task) (after : State) : Prop :=
  after.remaining < s.remaining ∨
    after.remaining = s.remaining ∧ ∀ rest, cost (tasks ++ rest) < cost (task :: rest)

variable {task : Task} {token : Token} {s after : State} {tasks : List Task}

theorem Advances.of_pass {next : Unit → Compilation (List Task)}
    (done : (advance >>= next) s = .ok tasks after) (inner : s.lookahead.token ≠ .finish)
    (keeps : KeepsInput (next ())) : Advances task s tasks after := by
  obtain ⟨_, middle, moved, ended⟩ := bind_eq_ok.1 done
  have shorter := remaining_lt_of_advance moved inner
  have same := keeps.remaining ended
  exact .inl (by omega)

theorem Advances.of_pure {given : List Task} (done : (pure given : Compilation _) s = .ok tasks after)
    (cheaper : ∀ rest, cost (given ++ rest) < cost (task :: rest)) :
    Advances task s tasks after := by
  obtain ⟨rfl, rfl⟩ := pure_eq_ok.1 done
  exact .inr ⟨rfl, cheaper⟩

theorem Advances.of_keeps {α : Type} {step : Compilation α} {next : α → Compilation (List Task)}
    (done : (step >>= next) s = .ok tasks after) (keeps : KeepsInput step)
    (rest : ∀ value middle, middle.lookahead = s.lookahead →
      next value middle = .ok tasks after → Advances task middle tasks after) :
    Advances task s tasks after := by
  obtain ⟨value, middle, first, second⟩ := bind_eq_ok.1 done
  have same := keeps.remaining first
  unfold Advances at rest ⊢
  rw [← same]
  exact rest value middle (keeps _ _ _ first).2 second

theorem onDeclaration_advances (seen : s.lookahead.token = token)
    (done : onDeclaration token s = .ok tasks after) : Advances declaration s tasks after := by
  revert done
  fun_cases onDeclaration token <;> intro done
  case case4 => exact absurd done unexpected_ne_ok
  all_goals exact .of_pass done (by simp [seen]) (.pure _)

theorem onDeclarator_advances {type : Scalar} {line : Nat} (seen : s.lookahead.token = token)
    (done : onDeclarator type line token s = .ok tasks after) :
    Advances (declarator type) s tasks after := by
  revert done
  fun_cases onDeclarator type line token <;> intro done
  case case2 => exact absurd done unexpected_ne_ok
  all_goals exact .of_pass done (by simp [seen]) (.pure _)

theorem onDeclarators_advances {type : Scalar} (seen : s.lookahead.token = token)
    (done : onDeclarators type token s = .ok tasks after) :
    Advances (declarators type) s tasks after := by
  revert done
  fun_cases onDeclarators type token <;> intro done
  case case1 => exact .of_pass done (by simp [seen]) (.pure _)
  case case2 => exact .of_pure done (by simp)

theorem onDeclared_advances {type : Scalar} {name : String} {line : Nat}
    (seen : s.lookahead.token = token)
    (done : onDeclared type name line token s = .ok tasks after) :
    Advances (declared type name line) s tasks after := by
  revert done
  fun_cases onDeclared type name line token <;> intro done
  case case1 => exact .of_pass done (by simp [seen]) (.pure _)
  case case2 =>
    exact .of_keeps done (.declare _ _ _) fun _ middle same done =>
      .of_pass done (by simp [same, seen]) (.bind (.emit _) fun _ => .pure _)
  case case3 =>
    exact .of_keeps done (.declare _ _ _) fun _ middle same done =>
      .of_pure done (by simp)

theorem onArraySize_advances {element : Scalar} {name : String} {line sizeLine : Nat}
    (seen : s.lookahead.token = token)
    (done : onArraySize element name line sizeLine token s = .ok tasks after) :
    Advances (arraySize element name line) s tasks after := by
  revert done
  fun_cases onArraySize element name line sizeLine token <;> intro done
  case case1 size =>
    refine .of_pass done (by simp [seen]) ?_
    by_cases positive : 0 < size <;> simp only [positive, if_true, if_false]
    · exact .pure _
    · exact .throw _
  case case2 => exact absurd done unexpected_ne_ok

theorem onStatement_advances {line : Nat} (seen : s.lookahead.token = token)
    (done : onStatement line token s = .ok tasks after) : Advances statement s tasks after := by
  revert done
  fun_cases onStatement line token <;> intro done
  case case1 =>
    exact .of_pass done (by simp [seen]) (.bind (.pushName _ _) fun _ => .pure _)
  case case2 | case3 | case4 => exact .of_pure done (by simp)
  case case7 | case8 =>
    exact .of_pass done (by simp [seen])
      (.bind .fresh fun _ => .bind (.emit _) fun _ => .pure _)
  case case10 => exact absurd done unexpected_ne_ok
  all_goals exact .of_pass done (by simp [seen]) (.pure _)

theorem onOtherwise_advances {skip : Label} (seen : s.lookahead.token = token)
    (done : onOtherwise skip token s = .ok tasks after) :
    Advances (otherwise skip) s tasks after := by
  revert done
  fun_cases onOtherwise skip token <;> intro done
  case case1 =>
    exact .of_keeps done .fresh fun _ _ first done =>
      .of_keeps done (.emit _) fun _ _ second done =>
        .of_keeps done (.emit _) fun _ _ third done =>
          .of_pass done (by simp [third, second, first, seen]) (.pure _)
  case case2 =>
    exact .of_keeps done (.emit _) fun _ _ _ done =>
      .of_pure done (by simp)

theorem operator?_finish (tier : Tier) : tier.operator? .finish = none := by
  cases tier <;> rfl

theorem onChain_advances {tier : Tier} (seen : s.lookahead.token = token)
    (done : onChain tier token s = .ok tasks after) : Advances (chain tier) s tasks after := by
  unfold onChain at done
  cases found : tier.operator? token with
  | some op =>
    simp only [found] at done
    refine .of_pass done ?_ (.pure _)
    rintro ended
    rw [← seen, ended, operator?_finish] at found
    contradiction
  | none =>
    simp only [found] at done
    exact .of_pure done (by simp)

theorem onOperand_advances {line : Nat} (seen : s.lookahead.token = token)
    (done : onOperand line token s = .ok tasks after) : Advances operand s tasks after := by
  revert done
  fun_cases onOperand line token <;> intro done
  case case1 | case2 => exact .of_pass done (by simp [seen]) (.pure _)
  case case7 =>
    exact .of_pass done (by simp [seen]) (.bind (.pushName _ _) fun _ => .pure _)
  case case8 => exact absurd done unexpected_ne_ok
  all_goals exact .of_pass done (by simp [seen]) (.bind (.emit _) fun _ => .pure _)

theorem onIndex_advances (seen : s.lookahead.token = token)
    (done : onIndex token s = .ok tasks after) : Advances index s tasks after := by
  revert done
  fun_cases onIndex token <;> intro done
  case case1 => exact .of_pass done (by simp [seen]) (.pure _)
  case case2 => exact .of_pure done (by simp)

theorem expect_advances {kind : Kind}
    (done : (do Compilation.expect kind; return []) s = .ok tasks after) :
    Advances (expect kind) s tasks after := by
  obtain ⟨_, middle, moved, ended⟩ := bind_eq_ok.1 done
  obtain ⟨rfl, rfl⟩ := pure_eq_ok.1 ended
  obtain ⟨_, _, got, moved⟩ := bind_eq_ok.1 moved
  obtain ⟨rfl, rfl⟩ := EStateM.Result.ok.inj got
  by_cases fits : s.lookahead.kind = kind
  · simp only [fits, if_true] at moved
    by_cases ended : s.lookahead.token = .finish
    · have kindEnded : kind = .finish := by rw [← fits, Located.kind, ended]; rfl
      have bound := remaining_of_advance moved
      have cheaper : ∀ rest, cost ([] ++ rest) < cost (expect kind :: rest) := by
        simp [kindEnded]
      simp only [Advances, State.remaining] at bound ⊢
      by_cases same : middle.lookahead.weight + middle.source.remaining =
          s.lookahead.weight + s.source.remaining
      · exact .inr ⟨same, cheaper⟩
      · exact .inl (by omega)
    · exact .inl (remaining_lt_of_advance moved ended)
  · simp only [fits, if_false] at moved
    exact absurd moved unexpected_ne_ok

theorem perform_advances (done : task.perform s = .ok tasks after) :
    Advances task s tasks after := by
  obtain ⟨_, _, got, done⟩ := bind_eq_ok.1 done
  obtain ⟨rfl, rfl⟩ := EStateM.Result.ok.inj got
  cases task with
  | expect kind => exact expect_advances done
  | emit instruction =>
    exact .of_keeps done (.emit _) fun _ _ _ done => .of_pure done (by simp)
  | nested inner =>
    refine .of_keeps done .enter fun _ _ _ done => .of_pure done fun rest => ?_
    cases sure : inner.consumes <;> simp [sure]
    omega
  | leave =>
    exact .of_keeps done .leave fun _ _ _ done => .of_pure done (by simp)
  | declarations =>
    refine .of_pure done fun rest => ?_
    split
    · simp
      omega
    · simp
  | declaration => exact onDeclaration_advances rfl done
  | declarator type => exact onDeclarator_advances rfl done
  | declarators type => exact onDeclarators_advances rfl done
  | declared type name line => exact onDeclared_advances rfl done
  | arraySize element name line => exact onArraySize_advances rfl done
  | declareArray element name line size =>
    exact .of_keeps done (.declare _ _ _) fun _ _ _ done =>
      .of_keeps done (.emit _) fun _ _ _ done => .of_pure done (by simp)
  | instructions =>
    refine .of_pure done fun rest => ?_
    split
    · simp [instruction]
      omega
    · simp
  | statement => exact onStatement_advances rfl done
  | branch =>
    exact .of_keeps done .fresh fun _ _ _ done =>
      .of_keeps done (.emit _) fun _ _ _ done =>
        .of_pure done (by simp [instruction])
  | otherwise skip => exact onOtherwise_advances rfl done
  | loopBody top =>
    exact .of_keeps done .fresh fun _ _ _ done =>
      .of_keeps done (.emit _) fun _ _ _ done =>
        .of_pure done (by simp [instruction])
  | loopTest top =>
    exact .of_keeps done .fresh fun _ _ _ done =>
      .of_keeps done (.emit _) fun _ _ _ done =>
        .of_keeps done (.emit _) fun _ _ _ done =>
          .of_keeps done (.emit _) fun _ _ _ done =>
            .of_pure done (by simp)
  | level tier =>
    refine .of_pure done fun rest => ?_
    cases tier <;> simp [operandOf]
  | chain tier => exact onChain_advances rfl done
  | operand => exact onOperand_advances rfl done
  | index => exact onIndex_advances rfl done

end Task

end OnePass
