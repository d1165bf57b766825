import Mathlib
import OnePass.Proofs.Delivery

/-! Reading a text as it is needed comes to the same as reading its tokens first. A compilation sees
of its source one token, that token's line, and at the end of input the line of the source. Two
sources that agree in these lead a compilation through the same steps. If the text ends in a fault,
they agree up to there. -/
namespace OnePass

namespace Source

/-- Given tokens in place of a text: all tokens of the text, or, if it ends in a fault, those in
front of the fault and any others behind them. At the end of the text the tokens are used up. -/
inductive Mirrors : Option Diagnostic → Source → Source → Prop where
  | within {fault : Option Diagnostic} {cursor : Cursor} {rest behind : List Located} {line : Nat} :
    (Source.text cursor).drain = (rest, fault) → (fault = none → behind = []) →
      Mirrors fault (.text cursor) (.given (rest ++ behind) line)
  | ended {cursor : Cursor} : cursor.next = (.ok ⟨.finish, cursor.place⟩, cursor) →
      Mirrors none (.text cursor) (.given [] cursor.place.line)

end Source

/-- Inputs that a compilation cannot tell apart, as far as their sources mirror each other. -/
structure Input.Mirrors (fault : Option Diagnostic) (one other : Input) : Prop where
  source : Source.Mirrors fault one.source other.source
  token : one.token = other.token
  place : one.lookahead.place.line = other.lookahead.place.line
  ending : one.token = .finish → one.source.line = other.source.line

/-- What a source delivers, its mirror delivers too, unless it is the fault. -/
theorem Source.Mirrors.next {fault : Option Diagnostic} {one other : Source}
    (mirrors : Mirrors fault one other) :
    (∃ cause, fault = some cause ∧ (one.next).1 = .error cause) ∨
      ∃ left right, Input.Opens one left ∧ Input.Opens other right ∧ left.Mirrors fault right := by
  cases mirrors with
  | @ended cursor still =>
    refine Or.inr ⟨⟨⟨.finish, cursor.place⟩, .text cursor⟩,
      ⟨⟨.finish, ⟨cursor.place.line, 1⟩⟩, .given [] cursor.place.line⟩, ?_, rfl, ?_⟩
    · simp only [Input.Opens, Source.next, still]
    · exact ⟨.ended still, rfl, rfl, fun _ => rfl⟩
  | @within _ cursor rest behind line drained full =>
    rcases delivered : cursor.next with ⟨cause | token, after⟩
    · have called : (Source.text cursor).next = (.error cause, .text after) := by
        simp only [Source.next, delivered]
      obtain ⟨_, rfl⟩ := Prod.mk.inj ((drain_of_fault called).symm.trans drained)
      exact Or.inl ⟨cause, rfl, congrArg Prod.fst called⟩
    · have called : (Source.text cursor).next = (.ok token, .text after) := by
        simp only [Source.next, delivered]
      right
      by_cases ended : token.token = .finish
      · obtain ⟨rfl, rfl⟩ := Prod.mk.inj ((drain_of_finish called ended).symm.trans drained)
        obtain rfl := full rfl
        obtain ⟨still, place⟩ := Cursor.next_of_finish delivered ended
        obtain ⟨last, place'⟩ := token
        obtain rfl : last = .finish := ended
        obtain rfl : after.place = place' := place
        exact ⟨⟨⟨.finish, after.place⟩, .text after⟩,
          ⟨⟨.finish, after.place⟩, .given [] after.place.line⟩, called, rfl,
          .ended still, rfl, rfl, fun _ => rfl⟩
      · obtain ⟨rfl, rfl⟩ := Prod.mk.inj ((drain_of_token called ended).symm.trans drained)
        refine ⟨⟨token, .text after⟩, ⟨token, .given _ token.place.line⟩, called, rfl, ?_⟩
        exact ⟨.within rfl full, rfl, rfl, fun finish => absurd finish ended⟩

namespace Compilation

/-- Results of the same steps on inputs that mirror each other. The first may be cut off by the
fault; a fault of the steps themselves is not a lexical one. -/
inductive Agrees {α : Type} (fault : Option Diagnostic) :
    EStateM.Result Diagnostic State α → EStateM.Result Diagnostic State α → Prop where
  | cut {cause : Diagnostic} {after : State} {other : EStateM.Result Diagnostic State α} :
    fault = some cause → Agrees fault (.error cause after) other
  | ok {value : α} {after : State} {input : Input} : after.input.Mirrors fault input →
    Agrees fault (.ok value after) (.ok value (after.facing input))
  | error {cause : Diagnostic} {after : State} {input : Input} : cause.isLexical = false →
    Agrees fault (.error cause after) (.error cause (after.facing input))

/-- A step does not tell inputs apart that mirror each other. -/
def Follows {α : Type} (fault : Option Diagnostic) (step : Compilation α) : Prop :=
  ∀ (s : State) (input : Input), s.input.Mirrors fault input →
    Agrees fault (step s) (step (s.facing input))

theorem State.line_facing {fault : Option Diagnostic} {s : State} {input : Input}
    (mirrors : s.input.Mirrors fault input) : (s.facing input).line = s.line := by
  have token : s.lookahead.token = input.lookahead.token := mirrors.token
  unfold line
  simp only [facing, ← token]
  by_cases ended : s.lookahead.token = .finish
  · rw [if_pos ended, if_pos ended]
    exact (mirrors.ending ended).symm
  · rw [if_neg ended, if_neg ended]
    exact mirrors.place.symm

namespace Follows

variable {α β : Type} {fault : Option Diagnostic}

theorem pure (value : α) : Follows fault (pure value) := fun _ _ mirrors => .ok mirrors

theorem throw {cause : Diagnostic} (other : cause.isLexical = false) :
    Follows fault (throw cause : Compilation α) := fun _ _ _ => .error other

theorem bind {step : Compilation α} {next : α → Compilation β} (first : Follows fault step)
    (second : ∀ value, Follows fault (next value)) : Follows fault (step >>= next) := by
  intro s input mirrors
  have here := first s input mirrors
  generalize one : step s = result at here
  generalize two : step (s.facing input) = other at here
  cases here with
  | cut known =>
    rw [bind_of_error one]
    exact .cut known
  | ok further =>
    rw [bind_of_ok one, bind_of_ok two]
    exact second _ _ _ further
  | error other =>
    rw [bind_of_error one, bind_of_error two]
    exact .error other

/-- What a compilation looks at is the same in both inputs. -/
theorem look {next : State → Compilation α}
    (same : ∀ s input, s.input.Mirrors fault input → next (s.facing input) = next s)
    (later : ∀ s, Follows fault (next s)) : Follows fault (get >>= next) := by
  intro s input mirrors
  rw [bind_of_ok get_eq, bind_of_ok get_eq, same s input mirrors]
  exact later s s input mirrors

theorem advance : Follows fault advance := by
  intro s input mirrors
  rcases mirrors.source.next with ⟨cause, known, failed⟩ | ⟨left, right, opens, other, further⟩
  · have called : s.source.next = (.error cause, (s.source.next).2) := Prod.ext failed rfl
    have stopped : Compilation.advance s = .error cause { s with source := (s.source.next).2 } := by
      unfold Compilation.advance
      rw [called]
    rw [stopped]
    exact .cut known
  · have one : Compilation.advance s = .ok () (s.facing left) := advance_of_moves opens
    have two : Compilation.advance (s.facing input) = .ok () ((s.facing left).facing right) :=
      advance_of_moves (s := s.facing input) other
    rw [one, two]
    exact .ok further

theorem unexpected (expected : String) : Follows fault (unexpected expected : Compilation α) := by
  refine .look (fun s input mirrors => ?_) fun _ => .throw rfl
  have token : (s.facing input).lookahead.token = s.lookahead.token := mirrors.token.symm
  simp only [State.line_facing mirrors, token]

theorem expect (kind : Kind) : Follows fault (expect kind) := by
  refine .look (fun s input mirrors => ?_) fun s => ?_
  · have token : input.lookahead.kind = s.lookahead.kind := congrArg Token.kind mirrors.token.symm
    simp only [State.facing, token]
  · by_cases fits : s.lookahead.kind = kind
    · rw [if_pos fits]
      exact advance
    · rw [if_neg fits]
      exact unexpected _

theorem emit (instruction : Instruction) : Follows fault (emit instruction) :=
  fun _ _ mirrors => .ok mirrors

theorem fresh : Follows fault fresh := fun _ _ mirrors => .ok mirrors

theorem leave : Follows fault leave := fun _ _ mirrors => .ok mirrors

theorem enter : Follows fault enter := by
  intro s input mirrors
  by_cases room : s.depth < maxNesting
  · rw [enter_of_room room, enter_of_room (s := s.facing input) room]
    exact .ok mirrors
  · rw [enter_of_full room, enter_of_full (s := s.facing input) room, State.line_facing mirrors]
    exact .error rfl

theorem declare (entry : Entry) (line : Nat) :
    Follows fault (declare entry.name entry.type line) := by
  intro s input mirrors
  by_cases known : entry.name ∈ s.symbols.names
  · rw [declare_of_known known, declare_of_known (s := s.facing input) known]
    exact .error rfl
  · rw [declare_of_unknown known, declare_of_unknown (s := s.facing input) known]
    exact .ok mirrors

theorem pushName (name : String) (line : Nat) : Follows fault (pushName name line) := by
  intro s input mirrors
  by_cases known : name ∈ s.symbols.names
  · rw [pushName_of_known line known, pushName_of_known (s := s.facing input) line known]
    exact .ok mirrors
  · rw [pushName_of_unknown line known, pushName_of_unknown (s := s.facing input) line known]
    exact .error rfl

end Follows

end Compilation

namespace Task

open Compilation

variable {fault : Option Diagnostic}

theorem follows_declaration (token : Token) : Follows fault (onDeclaration token) := by
  fun_cases onDeclaration token
  case case4 => exact .unexpected _
  all_goals exact .bind .advance fun _ => .pure _

theorem follows_declarator (type : Scalar) (line : Nat) (token : Token) :
    Follows fault (onDeclarator type line token) := by
  fun_cases onDeclarator type line token
  case case1 => exact .bind .advance fun _ => .pure _
  case case2 => exact .unexpected _

theorem follows_declarators (type : Scalar) (token : Token) :
    Follows fault (onDeclarators type token) := by
  fun_cases onDeclarators type token
  case case1 => exact .bind .advance fun _ => .pure _
  case case2 => exact .pure _

theorem follows_declared (type : Scalar) (name : String) (line : Nat) (token : Token) :
    Follows fault (onDeclared type name line token) := by
  have declares : Follows fault (Compilation.declare name (.scalar type) line) :=
    .declare ⟨name, .scalar type⟩ line
  fun_cases onDeclared type name line token
  case case1 => exact .bind .advance fun _ => .pure _
  case case2 =>
    exact .bind declares fun _ => .bind .advance fun _ => .bind (.emit _) fun _ => .pure _
  case case3 => exact .bind declares fun _ => .pure _

theorem follows_arraySize (element : Scalar) (name : String) (line sizeLine : Nat) (token : Token) :
    Follows fault (onArraySize element name line sizeLine token) := by
  fun_cases onArraySize element name line sizeLine token
  case case1 size =>
    refine .bind .advance fun _ => ?_
    by_cases positive : 0 < size
    · rw [if_pos positive]
      exact .pure _
    · rw [if_neg positive]
      exact .throw rfl
  case case2 => exact .unexpected _

theorem follows_statement (line : Nat) (token : Token) :
    Follows fault (onStatement line token) := by
  fun_cases onStatement line token
  case case1 => exact .bind .advance fun _ => .bind (.pushName _ _) fun _ => .pure _
  case case2 | case3 | case4 => exact .pure _
  case case7 | case8 =>
    exact .bind .advance fun _ => .bind .fresh fun _ => .bind (.emit _) fun _ => .pure _
  case case10 => exact .unexpected _
  all_goals exact .bind .advance fun _ => .pure _

theorem follows_otherwise (skip : Label) (token : Token) :
    Follows fault (onOtherwise skip token) := by
  fun_cases onOtherwise skip token
  case case1 =>
    exact .bind .fresh fun _ => .bind (.emit _) fun _ => .bind (.emit _) fun _ =>
      .bind .advance fun _ => .pure _
  case case2 => exact .bind (.emit _) fun _ => .pure _

theorem follows_chain (tier : Tier) (token : Token) : Follows fault (onChain tier token) := by
  unfold onChain
  cases tier.operator? token with
  | none => exact .pure _
  | some op => exact .bind .advance fun _ => .pure _

theorem follows_operand (line : Nat) (token : Token) : Follows fault (onOperand line token) := by
  fun_cases onOperand line token
  case case1 | case2 => exact .bind .advance fun _ => .pure _
  case case7 => exact .bind .advance fun _ => .bind (.pushName _ _) fun _ => .pure _
  case case8 => exact .unexpected _
  all_goals exact .bind .advance fun _ => .bind (.emit _) fun _ => .pure _

theorem follows_index (token : Token) : Follows fault (onIndex token) := by
  fun_cases onIndex token
  case case1 => exact .bind .advance fun _ => .pure _
  case case2 => exact .pure _

theorem perform_follows (task : Task) : Follows fault task.perform := by
  refine .look (fun s input mirrors => ?_) fun s => ?_
  · have token : (s.facing input).lookahead.token = s.lookahead.token := mirrors.token.symm
    have place : (s.facing input).lookahead.place.line = s.lookahead.place.line :=
      mirrors.place.symm
    simp only [State.line_facing mirrors, token, place]
  cases task with
  | expect kind => exact .bind (.expect kind) fun _ => .pure _
  | emit instruction => exact .bind (.emit _) fun _ => .pure _
  | nested inner => exact .bind .enter fun _ => .pure _
  | leave => exact .bind .leave fun _ => .pure _
  | declarations => exact .pure _
  | declaration => exact follows_declaration _
  | declarator type => exact follows_declarator _ _ _
  | declarators type => exact follows_declarators _ _
  | declared type name line => exact follows_declared _ _ _ _
  | arraySize element name line => exact follows_arraySize _ _ _ _ _
  | declareArray element name line size =>
    exact .bind (.declare ⟨name, .array element size⟩ line) fun _ =>
      .bind (.emit _) fun _ => .pure _
  | instructions => exact .pure _
  | statement => exact follows_statement _ _
  | branch => exact .bind .fresh fun _ => .bind (.emit _) fun _ => .pure _
  | otherwise skip => exact follows_otherwise _ _
  | loopBody top => exact .bind .fresh fun _ => .bind (.emit _) fun _ => .pure _
  | loopTest top =>
    exact .bind .fresh fun _ => .bind (.emit _) fun _ => .bind (.emit _) fun _ =>
      .bind (.emit _) fun _ => .pure _
  | level tier => exact .pure _
  | chain tier => exact follows_chain _ _
  | operand => exact follows_operand _ _
  | index => exact follows_index _

end Task

namespace Compilation

variable {fault : Option Diagnostic}

theorem run_follows (tasks : List Task) : Follows fault (run tasks) := by
  intro s input mirrors
  fun_induction run tasks s generalizing input with
  | case1 s =>
    rw [run_nil]
    exact .ok mirrors
  | case2 s task rest parts after performed ih =>
    have here := task.perform_follows s input mirrors
    rw [performed] at here
    generalize two : task.perform (s.facing input) = other at here
    cases here with
    | ok further =>
      rw [run_cons_ok rest two]
      exact ih _ further
  | case3 s task rest cause after performed =>
    have here := task.perform_follows s input mirrors
    rw [performed] at here
    generalize two : task.perform (s.facing input) = other at here
    cases here with
    | cut known => exact .cut known
    | error nonlexical =>
      rw [run_cons_error rest two]
      exact .error nonlexical

end Compilation

namespace Session

variable {session : Session} {fault : Option Diagnostic} {one other : Source}

/-- A compile is cut off by the fault of its source, or it comes to the same attempt and the same
session with a source that mirrors it, and then has no lexical fault. -/
theorem compile_of_mirrors (mirrors : Source.Mirrors fault one other) :
    (∃ cause, fault = some cause ∧ (session.compile one).1.outcome = .error cause) ∨
      session.compile one = session.compile other ∧
        ∀ cause, (session.compile one).1.outcome = .error cause → cause.isLexical = false := by
  rcases mirrors.next with ⟨cause, known, failed⟩ | ⟨left, right, opens, otherOpens, further⟩
  · have called : one.next = (.error cause, (one.next).2) := Prod.ext failed rfl
    have stopped : Compilation.start one session.labels = .error cause := by
      unfold Compilation.start
      rw [called]
    refine Or.inl ⟨cause, known, ?_⟩
    unfold Session.labels at stopped
    unfold compile
    simp only [stopped]
  · have first := Compilation.start_of_opens opens session.labels
    have second := Compilation.start_of_opens otherOpens session.labels
    have agrees := Compilation.run_follows (Task.program session.options.halting)
      (.opening session.labels left) right further
    change Compilation.Agrees fault (Compilation.program session.options.halting _)
      (Compilation.program session.options.halting (.opening session.labels right)) at agrees
    unfold Session.labels at first second agrees
    unfold compile
    simp only [first, second]
    generalize Compilation.program session.options.halting _ = result at agrees ⊢
    generalize Compilation.program session.options.halting _ = result' at agrees ⊢
    cases agrees with
    | cut known => exact Or.inl ⟨_, known, rfl⟩
    | ok further => exact Or.inr ⟨rfl, fun _ failed => by cases failed⟩
    | error nonlexical =>
      exact Or.inr ⟨rfl, fun _ failed => Except.error.inj failed ▸ nonlexical⟩

/-- Reading a text as it is needed comes to the same as reading all its tokens first: the same
code and symbols or the same fault, the same events, and the same next label. If its tokens end in
a fault, the compile fails too, either with that fault or with one that does not depend on anything
behind the tokens in front of it. -/
theorem compile_ofText_eq_ofTokens (session : Session) (text : String) :
    (∀ tokens, tokenize text = .ok tokens →
      session.compile (.ofText text) = session.compile (.ofTokens tokens)) ∧
    ∀ fault, tokenize text = .error fault → fault.isLexical = true ∧
      ∃ reported, (session.compile (.ofText text)).1.outcome = .error reported ∧
        (reported = fault ∨ reported.isLexical = false ∧ ∀ further,
          (session.compile (.ofTokens ((Source.ofText text).drain.1 ++ further))).1.outcome =
            .error reported) := by
  rcases drained : (Source.ofText text).drain with ⟨delivered, _ | lexical⟩
  · have clean : tokenize text = .ok delivered := by rw [tokenize, drained]
    refine ⟨fun tokens tokenized => ?_, fun _ failed => by cases clean.symm.trans failed⟩
    obtain rfl := Except.ok.inj (clean.symm.trans tokenized)
    have mirrors : Source.Mirrors none (.ofText text) (.ofTokens (delivered ++ [])) :=
      .within drained fun _ => rfl
    rw [List.append_nil] at mirrors
    rcases compile_of_mirrors mirrors with ⟨cause, known, _⟩ | ⟨same, _⟩
    · cases known
    · exact same
  · have faulty : tokenize text = .error lexical := by rw [tokenize, drained]
    refine ⟨fun _ tokenized => ?_, fun fault failed => ?_⟩
    · cases faulty.symm.trans tokenized
    obtain rfl := Except.error.inj (faulty.symm.trans failed)
    have mirrors (further : List Located) : Source.Mirrors (some lexical) (.ofText text)
        (.ofTokens (delivered ++ further)) := .within drained fun none => by cases none
    refine ⟨Source.isLexical_of_drain drained, ?_⟩
    cases outcome : (session.compile (.ofText text)).1.outcome with
    | ok compiled =>
      obtain ⟨_, complete, _⟩ := exists_drain ⟨compiled, outcome⟩
      rw [drained] at complete
      cases complete
    | error reported =>
      refine ⟨reported, rfl, ?_⟩
      by_cases same : reported = lexical
      · exact Or.inl same
      right
      have carried (further : List Located) :
          session.compile (.ofText text) = session.compile (.ofTokens (delivered ++ further)) ∧
            reported.isLexical = false := by
        rcases compile_of_mirrors (mirrors further) with ⟨cause, known, cut⟩ | ⟨equal, nonlexical⟩
        · obtain rfl := Option.some.inj known
          exact absurd (Except.error.inj (outcome.symm.trans cut)) same
        · exact ⟨equal, nonlexical reported outcome⟩
      exact ⟨(carried []).2, fun further => (carried further).1 ▸ outcome⟩

/-- A word, and a sign that is read only if the word stands in its place. -/
theorem drain_misplaced : (Source.ofText "main@").drain =
    ([⟨.mark .main, ⟨1, 1⟩⟩], some (.lexical 1 5 (LexicalFault.unexpected '@').message)) := by
  have word : (Source.ofText "main@").next =
      (.ok ⟨.mark .main, ⟨1, 1⟩⟩, .text ⟨['@'], ⟨1, 5⟩⟩) := by cbv
  have bare : Cursor.skipTrivia ⟨['@'], ⟨1, 5⟩⟩ = ⟨['@'], ⟨1, 5⟩⟩ := Cursor.skipTrivia_of_none rfl
  have sign : (Source.text ⟨['@'], ⟨1, 5⟩⟩).next =
      (.error (.lexical 1 5 (LexicalFault.unexpected '@').message), .text ⟨[], ⟨1, 6⟩⟩) := by
    simp only [Source.next, Cursor.next, bare]
    rfl
  rw [Source.drain_of_token word (by decide), Source.drain_of_fault sign]

theorem compile_ofText_indexing_misplaced :
    (∃ tokens, tokenize (String.ofList (Program.indexingText 3)) = .ok tokens ∧
      ({} : Session).compile (.ofText (String.ofList (Program.indexingText 3))) =
        ({} : Session).compile (.ofTokens tokens)) ∧
    ∃ fault, tokenize "main@" = .error fault ∧ fault.isLexical = true ∧
      ∃ reported, (({} : Session).compile (.ofText "main@")).1.outcome = .error reported ∧
        (reported = fault ∨ reported.isLexical = false ∧ ∀ further, (({} : Session).compile
          (.ofTokens ((Source.ofText "main@").drain.1 ++ further))).1.outcome =
            .error reported) := by
  obtain ⟨_, tokens, _, tokenized, _⟩ := Program.accepts_indexing 3
  have faulty : tokenize "main@" =
      .error (.lexical 1 5 (LexicalFault.unexpected '@').message) := by
    rw [tokenize, drain_misplaced]
  exact ⟨⟨tokens, tokenized, (compile_ofText_eq_ofTokens {} _).1 tokens tokenized⟩,
    _, faulty, (compile_ofText_eq_ofTokens {} "main@").2 _ faulty⟩

end Session

end OnePass
