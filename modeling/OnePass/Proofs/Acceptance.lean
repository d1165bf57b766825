import Mathlib
import OnePass.Proofs.Parsing
import OnePass.Proofs.Programs

/-! Which tokens compile, and to what code. Tokens that compile have a tree, and every tree that
they have, with each `else` at the nearest `if`, gives the same code. -/
namespace OnePass

def Session.labels (session : Session) : LabelSupply := ⟨session.options.stem, session.firstLabel⟩

/-- Whether a source compiles. -/
def Session.Accepts (session : Session) (source : Source) : Prop :=
  ∃ compiled, (session.compile source).1.outcome = .ok compiled

theorem Session.compile_of_ok {session : Session} {source : Source} {input : Input}
    {final : Compilation.State} (opens : Input.Opens source input)
    (done : Compilation.program session.options.halting (.opening session.labels input) =
      .ok () final) :
    (session.compile source).1.outcome = .ok ⟨final.code, final.symbols⟩ := by
  have started := Compilation.start_of_opens opens session.labels
  unfold Session.labels at started done
  unfold Session.compile
  simp only [started, done]

theorem Session.compile_of_error {session : Session} {source : Source} {input : Input}
    {fault : Diagnostic} {after : Compilation.State} (opens : Input.Opens source input)
    (failed : Compilation.program session.options.halting (.opening session.labels input) =
      .error fault after) :
    (session.compile source).1.outcome = .error fault := by
  have started := Compilation.start_of_opens opens session.labels
  unfold Session.labels at started failed
  unfold Session.compile
  simp only [started, failed]

theorem Session.accepts_iff_program {session : Session} {source : Source} {input : Input}
    (opens : Input.Opens source input) :
    session.Accepts source ↔ ∃ final, Compilation.program session.options.halting
      (.opening session.labels input) = .ok () final := by
  constructor
  · intro given
    obtain ⟨compiled, outcome⟩ := given
    cases done : Compilation.program session.options.halting (.opening session.labels input) with
    | ok value final => exact ⟨final, rfl⟩
    | error fault after =>
      rw [Session.compile_of_error opens done] at outcome
      cases outcome
  · intro given
    obtain ⟨final, done⟩ := given
    exact ⟨_, Session.compile_of_ok opens done⟩

/-! No tree spells an end of input. -/

theorem Expr.finish_notMem {grade : Grade} (e : Expr grade) : Token.finish ∉ e.spelling := by
  induction e with
  | truth value => cases value <;> simp [spelling]
  | _ => simp_all [spelling]

theorem Declarator.finish_notMem (d : Declarator) : Token.finish ∉ d.spelling := by
  cases d <;> simp [spelling, Expr.finish_notMem]

theorem Declaration.finish_notMem (d : Declaration) : Token.finish ∉ d.spelling := by
  simp [spelling, Declarator.furtherSpelling, Declarator.finish_notMem]

theorem Statement.finish_notMem {extent : Extent} (st : Statement extent) :
    Token.finish ∉ st.spelling := by
  induction st with
  | _ => simp_all [spelling, Expr.enclosed, Expr.finish_notMem, Declaration.finish_notMem]

namespace Program

variable {p q : Program} {tokens : List Located}

theorem finish_notMem (p : Program) : Token.finish ∉ p.spelling := by
  simp [spelling, Declaration.finish_notMem, Statement.finish_notMem]

theorem reads_of_input {input final last : Input} (nearest : p.body.ElseNearest)
    (reads : input.Reads (p.spelling ++ [Token.finish]) last)
    (given : input.Reads (sentence tokens ++ [Token.finish]) final) : p.Reads tokens := by
  have inner : ∀ token ∈ p.spelling, token ≠ .finish :=
    fun token member ended => p.finish_notMem (ended ▸ member)
  exact ⟨Input.eq_of_reads_finish inner (Input.finish_notMem_sentence tokens) reads given, nearest⟩

theorem Reads.settles (reads : p.Reads tokens) (settles : p.Settles q) : q.Reads tokens :=
  ⟨settles.spelling.trans reads.spelled, settles.nearest reads.nearest⟩

theorem Reads.input {input final : Input} (reads : p.Reads tokens)
    (given : input.Reads (sentence tokens ++ [Token.finish]) final) :
    input.Reads (p.spelling ++ [Token.finish]) final := by
  rw [reads.spelled]
  exact given

end Program

theorem Session.exists_opens {session : Session} {source : Source}
    (accepted : session.Accepts source) : ∃ input, Input.Opens source input := by
  obtain ⟨compiled, outcome⟩ := accepted
  rcases delivered : source.next with ⟨result, after⟩
  cases result with
  | ok token => exact ⟨⟨token, after⟩, delivered⟩
  | error fault => simp [Session.compile, Compilation.start, delivered] at outcome

/-- A compile that gives code has run to its end. -/
theorem Session.exists_program {session : Session} {source : Source} {compiled : Compiled}
    (accepted : (session.compile source).1.outcome = .ok compiled) :
    ∃ input last, Input.Opens source input ∧
      Compilation.program session.options.halting (.opening session.labels input) = .ok () last ∧
      compiled = ⟨last.code, last.symbols⟩ := by
  obtain ⟨input, opens⟩ := Session.exists_opens ⟨compiled, accepted⟩
  obtain ⟨last, done⟩ := (Session.accepts_iff_program opens).mp ⟨compiled, accepted⟩
  exact ⟨input, last, opens, done,
    Except.ok.inj (accepted.symm.trans (Session.compile_of_ok opens done))⟩

theorem Session.exists_drain {session : Session} {source : Source}
    (accepted : session.Accepts source) :
    ∃ p : Program, source.drain.2 = none ∧
      source.drain.1.map (·.token) = p.spelling ++ [Token.finish] ∧
      Scoped [] p.mentions ∧ p.nesting ≤ Compilation.maxNesting := by
  obtain ⟨input, opens⟩ := Session.exists_opens accepted
  obtain ⟨last, done⟩ := (Session.accepts_iff_program opens).mp accepted
  obtain ⟨p, nearest, reads⟩ := Compilation.exists_program done
  obtain ⟨q, settles⟩ := p.exists_settles
  rw [← settles.spelling] at reads
  have fits := (Compilation.program_ok_iff settles.undeclaring (settles.nearest nearest) reads).mp
    ⟨last, done⟩
  have inner : ∀ token ∈ q.spelling, token ≠ .finish :=
    fun token member ended => q.finish_notMem (ended ▸ member)
  obtain ⟨clean, drained⟩ := Input.drain_of_reads opens inner reads
  exact ⟨q, clean, drained, fits⟩

theorem Session.accepts_iff_of_input {session : Session} {source : Source} {p : Program}
    {input final : Input} (opens : Input.Opens source input)
    (reads : input.Reads (p.spelling ++ [Token.finish]) final) (nearest : p.body.ElseNearest)
    (undeclaring : p.body.Undeclaring) :
    session.Accepts source ↔ Scoped [] p.mentions ∧ p.nesting ≤ Compilation.maxNesting := by
  rw [Session.accepts_iff_program opens]
  exact Compilation.program_ok_iff undeclaring nearest reads

theorem Session.accepts_iff_of_reads {session : Session} {tokens : List Located} {p : Program}
    (reads : p.Reads tokens) (undeclaring : p.body.Undeclaring) :
    session.Accepts (.ofTokens tokens) ↔
      Scoped [] p.mentions ∧ p.nesting ≤ Compilation.maxNesting := by
  obtain ⟨input, final, opens, given⟩ := Compilation.exists_opens_given tokens
  exact Session.accepts_iff_of_input opens (reads.input given) reads.nearest undeclaring

theorem Session.exists_reads {session : Session} {tokens : List Located}
    (accepted : session.Accepts (.ofTokens tokens)) : ∃ p : Program, p.Reads tokens := by
  obtain ⟨input, final, opens, given⟩ := Compilation.exists_opens_given tokens
  obtain ⟨last, done⟩ := (Session.accepts_iff_program opens).mp accepted
  obtain ⟨p, nearest, reads⟩ := Compilation.exists_program done
  exact ⟨p, Program.reads_of_input nearest reads given⟩

theorem Session.code_of_reads {session : Session} {tokens : List Located} {compiled : Compiled}
    {p : Program} (reads : p.Reads tokens)
    (accepted : (session.compile (.ofTokens tokens)).1.outcome = .ok compiled) :
    compiled.code.toList =
      p.listing session.options.stem session.options.halting session.firstLabel := by
  obtain ⟨input, final, opens, given⟩ := Compilation.exists_opens_given tokens
  obtain ⟨last, done⟩ := (Session.accepts_iff_program opens).mp ⟨compiled, accepted⟩
  obtain rfl := Except.ok.inj (accepted.symm.trans (Session.compile_of_ok opens done))
  exact (Compilation.program_eq_listing reads.nearest (reads.input given) done).1

/-- Given tokens compile exactly if they have a tree whose `else`s belong to the nearest `if`s,
whose names are declared once and before they are used, and that is not too deep. Otherwise they
give a fault. -/
theorem Session.accepts_iff_derivation (session : Session) (tokens : List Located) :
    (session.Accepts (.ofTokens tokens) ↔
      ∃ p : Program, p.Reads tokens ∧ Scoped [] p.mentions ∧
        p.nesting ≤ Compilation.maxNesting) ∧
    ((∃ fault, (session.compile (.ofTokens tokens)).1.outcome = .error fault) ↔
      ¬ ∃ p : Program, p.Reads tokens ∧ Scoped [] p.mentions ∧
        p.nesting ≤ Compilation.maxNesting) := by
  have accepts : session.Accepts (.ofTokens tokens) ↔
      ∃ p : Program, p.Reads tokens ∧ Scoped [] p.mentions ∧
        p.nesting ≤ Compilation.maxNesting := by
    constructor
    · intro accepted
      obtain ⟨p, reads⟩ := Session.exists_reads accepted
      obtain ⟨q, settles⟩ := p.exists_settles
      have read := reads.settles settles
      exact ⟨q, read, (Session.accepts_iff_of_reads read settles.undeclaring).mp accepted⟩
    · intro given
      obtain ⟨p, reads, known, shallow⟩ := given
      obtain ⟨q, settles⟩ := p.exists_settles
      rw [← settles.mentions] at known
      exact (Session.accepts_iff_of_reads (reads.settles settles) settles.undeclaring).mpr
        ⟨known, settles.nesting.trans shallow⟩
  refine ⟨accepts, ?_⟩
  rw [← accepts, Session.Accepts]
  cases (session.compile (.ofTokens tokens)).1.outcome with
  | ok compiled => simp
  | error fault => simp

/-! Trees whose tokens have a second tree, which is deeper. -/

def Expr.alone (operand : Expr .single) : Expression :=
  .bare .disjunction (.bare .conjunction (.bare .comparison (.bare .sum (.bare .product operand))))

def Statement.blocks : Nat → Statement .one
  | 0 => .block .nil
  | depth + 1 => .block (.cons (blocks depth) .nil)

theorem Statement.nesting_blocks (depth : Nat) : (blocks depth).nesting = depth := by
  induction depth with
  | zero => rfl
  | succ depth ih => simp [blocks, ih]

theorem Statement.mentions_blocks (depth : Nat) : (blocks depth).mentions = [] := by
  induction depth with
  | zero => rfl
  | succ depth ih => simp [blocks, ih]

theorem Statement.elseNearest_blocks (depth : Nat) : (blocks depth).ElseNearest := by
  induction depth with
  | zero => exact trivial
  | succ depth ih => exact ⟨ih, trivial⟩

def Program.outerElse (depth : Nat) : Program where
  declarations := []
  body := .cons (.ifElse (Expr.truth true).alone
    (.ifThen (Expr.truth true).alone (.print (Expr.integer 1).alone)) (.blocks depth)) .nil

def Program.innerElse (depth : Nat) : Program where
  declarations := []
  body := .cons (.ifThen (Expr.truth true).alone
    (.ifElse (Expr.truth true).alone (.print (Expr.integer 1).alone) (.blocks depth))) .nil

theorem Program.spelling_outerElse (depth : Nat) :
    (outerElse depth).spelling = (innerElse depth).spelling := by
  simp [outerElse, innerElse, spelling, Statement.spelling]

def Program.tokens (p : Program) : List Located := p.spelling.map fun token => ⟨token, {}⟩

theorem Program.sentence_tokens (p : Program) : sentence p.tokens = p.spelling := by
  have inner : ∀ token ∈ p.spelling, token ≠ .finish :=
    fun token member ended => p.finish_notMem (ended ▸ member)
  have same : p.tokens.map (·.token) = p.spelling := by
    rw [tokens, List.map_map]
    exact List.map_id _
  rw [sentence, same, List.takeWhile_eq_self_iff]
  simpa using inner

/-- It does not suffice for an `else` to belong to some `if`: the tree with the `else` at the
outer `if` may be within the limit while the tree with the `else` at the nearest one is not. -/
theorem Session.not_accepts_iff_any_derivation :
    ¬ ∀ (session : Session) (tokens : List Located), session.Accepts (.ofTokens tokens) ↔
      ∃ p : Program, p.spelling = sentence tokens ∧ Scoped [] p.mentions ∧
        p.nesting ≤ Compilation.maxNesting := by
  intro claimed
  let outer := Program.outerElse 62
  let inner := Program.innerElse 62
  have accepted : ({} : Session).Accepts (.ofTokens outer.tokens) := by
    refine (claimed {} outer.tokens).mpr ⟨outer, outer.sentence_tokens.symm, ?_, ?_⟩
    · simp [outer, Program.outerElse, Program.mentions, Statement.mentions_blocks, Expr.alone,
        Scoped]
    · simp [outer, Program.outerElse, Program.nesting, Declaration.nestingAll,
        Statement.nesting_blocks, Expr.alone, Compilation.maxNesting]
  have reads : inner.Reads outer.tokens := by
    refine ⟨?_, ⟨rfl, trivial, Statement.elseNearest_blocks 62⟩, trivial⟩
    rw [outer.sentence_tokens, Program.spelling_outerElse]
  have shallow := ((Session.accepts_iff_of_reads reads trivial).mp accepted).2
  simp [inner, Program.innerElse, Program.nesting, Declaration.nestingAll,
    Statement.nesting_blocks, Expr.alone, Compilation.maxNesting] at shallow

/-- `int n; while (n) { print(n); if (n) n = n - 1; else n = 0; }` -/
def Program.countdown : Program where
  declarations := [⟨.int, .plain "n", []⟩]
  body := .cons (.whileDo (Expr.name "n").alone (.block (.cons (.print (Expr.name "n").alone)
    (.cons (.ifElse (Expr.name "n").alone
      (.assign "n" (.bare .disjunction (.bare .conjunction (.bare .comparison
        (.join .sum .subtract rfl nofun (.bare .sum (.bare .product (.name "n")))
          (.bare .product (.integer 1)))))))
      (.assign "n" (Expr.integer 0).alone)) .nil)))) .nil

theorem Program.reads_countdown : countdown.Reads countdown.tokens :=
  ⟨countdown.sentence_tokens.symm, ⟨trivial, ⟨rfl, trivial, trivial⟩, trivial⟩, trivial⟩

end OnePass
