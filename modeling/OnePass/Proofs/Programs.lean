import Mathlib
import OnePass.Proofs.Instructions
import OnePass.Session

/-! How a compilation gets past a program. The declarations that the instructions of a tree
begin with are leading ones to a compilation. Moving them to the leading ones changes neither
tokens nor code. -/
namespace OnePass

namespace Statement

def declaring (ds : List Declaration) (st : Statement .many) : Statement .many :=
  ds.foldr (fun d rest => cons (declare d) rest) st

def Undeclaring : Statement .many → Prop
  | cons (declare _) _ => False
  | _ => True

theorem exists_declaring :
    (st : Statement .many) → ∃ ds rest, st = declaring ds rest ∧ rest.Undeclaring
  | nil => ⟨[], nil, rfl, trivial⟩
  | cons one rest => by
    obtain ⟨ds, last, rfl, undeclaring⟩ := exists_declaring rest
    cases one with
    | declare d => exact ⟨d :: ds, last, rfl, undeclaring⟩
    | _ => exact ⟨[], _, rfl, trivial⟩

variable (ds : List Declaration) (st : Statement .many)

theorem spelling_declaring :
    (declaring ds st).spelling = ds.flatMap Declaration.spelling ++ st.spelling := by
  induction ds with
  | nil => rfl
  | cons d ds ih => simp [declaring, spelling, ← ih]

theorem mentions_declaring :
    (declaring ds st).mentions = ds.flatMap Declaration.mentions ++ st.mentions := by
  induction ds with
  | nil => rfl
  | cons d ds ih => simp [declaring, ← ih]

theorem labelCount_declaring : (declaring ds st).labelCount = st.labelCount := by
  induction ds with
  | nil => rfl
  | cons d ds ih => simp [declaring, ← ih]

theorem code_declaring (stem : String) (first : Nat) :
    (declaring ds st).code stem first = ds.flatMap Declaration.code ++ st.code stem first := by
  induction ds with
  | nil => rfl
  | cons d ds ih => simp [declaring, ← ih]

theorem nesting_declaring_ge :
    max (Declaration.nestingAll ds) st.nesting ≤ (declaring ds st).nesting := by
  induction ds with
  | nil => simp [declaring, Declaration.nestingAll]
  | cons d ds ih =>
    simp only [declaring, Declaration.nestingAll, List.map_cons, List.foldr_cons, nesting] at ih ⊢
    omega

theorem elseNearest_declaring (nearest : (declaring ds st).ElseNearest) : st.ElseNearest := by
  induction ds with
  | nil => exact nearest
  | cons d ds ih => exact ih nearest.2

end Statement

theorem Declaration.nestingAll_append (first second : List Declaration) :
    nestingAll (first ++ second) = max (nestingAll first) (nestingAll second) := by
  induction first with
  | nil => simp [nestingAll]
  | cons d ds ih =>
    simp only [nestingAll, List.cons_append, List.map_cons, List.foldr_cons] at ih ⊢
    rw [ih, max_assoc]

/-- Two trees with the same tokens and the same code, in the second of which no instruction is
a declaration that could be a leading one. -/
structure Program.Settles (p q : Program) : Prop where
  spelling : q.spelling = p.spelling
  mentions : q.mentions = p.mentions
  labelCount : q.labelCount = p.labelCount
  code : ∀ stem first, q.code stem first = p.code stem first
  nesting : q.nesting ≤ p.nesting
  nearest : p.body.ElseNearest → q.body.ElseNearest
  undeclaring : q.body.Undeclaring

theorem Program.exists_settles (p : Program) : ∃ q, p.Settles q := by
  obtain ⟨ds, body⟩ := p
  obtain ⟨more, rest, rfl, undeclaring⟩ := body.exists_declaring
  refine ⟨⟨ds ++ more, rest⟩, ?_, ?_, ?_, ?_, ?_, ?_, undeclaring⟩
  · simp [Program.spelling, Statement.spelling_declaring]
  · simp [Program.mentions, Statement.mentions_declaring]
  · exact (Statement.labelCount_declaring more rest).symm
  · simp [Program.code, Statement.code_declaring]
  · have inner := Statement.nesting_declaring_ge more rest
    simp only [Program.nesting, Declaration.nestingAll_append]
    omega
  · exact Statement.elseNearest_declaring more rest

def Program.contribution (halting : Bool) (labels : LabelSupply) (p : Program) : Contribution where
  code := p.listing labels.stem halting labels.next
  mentions := p.mentions
  nesting := p.nesting
  labels := p.labelCount

namespace Compilation

variable {s : State} {input : Input} {rest : List Task}

theorem undeclaring_begins {st : Statement .many} {middle : Input} (undeclaring : st.Undeclaring)
    (reads : middle.Reads st.spelling input) (ends : input.token = .mark .closeBrace) :
    Task.beginsDeclaration middle.token = false := by
  cases st with
  | nil =>
    obtain rfl := reads
    rw [ends]
    rfl
  | cons one more =>
    obtain ⟨next, inside, _⟩ := Input.reads_append.mp reads
    cases one with
    | declare d => exact undeclaring.elim
    | _ =>
      rw [inside.1]
      rfl

theorem yields_ending (halting : Bool) :
    Yields (if halting then [.emit .halt] else []) [] s s.input
      { code := if halting then [.halt] else [] } := by
  cases halting with
  | false => exact ⟨fun _ => ⟨s.events, rfl⟩, fun refused => absurd (Yields.admits_code [] 0) refused⟩
  | true => exact Yields.emitting .halt

theorem yields_program (halting : Bool) (p : Program) (undeclaring : p.body.Undeclaring)
    (nearest : p.body.ElseNearest) (all : s.input.Reads (p.spelling ++ [Token.finish]) input) :
    Yields (Task.program halting) [] s input (p.contribution halting s.labels) := by
  obtain ⟨last, reads, ended, next, final, rfl⟩ := Input.reads_append.mp all
  obtain ⟨void, first, one, main, second, two, opened, third, three, reads⟩ := reads
  obtain ⟨fourth, declared, reads⟩ := Input.reads_append.mp reads
  obtain ⟨fifth, inside, closed, sixth, left, rfl⟩ := Input.reads_append.mp reads
  have begun : Yields (Task.program halting) (.pass .main :: .pass .openBrace :: .declarations ::
      .instructions :: .pass .closeBrace :: .expect .finish ::
        if halting then [.emit .halt] else []) s first _ := Yields.pass void one
  have named := begun.trans fun _ => Yields.pass main two
  have entered := named.trans fun _ => Yields.pass opened three
  have known := entered.trans fun _ => yields_declarations p.declarations declared
    (undeclaring_begins undeclaring inside closed)
  have done := known.trans fun _ => crossable p.body s.labels rfl nearest inside closed
  have shut := done.trans fun _ => Yields.pass closed left
  have whole := shut.trans fun _ => Yields.finish ended final
  have halted := whole.trans fun _ => yields_ending halting
  exact halted.congr (by
    simp [Program.contribution, Program.listing, Program.code, Program.mentions, Program.nesting,
      Program.labelCount])

def State.opening (labels : LabelSupply) (input : Input) : State :=
  { source := input.source, lookahead := input.lookahead, labels }

theorem start_of_opens {source : Source} (opens : Input.Opens source input) (labels : LabelSupply) :
    start source labels = .ok (.opening labels input) := by
  have delivered : source.next = (.ok input.lookahead, input.source) := opens
  unfold start
  rw [delivered]
  rfl

theorem exists_opens_given (tokens : List Located) :
    ∃ input final, Input.Opens (.ofTokens tokens) input ∧
      input.Reads (sentence tokens ++ [Token.finish]) final := by
  cases tokens with
  | nil =>
    let last : Input := ⟨⟨.finish, ⟨1, 1⟩⟩, .given [] 1⟩
    exact ⟨last, last, rfl, rfl, last, rfl, rfl⟩
  | cons token rest =>
    obtain ⟨final, reads⟩ := Input.exists_reads_given rest token token.place.line
    exact ⟨⟨token, .given rest token.place.line⟩, final, rfl, reads⟩

variable {p : Program} {halting : Bool} {labels : LabelSupply} {final : Input}

/-- A settled tree compiles if and only if its names fit and it is not too deep. -/
theorem program_ok_iff (undeclaring : p.body.Undeclaring) (nearest : p.body.ElseNearest)
    (reads : input.Reads (p.spelling ++ [Token.finish]) final) :
    (∃ last, program halting (.opening labels input) = .ok () last) ↔
      Scoped [] p.mentions ∧ p.nesting ≤ maxNesting := by
  have yields : Yields (Task.program halting) [] (.opening labels input) final
      (p.contribution halting labels) := yields_program halting p undeclaring nearest reads
  constructor
  · intro accepted
    obtain ⟨last, done⟩ := accepted
    by_contra refused
    obtain ⟨fault, after, failed, _⟩ := yields.2 refused
    cases done.symm.trans failed
  · intro admitted
    obtain ⟨events, done⟩ := yields.1 admitted
    exact ⟨_, done.trans (run_nil _)⟩

theorem program_eq_listing (nearest : p.body.ElseNearest)
    (reads : input.Reads (p.spelling ++ [Token.finish]) final) {last : State}
    (done : program halting (.opening labels input) = .ok () last) :
    last.code.toList = p.listing labels.stem halting labels.next ∧
      last.labels = labels.after p.labelCount := by
  obtain ⟨q, settles⟩ := p.exists_settles
  rw [← settles.spelling] at reads
  have yields : Yields (Task.program halting) [] (.opening labels input) final
      (q.contribution halting labels) :=
    yields_program halting q settles.undeclaring (settles.nearest nearest) reads
  have accepted :=
    (program_ok_iff settles.undeclaring (settles.nearest nearest) reads).mp ⟨last, done⟩
  obtain ⟨events, reached⟩ := yields.1 accepted
  obtain ⟨_, rfl⟩ := EStateM.Result.ok.inj (done.symm.trans (reached.trans (run_nil _)))
  have code : (Listing.empty.append (q.listing labels.stem halting labels.next)).toList =
      p.listing labels.stem halting labels.next := by
    rw [Listing.toList_append, Listing.toList_empty, List.nil_append, Program.listing,
      settles.code]
    rfl
  exact ⟨code, congrArg labels.after settles.labelCount⟩

end Compilation

end OnePass
