import Mathlib
import OnePass.Proofs.InstructionText

/-! Whether the lines of code tell the instructions. They do for the code of every program text,
except that a text may use a variable `inf` beside a number too large to be finite. -/
namespace OnePass

/-! The code of a tree is as legible as its tokens. -/

theorem Expr.legible_code {grade : Grade} (e : Expr grade) (stem : String)
    (spelled : ∀ token ∈ e.spelling, token.Legible) :
    ∀ instruction ∈ e.code, instruction.Legible stem := by
  induction e with
  | truth value => cases value <;> simp [Instruction.Legible, Operand.token, Token.Legible]
  | _ => simp_all [spelling, Instruction.Legible, Operand.token, or_imp, forall_and]

theorem Declarator.legible_code (d : Declarator) (type : Scalar) (stem : String)
    (spelled : ∀ token ∈ d.spelling, token.Legible) :
    ∀ instruction ∈ d.code type, instruction.Legible stem := by
  cases d with
  | plain name => simp [code]
  | initialized name value =>
    have inner := value.legible_code stem
    simp_all [spelling, code, Instruction.Legible, Operand.token, or_imp, forall_and]
  | array name size positive => simp_all [spelling, code, Instruction.Legible]

theorem Declaration.legible_code (d : Declaration) (stem : String)
    (spelled : ∀ token ∈ d.spelling, token.Legible) :
    ∀ instruction ∈ d.code, instruction.Legible stem := by
  simp only [spelling, List.forall_mem_cons, List.forall_mem_append, Declarator.furtherSpelling,
    List.forall_mem_flatMap] at spelled
  obtain ⟨_, first, others, _⟩ := spelled
  simp only [code, List.forall_mem_append, List.forall_mem_flatMap]
  exact ⟨d.first.legible_code _ _ first, fun other member =>
    other.legible_code _ _ (others other member).2⟩

theorem Statement.legible_code {extent : Extent} (st : Statement extent) (stem : String)
    (first : Nat) (spelled : ∀ token ∈ st.spelling, token.Legible) :
    ∀ instruction ∈ st.code stem first, instruction.Legible stem := by
  induction st generalizing first with
    (simp only [spelling, Expr.enclosed, List.forall_mem_cons, List.forall_mem_append] at spelled
     simp only [code, List.forall_mem_cons, List.forall_mem_append])
  | declare declaration => exact declaration.legible_code stem spelled
  | assign name value =>
    obtain ⟨known, _, inner, _⟩ := spelled
    exact ⟨known, value.legible_code stem inner, trivial, List.forall_mem_nil _⟩
  | update name index value =>
    obtain ⟨known, _, place, _, _, inner, _⟩ := spelled
    exact ⟨known, index.legible_code stem place, trivial, value.legible_code stem inner, trivial,
      List.forall_mem_nil _⟩
  | print value =>
    obtain ⟨_, ⟨_, inner, _⟩, _⟩ := spelled
    exact ⟨value.legible_code stem inner, trivial, List.forall_mem_nil _⟩
  | ifThen condition body ih =>
    obtain ⟨_, ⟨_, test, _⟩, inner⟩ := spelled
    exact ⟨condition.legible_code stem test, rfl, ih _ inner, rfl, List.forall_mem_nil _⟩
  | ifElse condition yes no ihYes ihNo =>
    obtain ⟨_, ⟨_, test, _⟩, one, _, other⟩ := spelled
    exact ⟨condition.legible_code stem test, rfl, ihYes _ one, rfl, rfl, ihNo _ other, rfl,
      List.forall_mem_nil _⟩
  | whileDo condition body ih =>
    obtain ⟨_, ⟨_, test, _⟩, inner⟩ := spelled
    exact ⟨rfl, condition.legible_code stem test, rfl, ih _ inner, rfl, rfl, List.forall_mem_nil _⟩
  | doWhile body condition ih =>
    obtain ⟨_, inner, _, ⟨_, test, _⟩, _⟩ := spelled
    exact ⟨rfl, ih _ inner, condition.legible_code stem test, rfl, rfl, rfl, List.forall_mem_nil _⟩
  | block body ih => exact ih _ spelled.2.1
  | nil => exact List.forall_mem_nil _
  | cons one rest ihOne ihRest => exact ⟨ihOne _ spelled.1, ihRest _ spelled.2⟩

theorem Program.legible_listing (p : Program) (stem : String) (halting : Bool) (first : Nat)
    (spelled : ∀ token ∈ p.spelling, token.Legible) :
    ∀ instruction ∈ p.listing stem halting first, instruction.Legible stem := by
  simp only [spelling, List.forall_mem_cons, List.forall_mem_append,
    List.forall_mem_flatMap] at spelled
  obtain ⟨_, _, _, declarations, body, _⟩ := spelled
  simp only [listing, code, List.forall_mem_append, List.forall_mem_flatMap]
  refine ⟨⟨fun d member => d.legible_code stem (declarations d member),
    p.body.legible_code stem first body⟩, ?_⟩
  cases halting <;> simp [Instruction.Legible]

theorem Session.exists_listing {session : Session} {source : Source} {compiled : Compiled}
    (accepted : (session.compile source).1.outcome = .ok compiled) :
    ∃ p : Program, source.drain.1.map (·.token) = p.spelling ++ [Token.finish] ∧
      compiled.code.toList =
        p.listing session.options.stem session.options.halting session.firstLabel := by
  obtain ⟨input, last, opens, done, rfl⟩ := Session.exists_program accepted
  obtain ⟨p, nearest, reads⟩ := Compilation.exists_program done
  have inner : ∀ token ∈ p.spelling, token ≠ .finish :=
    fun token member ended => p.finish_notMem (ended ▸ member)
  exact ⟨p, (Input.drain_of_reads opens inner reads).2,
    (Compilation.program_eq_listing nearest reads done).1⟩

theorem exists_compiled {text : String} {code : Listing} (compiled : compile text = .ok code) :
    ∃ whole : Compiled, (({} : Session).compile (.ofText text)).1.outcome = .ok whole ∧
      whole.code = code := by
  obtain ⟨whole, outcome⟩ := accepts_of_compile compiled
  rw [compile, outcome] at compiled
  exact ⟨whole, outcome, Except.ok.inj compiled⟩

theorem legible_of_compile {text : String} {code : Listing} (compiled : compile text = .ok code) :
    ∀ instruction ∈ code.toList, instruction.Legible "" := by
  obtain ⟨whole, outcome, rfl⟩ := exists_compiled compiled
  obtain ⟨p, drained, listed⟩ := Session.exists_listing outcome
  have spelled : ∀ token ∈ p.spelling, token.Legible := by
    intro token member
    have delivered : token ∈ (Source.ofText text).drain.1.map (·.token) := by
      rw [drained]
      exact List.mem_append_left _ member
    obtain ⟨located, inside, rfl⟩ := List.mem_map.mp delivered
    exact Source.legible_of_drain _ located inside
  rw [listed]
  exact p.legible_listing "" true 0 spelled

/-- Equal lines stand for equal instructions. -/
def Listing.Unambiguous (code : Listing) : Prop :=
  ∀ a ∈ code.toList, ∀ b ∈ code.toList, a.text = b.text → a = b

/-- The code of a text is unambiguous unless it pushes both the name `inf` and infinity. -/
theorem unambiguous_iff {text : String} {code : Listing} (compiled : compile text = .ok code) :
    code.Unambiguous ↔ ¬ (Instruction.push (.name "inf") ∈ code.toList ∧
      Instruction.push (.real .infinity) ∈ code.toList) := by
  have legible := legible_of_compile compiled
  constructor
  · intro unambiguous both
    exact absurd (unambiguous _ both.2 _ both.1 Instruction.text_infinity) (by decide)
  · intro apart a first b second same
    rcases Instruction.eq_or_inf_of_text (legible a first) (legible b second) same with
      equal | ⟨rfl, rfl⟩ | ⟨rfl, rfl⟩
    · exact equal
    · exact absurd ⟨first, second⟩ apart
    · exact absurd ⟨second, first⟩ apart

/-! A name and a number of the same text. -/

def Program.overflowing : Program where
  declarations := [⟨.float, .plain "inf", []⟩]
  body := .cons (.print (Expr.name "inf").alone)
    (.cons (.print (Expr.real .infinity).alone) .nil)

/-- A one and 309 zeros in front of the point: more than the largest number. -/
def overflowText : List Char := '1' :: (List.replicate 309 '0' ++ ['.', '0'])

/-- `void main{float inf;print(inf);print(1000.0);}` with 309 zeros. -/
def Program.overflowingText : List Char :=
  ['v', 'o', 'i', 'd', ' ', 'm', 'a', 'i', 'n', '\x7b', 'f', 'l', 'o', 'a', 't', ' ', 'i', 'n', 'f',
    ';', 'p', 'r', 'i', 'n', 't', '(', 'i', 'n', 'f', ')', ';', 'p', 'r', 'i', 'n', 't', '('] ++
  (overflowText ++ [')', ';', '\x7d'])

theorem spells_overflow : Spells (overflowText ++ [')', ';', '\x7d'])
    [.real .infinity, .mark .closeParen, .mark .semicolon, .mark .closeBrace] := by
  have closed : Spells [')', ';', '\x7d']
      [.mark .closeParen, .mark .semicolon, .mark .closeBrace] :=
    .cons rfl rfl (.cons rfl rfl (.cons rfl rfl .nil))
  have outcome : (Lexeme.first '1' ((List.replicate 309 '0' ++ ['.', '0']) ++
      [')', ';', '\x7d'])).outcome = .ok (.real .infinity) := by decide +kernel
  have width : (Lexeme.first '1' ((List.replicate 309 '0' ++ ['.', '0']) ++
      [')', ';', '\x7d'])).width = overflowText.length := by decide +kernel
  have lexeme : Lexeme.first '1' ((List.replicate 309 '0' ++ ['.', '0']) ++ [')', ';', '\x7d']) =
      ⟨overflowText.length, .ok (.real .infinity)⟩ := by
    rw [← width, ← outcome]
  refine .cons rfl lexeme ?_
  change Spells ((overflowText ++ [')', ';', '\x7d']).drop overflowText.length) _
  rw [List.drop_left]
  exact closed

theorem Program.spells_overflowing : Spells overflowingText overflowing.spelling := by
  have printed : Spells (['p', 'r', 'i', 'n', 't', '('] ++ _)
      (.mark .print :: .mark .openParen :: _) :=
    .cons rfl rfl (.cons rfl rfl spells_overflow)
  have named : Spells (['p', 'r', 'i', 'n', 't', '(', 'i', 'n', 'f', ')', ';'] ++ _)
      (.mark .print :: .mark .openParen :: .name "inf" :: .mark .closeParen ::
        .mark .semicolon :: _) :=
    .cons rfl rfl (.cons rfl rfl (.cons rfl rfl (.cons rfl rfl (.cons rfl rfl printed))))
  have declared : Spells (['f', 'l', 'o', 'a', 't', ' ', 'i', 'n', 'f', ';'] ++ _)
      (.mark .float :: .name "inf" :: .mark .semicolon :: _) :=
    .cons rfl rfl (.blank (.cons rfl rfl (.cons rfl rfl named)))
  have begun : Spells (['v', 'o', 'i', 'd', ' ', 'm', 'a', 'i', 'n', '\x7b'] ++ _)
      (.mark .void :: .mark .main :: .mark .openBrace :: _) :=
    .cons rfl rfl (.blank (.cons rfl rfl (.cons rfl rfl declared)))
  exact begun

theorem Program.compile_of_spells {p : Program} {text : List Char} (spells : Spells text p.spelling)
    (nearest : p.body.ElseNearest) (undeclaring : p.body.Undeclaring)
    (fits : Scoped [] p.mentions ∧ p.nesting ≤ Compilation.maxNesting) :
    ∃ code, compile (String.ofList text) = .ok code ∧ code.toList = p.listing "" true 0 := by
  obtain ⟨input, final, opens, reads⟩ := spells {}
  have whole : Source.ofText (String.ofList text) = .text ⟨text, {}⟩ := by
    rw [Source.ofText, Cursor.ofText, String.toList_ofList]
  rw [← whole] at opens
  obtain ⟨last, done⟩ := (Compilation.program_ok_iff undeclaring nearest reads).mpr fits
  have outcome : (({} : Session).compile _).1.outcome = _ := Session.compile_of_ok opens done
  refine ⟨last.code, ?_, (Compilation.program_eq_listing nearest reads done).1⟩
  rw [compile, outcome]
  rfl

theorem exists_overflowing : ∃ code, compile (String.ofList Program.overflowingText) = .ok code ∧
    Instruction.push (.name "inf") ∈ code.toList ∧
      Instruction.push (.real .infinity) ∈ code.toList := by
  obtain ⟨code, compiled, listed⟩ := Program.compile_of_spells Program.spells_overflowing
    ⟨trivial, trivial, trivial⟩ trivial (by decide)
  refine ⟨code, compiled, ?_⟩
  rw [listed]
  decide

theorem unambiguous_indexing_overflowing :
    (∃ code, compile (String.ofList (Program.indexingText 3)) = .ok code ∧ code.Unambiguous) ∧
    ∃ code, compile (String.ofList Program.overflowingText) = .ok code ∧ ¬ code.Unambiguous := by
  obtain ⟨plain, compiledPlain, listed⟩ := Program.compile_of_spells (Program.spells_indexing 3)
    ⟨trivial, trivial⟩ trivial (by decide)
  obtain ⟨code, compiled, both⟩ := exists_overflowing
  refine ⟨⟨plain, compiledPlain, (unambiguous_iff compiledPlain).mpr ?_⟩,
    code, compiled, fun unambiguous => (unambiguous_iff compiled).mp unambiguous both⟩
  rw [listed]
  decide

theorem not_unambiguous : ¬ ∀ (text : String) (code : Listing), compile text = .ok code →
    code.Unambiguous := by
  intro claimed
  obtain ⟨code, compiled, named, infinite⟩ := exists_overflowing
  exact absurd (claimed _ code compiled _ infinite _ named Instruction.text_infinity) (by decide)

end OnePass
