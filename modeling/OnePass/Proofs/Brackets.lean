import Mathlib
import OnePass.Proofs.Acceptance

/-! How many brackets are open at once. Parentheses and braces lie on levels of their own, so that
there is a bound for them. An index is no level, so there is none for its brackets. -/
namespace OnePass

def Token.enclosing : Token → Int
  | .mark .openParen => 1
  | .mark .openBrace => 1
  | .mark .closeParen => -1
  | .mark .closeBrace => -1
  | _ => 0

def Token.indexing : Token → Int
  | .mark .openBracket => 1
  | .mark .closeBracket => -1
  | _ => 0

def Token.bracketing (token : Token) : Int := token.enclosing + token.indexing

/-- How many brackets are open behind some tokens. -/
def unclosed (turn : Token → Int) (tokens : List Token) : Int := (tokens.map turn).sum

variable {turn : Token → Int}

@[simp] theorem unclosed_nil : unclosed turn [] = 0 := rfl

@[simp] theorem unclosed_cons (token : Token) (rest : List Token) :
    unclosed turn (token :: rest) = turn token + unclosed turn rest := by
  simp [unclosed]

@[simp] theorem unclosed_append (first second : List Token) :
    unclosed turn (first ++ second) = unclosed turn first + unclosed turn second := by
  simp [unclosed]

theorem unclosed_bracketing (tokens : List Token) :
    unclosed Token.bracketing tokens =
      unclosed Token.enclosing tokens + unclosed Token.indexing tokens := by
  induction tokens with
  | nil => rfl
  | cons token rest ih =>
    simp only [unclosed_cons, ih, Token.bracketing]
    ring

/-- Tokens in which each parenthesis and brace is closed behind where it is opened, and no more
than so many are open. -/
structure Within (bound : Nat) (tokens : List Token) : Prop where
  closed : unclosed Token.enclosing tokens = 0
  opened : ∀ count, 0 ≤ unclosed Token.enclosing (tokens.take count)
  bounded : ∀ count, unclosed Token.enclosing (tokens.take count) ≤ bound

namespace Within

variable {bound larger : Nat} {first second tokens : List Token}

theorem mono (within : Within bound tokens) (less : bound ≤ larger) : Within larger tokens :=
  ⟨within.closed, within.opened,
    fun count => (within.bounded count).trans (Int.ofNat_le.mpr less)⟩

theorem nil (bound : Nat) : Within bound [] :=
  ⟨rfl, fun count => by simp, fun count => by simp⟩

theorem take_append (left : Within bound first) (second : List Token) (count : Nat) :
    unclosed Token.enclosing ((first ++ second).take count) =
      unclosed Token.enclosing (first.take count) ∨
    unclosed Token.enclosing ((first ++ second).take count) =
      unclosed Token.enclosing (second.take (count - first.length)) := by
  rw [List.take_append, unclosed_append]
  rcases Nat.le_total count first.length with inside | beyond
  · left
    rw [Nat.sub_eq_zero_of_le inside, List.take_zero, unclosed_nil, add_zero]
  · right
    rw [List.take_of_length_le beyond, left.closed, zero_add]

theorem append (left : Within bound first) (right : Within bound second) :
    Within bound (first ++ second) := by
  refine ⟨by rw [unclosed_append, left.closed, right.closed, add_zero], fun count => ?_,
    fun count => ?_⟩
  · rcases left.take_append second count with same | same <;> rw [same]
    · exact left.opened count
    · exact right.opened _
  · rcases left.take_append second count with same | same <;> rw [same]
    · exact left.bounded count
    · exact right.bounded _

theorem cons {token : Token} (plain : token.enclosing = 0) (rest : Within bound tokens) :
    Within bound (token :: tokens) := by
  have single : Within bound [token] := by
    refine ⟨by simp [plain], fun count => ?_, fun count => ?_⟩ <;> cases count <;> simp [plain]
  exact single.append rest

theorem enclose {left right : Token} (opens : left.enclosing = 1) (closes : right.enclosing = -1)
    (inner : Within bound tokens) : Within (bound + 1) (left :: (tokens ++ [right])) := by
  have ends : ∀ count, unclosed Token.enclosing ((tokens ++ [right]).take count) ≤ bound ∧
      -1 ≤ unclosed Token.enclosing ((tokens ++ [right]).take count) := by
    intro count
    rcases inner.take_append [right] count with same | same <;> rw [same]
    · have lower := inner.opened count
      exact ⟨inner.bounded count, by omega⟩
    · cases count - tokens.length <;> simp [closes]
  refine ⟨by simp [opens, closes, inner.closed], fun count => ?_, fun count => ?_⟩
  · cases count with
    | zero => simp
    | succ count =>
      rw [List.take_succ_cons, unclosed_cons, opens]
      have lower := (ends count).2
      omega
  · cases count with
    | zero => exact Int.natCast_nonneg _
    | succ count =>
      rw [List.take_succ_cons, unclosed_cons, opens]
      have upper := (ends count).1
      push_cast
      omega

end Within

theorem BinaryOp.enclosing_mark (op : BinaryOp) : (Token.mark op.mark).enclosing = 0 := by
  cases op <;> rfl

theorem Expr.within {grade : Grade} (e : Expr grade) : Within e.nesting e.spelling := by
  induction e with
  | truth value => cases value <;> exact .cons rfl (.nil _)
  | element text index ih => exact .cons rfl (.cons rfl (ih.append (.cons rfl (.nil _))))
  | not operand ih => exact .cons rfl (ih.mono (Nat.le_succ _))
  | group inner ih => exact .enclose rfl rfl ih
  | bare tier operand ih => exact ih
  | join tier op belongs chains left right ihLeft ihRight =>
    exact (ihLeft.mono (Nat.le_max_left _ _)).append
      (.cons op.enclosing_mark (ihRight.mono (Nat.le_max_right _ _)))
  | compare op belongs left right ihLeft ihRight =>
    exact (ihLeft.mono (Nat.le_max_left _ _)).append
      (.cons op.enclosing_mark (ihRight.mono (Nat.le_max_right _ _)))
  | _ => exact .cons rfl (.nil _)

theorem Expr.within_enclosed (e : Expression) : Within (e.nesting + 1) e.enclosed :=
  .enclose rfl rfl e.within

theorem Declarator.within (d : Declarator) : Within d.nesting d.spelling := by
  cases d with
  | plain name => exact .cons rfl (.nil _)
  | initialized name value => exact .cons rfl (.cons rfl (value.within.mono (Nat.le_succ _)))
  | array name size positive =>
    exact .cons rfl (.cons rfl (.cons rfl (.cons rfl (.nil _))))

theorem Declarator.within_further (ds : List Declarator) :
    Within (nestingAll ds) (furtherSpelling ds) := by
  induction ds with
  | nil => exact .nil _
  | cons d ds ih =>
    exact .append (.cons rfl (d.within.mono (Nat.le_max_left _ _))) (ih.mono (Nat.le_max_right _ _))

theorem Scalar.enclosing_mark (type : Scalar) : (Token.mark type.mark).enclosing = 0 := by
  cases type <;> rfl

theorem Declaration.within (d : Declaration) : Within d.nesting d.spelling :=
  .cons d.type.enclosing_mark (.append (d.first.within.mono (Nat.le_max_left _ _))
    (.append ((Declarator.within_further d.others).mono (Nat.le_max_right _ _))
      (.cons rfl (.nil _))))

theorem Declaration.within_all (ds : List Declaration) :
    Within (nestingAll ds) (ds.flatMap spelling) := by
  induction ds with
  | nil => exact .nil _
  | cons d ds ih =>
    exact .append (d.within.mono (Nat.le_max_left _ _)) (ih.mono (Nat.le_max_right _ _))

def Extent.own : Extent → Nat
  | one => 1
  | many => 0

theorem Statement.within {extent : Extent} (st : Statement extent) :
    Within (st.nesting + extent.own) st.spelling := by
  induction st with
  | declare d => exact d.within.mono (Nat.le_succ _)
  | assign name value =>
    have inner := value.within.mono (Nat.le_add_right value.nesting 2)
    exact .cons rfl (.cons rfl (inner.append (.cons rfl (.nil _))))
  | update name index value =>
    have inner : Within ((update name index value).nesting + 1) value.spelling :=
      value.within.mono (by simp only [nesting]; omega)
    have indexed : Within ((update name index value).nesting + 1) index.spelling :=
      index.within.mono (by simp only [nesting]; omega)
    exact .cons rfl (.cons rfl (indexed.append (.cons rfl (.cons rfl
      (inner.append (.cons rfl (.nil _)))))))
  | print value =>
    have inner := value.within_enclosed.mono (Nat.le_add_right (value.nesting + 1) 1)
    exact .cons rfl (inner.append (.cons rfl (.nil _)))
  | ifThen condition body ih =>
    have test : Within ((ifThen condition body).nesting + 1) condition.enclosed :=
      condition.within_enclosed.mono (by simp only [nesting]; omega)
    exact .cons rfl (test.append (ih.mono (by simp only [nesting, Extent.own]; omega)))
  | ifElse condition yes no ihYes ihNo =>
    have test : Within ((ifElse condition yes no).nesting + 1) condition.enclosed :=
      condition.within_enclosed.mono (by simp only [nesting]; omega)
    exact .cons rfl (test.append (.append (ihYes.mono (by simp only [nesting, Extent.own]; omega))
      (.cons rfl (ihNo.mono (by simp only [nesting, Extent.own]; omega)))))
  | whileDo condition body ih =>
    have test : Within ((whileDo condition body).nesting + 1) condition.enclosed :=
      condition.within_enclosed.mono (by simp only [nesting]; omega)
    exact .cons rfl (test.append (ih.mono (by simp only [nesting, Extent.own]; omega)))
  | doWhile body condition ih =>
    have test : Within ((doWhile body condition).nesting + 1) condition.enclosed :=
      condition.within_enclosed.mono (by simp only [nesting]; omega)
    exact .cons rfl (.append (ih.mono (by simp only [nesting, Extent.own]; omega))
      (.cons rfl (test.append (.cons rfl (.nil _)))))
  | block body ih => exact .enclose rfl rfl ih
  | nil => exact .nil _
  | cons one rest ihOne ihRest =>
    exact .append (ihOne.mono (by simp only [nesting, Extent.own]; omega))
      (ihRest.mono (by simp only [nesting, Extent.own]; omega))

theorem Program.within (p : Program) : Within (p.nesting + 1) (p.spelling ++ [Token.finish]) := by
  have declared := (Declaration.within_all p.declarations).mono (Nat.le_max_left _ p.body.nesting)
  have inner := p.body.within.mono (Nat.le_max_right (Declaration.nestingAll p.declarations) _)
  have braced : Within (p.nesting + 1) (.mark .openBrace ::
      ((p.declarations.flatMap Declaration.spelling ++ p.body.spelling) ++ [.mark .closeBrace])) :=
    .enclose rfl rfl (declared.append inner)
  rw [List.append_assoc] at braced
  have front : Within (p.nesting + 1) p.spelling := .cons rfl (.cons rfl braced)
  exact front.append (.cons rfl (.nil _))

theorem accepts_of_compile {text : String} {code : Listing} (accepted : compile text = .ok code) :
    ({} : Session).Accepts (.ofText text) := by
  unfold compile at accepted
  cases outcome : (({} : Session).compile (.ofText text)).1.outcome with
  | ok compiled => exact ⟨compiled, outcome⟩
  | error fault =>
    rw [outcome] at accepted
    cases accepted

theorem exists_compile {text : String} (accepts : ({} : Session).Accepts (.ofText text)) :
    ∃ code, compile text = .ok code := by
  obtain ⟨compiled, outcome⟩ := accepts
  refine ⟨compiled.code, ?_⟩
  rw [compile, outcome]
  rfl

theorem tokenize_of_drain {text : String} (clean : (Source.ofText text).drain.2 = none) :
    tokenize text = .ok (Source.ofText text).drain.1 := by
  rcases all : (Source.ofText text).drain with ⟨tokens, fault⟩
  rw [all] at clean
  obtain rfl : fault = none := clean
  rw [tokenize, all]

theorem enclosing_bounded {text : String} {code : Listing} {tokens : List Located}
    (accepted : compile text = .ok code) (tokenized : tokenize text = .ok tokens) (count : Nat) :
    0 ≤ unclosed Token.enclosing ((tokens.map (·.token)).take count) ∧
      unclosed Token.enclosing ((tokens.map (·.token)).take count) ≤ Compilation.maxNesting + 1 := by
  obtain ⟨p, clean, drained, known, shallow⟩ := Session.exists_drain (accepts_of_compile accepted)
  obtain rfl := Except.ok.inj (tokenized.symm.trans (tokenize_of_drain clean))
  rw [drained]
  have upper := p.within.bounded count
  exact ⟨p.within.opened count, by omega⟩

/-- Some number of brackets is never exceeded at any place of any of the texts that compile. -/
def BracketsBounded (turn : Token → Int) (texts : Set String) : Prop :=
  ∃ bound : Int, ∀ text ∈ texts, ∀ (code : Listing) (tokens : List Located),
    compile text = .ok code → tokenize text = .ok tokens →
      ∀ count, unclosed turn ((tokens.map (·.token)).take count) ≤ bound

/-- Of the texts that compile, some have a bound for their brackets exactly if they have one for
the brackets of their indexes. Whatever is deeper in parentheses and braces than the levels there
may be gives a fault. -/
theorem bracketsBounded_iff_indexing (texts : Set String) :
    (BracketsBounded Token.bracketing texts ↔ BracketsBounded Token.indexing texts) ∧
    ∀ (text : String) (tokens : List Located), tokenize text = .ok tokens →
      (∃ count, Compilation.maxNesting + 1 <
        unclosed Token.enclosing ((tokens.map (·.token)).take count)) →
      ∃ fault, compile text = .error fault := by
  refine ⟨⟨?_, ?_⟩, ?_⟩
  · intro claimed
    obtain ⟨bound, bounded⟩ := claimed
    refine ⟨bound, fun text member code tokens accepted tokenized count => ?_⟩
    have total := bounded text member code tokens accepted tokenized count
    have lower := (enclosing_bounded accepted tokenized count).1
    rw [unclosed_bracketing] at total
    omega
  · intro claimed
    obtain ⟨bound, bounded⟩ := claimed
    refine ⟨Compilation.maxNesting + 1 + bound, ?_⟩
    intro text member code tokens accepted tokenized count
    have inner := bounded text member code tokens accepted tokenized count
    have upper := (enclosing_bounded accepted tokenized count).2
    rw [unclosed_bracketing]
    omega
  · intro text tokens tokenized claimed
    obtain ⟨count, deep⟩ := claimed
    cases outcome : compile text with
    | error fault => exact ⟨fault, rfl⟩
    | ok code =>
      have upper := (enclosing_bounded outcome tokenized count).2
      omega

/-! Texts with indexes in one another. -/

/-- A text that is read as tokens up to its end, wherever it begins. -/
def Spells (text : List Char) (tokens : List Token) : Prop :=
  ∀ place, ∃ input final, Input.Opens (.text ⟨text, place⟩) input ∧
    input.Reads (tokens ++ [Token.finish]) final

theorem Cursor.skipTrivia_of_none {text : List Char} {place : Position}
    (begins : Trivia.pieceWidth? text = none) : skipTrivia ⟨text, place⟩ = ⟨text, place⟩ := by
  rw [skipTrivia, Trivia.width_of_none begins]
  rfl

theorem Cursor.skipTrivia_blank (rest : List Char) (place : Position) :
    skipTrivia ⟨' ' :: rest, place⟩ = skipTrivia ⟨rest, place.step ' '⟩ := by
  have blank : Trivia.pieceWidth? (' ' :: rest) = some 1 := rfl
  rw [skipTrivia, Trivia.width_of_piece blank, Nat.add_comm]
  rfl

namespace Spells

variable {c : Char} {rest : List Char} {token : Token} {tokens : List Token} {width : Nat}

theorem nil : Spells [] [] := by
  intro place
  let last : Input := ⟨⟨.finish, place⟩, .text ⟨[], place⟩⟩
  have still : Input.Opens (.text ⟨[], place⟩) last := by
    have skipped : Cursor.skipTrivia ⟨[], place⟩ = ⟨[], place⟩ := Cursor.skipTrivia_of_none rfl
    simp only [Input.Opens, Source.next, Cursor.next, skipped, last]
  exact ⟨last, last, still, rfl, last, still, rfl⟩

theorem blank (behind : Spells rest tokens) : Spells (' ' :: rest) tokens := by
  intro place
  obtain ⟨input, final, opens, reads⟩ := behind (place.step ' ')
  refine ⟨input, final, ?_, reads⟩
  simp only [Input.Opens, Source.next, Cursor.next, Cursor.skipTrivia_blank] at opens ⊢
  exact opens

theorem cons (begins : Trivia.pieceWidth? (c :: rest) = none)
    (lexeme : Lexeme.first c rest = ⟨width, .ok token⟩)
    (behind : Spells ((c :: rest).drop width) tokens) : Spells (c :: rest) (token :: tokens) := by
  intro place
  obtain ⟨input, final, opens, reads⟩ := behind (place.after ((c :: rest).take width))
  have skipped : Cursor.skipTrivia ⟨c :: rest, place⟩ = ⟨c :: rest, place⟩ :=
    Cursor.skipTrivia_of_none begins
  refine ⟨⟨⟨token, place⟩, .text (Cursor.advance ⟨c :: rest, place⟩ width)⟩, final, ?_, rfl, input,
    opens, reads⟩
  simp only [Input.Opens, Source.next, Cursor.next, skipped, lexeme]
  rfl

end Spells

def Expr.indexes : Nat → Expr .single
  | 0 => .integer 0
  | depth + 1 => .element "v" (.bare .sum (.bare .product (indexes depth)))

theorem Expr.spelling_indexes (depth : Nat) : (indexes (depth + 1)).spelling =
    .name "v" :: .mark .openBracket :: ((indexes depth).spelling ++ [.mark .closeBracket]) := rfl

theorem Expr.nesting_indexes (depth : Nat) : (indexes depth).nesting = 0 := by
  induction depth with
  | zero => rfl
  | succ depth ih => exact ih

theorem Expr.scoped_indexes (depth : Nat) : Scoped ["v"] (indexes depth).mentions := by
  induction depth with
  | zero => exact trivial
  | succ depth ih => exact ⟨List.mem_singleton_self "v", ih⟩

/-- The text of indexes in one another. -/
def indexText : Nat → List Char
  | 0 => ['0']
  | depth + 1 => 'v' :: '[' :: (indexText depth ++ [']'])

theorem spells_indexes (depth : Nat) {c : Char} {rest : List Char} {tokens : List Token}
    (closing : c = ']' ∨ c = ')') (behind : Spells (c :: rest) tokens) :
    Spells (indexText depth ++ c :: rest) ((Expr.indexes depth).spelling ++ tokens) := by
  induction depth generalizing c rest tokens with
  | zero =>
    have zero : Lexeme.first '0' (c :: rest) = ⟨1, .ok (.integer 0)⟩ := by
      rcases closing with rfl | rfl <;> rfl
    exact .cons rfl zero behind
  | succ depth ih =>
    have closed : Spells (']' :: c :: rest) (.mark .closeBracket :: tokens) :=
      .cons rfl rfl behind
    have inner := ih (Or.inl rfl) closed
    have opened : Spells ('[' :: (indexText depth ++ ']' :: c :: rest))
        (.mark .openBracket :: ((Expr.indexes depth).spelling ++ .mark .closeBracket :: tokens)) :=
      .cons rfl rfl inner
    have named : Spells ('v' :: '[' :: (indexText depth ++ ']' :: c :: rest)) (.name "v" ::
        .mark .openBracket :: ((Expr.indexes depth).spelling ++ .mark .closeBracket :: tokens)) :=
      .cons rfl rfl opened
    rw [Expr.spelling_indexes, indexText]
    simpa using named

def Program.indexing (depth : Nat) : Program where
  declarations := [⟨.int, .plain "v", []⟩]
  body := .cons (.print (Expr.indexes depth).alone) .nil

/-- The tokens in front of the indexes, and those behind them. -/
def Program.indexingFront : List Token :=
  [.mark .void, .mark .main, .mark .openBrace, .mark .int, .name "v", .mark .semicolon,
    .mark .print, .mark .openParen]

def Program.indexingBack : List Token := [.mark .closeParen, .mark .semicolon, .mark .closeBrace]

theorem Program.spelling_indexing (depth : Nat) : (indexing depth).spelling =
    indexingFront ++ ((Expr.indexes depth).spelling ++ indexingBack) := by
  have whole : (indexing depth).spelling = indexingFront ++ ((((Expr.indexes depth).spelling ++
    [Token.mark .closeParen]) ++ [Token.mark .semicolon]) ++ [] ++ [Token.mark .closeBrace]) := rfl
  rw [whole]
  simp [indexingBack]

/-- `void main{int v;print(v[v[v[0]]]);}` -/
def Program.indexingText (depth : Nat) : List Char :=
  ['v', 'o', 'i', 'd', ' ', 'm', 'a', 'i', 'n', '\x7b', 'i', 'n', 't', ' ', 'v', ';',
    'p', 'r', 'i', 'n', 't', '('] ++ (indexText depth ++ [')', ';', '\x7d'])

theorem Program.spells_indexing (depth : Nat) :
    Spells (indexingText depth) (indexing depth).spelling := by
  have closed : Spells [')', ';', '\x7d'] indexingBack :=
    .cons rfl rfl (.cons rfl rfl (.cons rfl rfl .nil))
  have inner := spells_indexes depth (Or.inr rfl) closed
  have printed : Spells (['p', 'r', 'i', 'n', 't', '('] ++ _)
      (.mark .print :: .mark .openParen :: _) :=
    .cons rfl rfl (.cons rfl rfl inner)
  have declared : Spells (['i', 'n', 't', ' ', 'v', ';'] ++ _)
      (.mark .int :: .name "v" :: .mark .semicolon :: _) :=
    .cons rfl rfl (.blank (.cons rfl rfl (.cons rfl rfl printed)))
  have begun : Spells (['v', 'o', 'i', 'd', ' ', 'm', 'a', 'i', 'n', '\x7b'] ++ _)
      (.mark .void :: .mark .main :: .mark .openBrace :: _) :=
    .cons rfl rfl (.blank (.cons rfl rfl (.cons rfl rfl declared)))
  rw [spelling_indexing]
  exact begun

theorem Program.accepts_indexing (depth : Nat) : ∃ code tokens,
    compile (String.ofList (indexingText depth)) = .ok code ∧
    tokenize (String.ofList (indexingText depth)) = .ok tokens ∧
    tokens.map (·.token) = (indexing depth).spelling ++ [Token.finish] := by
  obtain ⟨input, final, opens, reads⟩ := spells_indexing depth {}
  have text : Source.ofText (String.ofList (indexingText depth)) =
      .text ⟨indexingText depth, {}⟩ := by
    rw [Source.ofText, Cursor.ofText, String.toList_ofList]
  rw [← text] at opens
  have known : Scoped [] (indexing depth).mentions := by
    have inner : Scoped ["v"] ((Expr.indexes depth).mentions ++ []) := by
      rw [List.append_nil]
      exact Expr.scoped_indexes depth
    exact ⟨List.not_mem_nil, inner⟩
  have shallow : (indexing depth).nesting ≤ Compilation.maxNesting := by
    have flat : (Expr.indexes depth).alone.nesting = 0 := Expr.nesting_indexes depth
    simp [indexing, nesting, Declaration.nestingAll, Declaration.nesting, Declarator.nestingAll,
      Declarator.nesting, flat, Compilation.maxNesting]
  have settled : (indexing depth).body.Undeclaring := trivial
  have nearest : (indexing depth).body.ElseNearest := ⟨trivial, trivial⟩
  have accepts : ({} : Session).Accepts _ :=
    (Session.accepts_iff_of_input opens reads nearest settled).mpr ⟨known, shallow⟩
  obtain ⟨code, compiled⟩ := exists_compile accepts
  have inner : ∀ token ∈ (indexing depth).spelling, token ≠ .finish :=
    fun token member ended => (indexing depth).finish_notMem (ended ▸ member)
  obtain ⟨clean, drained⟩ := Input.drain_of_reads opens inner reads
  exact ⟨code, _, compiled, tokenize_of_drain clean, drained⟩

theorem unclosed_indexes (depth : Nat) (behind : List Token) :
    unclosed Token.bracketing (((Expr.indexes depth).spelling ++ behind).take (2 * depth)) =
      depth := by
  induction depth generalizing behind with
  | zero => rfl
  | succ depth ih =>
    have named : Token.bracketing (.name "v") = 0 := rfl
    have opened : Token.bracketing (.mark .openBracket) = 1 := rfl
    rw [Expr.spelling_indexes, Nat.mul_succ, List.cons_append, List.cons_append,
      List.append_assoc, List.take_succ_cons, List.take_succ_cons, unclosed_cons, unclosed_cons, ih,
      named, opened]
    push_cast
    ring

theorem Program.unclosed_indexing (depth : Nat) :
    unclosed Token.bracketing (((indexing depth).spelling ++ [Token.finish]).take (8 + 2 * depth)) =
      2 + depth := by
  have opened : unclosed Token.bracketing indexingFront = 2 := rfl
  have length : indexingFront.length = 8 := rfl
  rw [spelling_indexing, List.append_assoc, List.append_assoc, ← length,
    List.take_length_add_append, unclosed_append, opened, unclosed_indexes]

/-- Brackets of all kinds have no bound. -/
theorem not_bracketsBounded : ¬ BracketsBounded Token.bracketing Set.univ := by
  intro claimed
  obtain ⟨bound, bounded⟩ := claimed
  obtain ⟨code, tokens, compiled, tokenized, spelled⟩ := Program.accepts_indexing bound.toNat
  have deep := bounded _ trivial code tokens compiled tokenized (8 + 2 * bound.toNat)
  rw [spelled, Program.unclosed_indexing] at deep
  omega

end OnePass
