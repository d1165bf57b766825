import Mathlib
import OnePass.Proofs.Brackets
import OnePass.Proofs.Rounding

/-! What a cursor delivers: which tokens a text can spell, which faults it can have, and that the
end of input is reached once and for all. -/
namespace OnePass

namespace Cursor

/-- A call comes to the end of the text behind the trivia, or it passes a lexeme there. -/
theorem next_cases (cursor : Cursor) :
    (cursor.skipTrivia.rest = [] ∧
      cursor.next = (.ok ⟨.finish, cursor.skipTrivia.place⟩, cursor.skipTrivia)) ∨
    ∃ c rest, cursor.skipTrivia.rest = c :: rest ∧
      cursor.next = (located cursor.skipTrivia.place (Lexeme.first c rest).outcome,
        cursor.skipTrivia.advance (Lexeme.first c rest).width) := by
  unfold next
  cases start : cursor.skipTrivia.rest with
  | nil => exact Or.inl ⟨rfl, by simp only [start]⟩
  | cons c rest => exact Or.inr ⟨c, rest, rfl, by simp only [start]⟩

theorem located_eq_ok {place : Position} {outcome : Except LexicalFault Token} {token : Located}
    (delivered : located place outcome = .ok token) : outcome = .ok token.token := by
  cases outcome with
  | ok inner =>
    obtain rfl := Except.ok.inj delivered
    rfl
  | error fault => cases delivered

end Cursor

def Diagnostic.isLexical : Diagnostic → Bool
  | lexical .. => true
  | _ => false

/-- What a text can spell: no number is negative, and a name is made of letters, digits and
underscores and does not begin with a digit. -/
def Token.Legible : Token → Prop
  | integer value => 0 ≤ value
  | real value => value.bits < Binary64.infinity.bits ∨ value = .infinity
  | name text => ∃ c rest, text.toList = c :: rest ∧ Lexeme.startsName c = true ∧
      ∀ other ∈ rest, Lexeme.continuesName other = true
  | mark _ => True
  | finish => True

namespace Lexeme

theorem legible_of_integer {digits : List Char} {token : Token}
    (spelled : (integer digits).outcome = .ok token) : token.Legible := by
  unfold integer at spelled
  dsimp only at spelled
  split at spelled
  · obtain rfl := Except.ok.inj spelled
    exact Int.natCast_nonneg _
  · cases spelled

theorem legible_of_number {text : List Char} {token : Token}
    (spelled : (number text).outcome = .ok token) : token.Legible := by
  unfold number at spelled
  dsimp only at spelled
  split at spelled
  · split at spelled
    · exact legible_of_integer spelled
    · obtain rfl := Except.ok.inj spelled
      exact Binary64.ofUnits_below _
  · exact legible_of_integer spelled

theorem legible_of_word {c : Char} {rest : List Char} {token : Token}
    (starts : startsName c = true) (spelled : (word (c :: rest)).outcome = .ok token) :
    token.Legible := by
  have continues : continuesName c = true := by
    rw [continuesName, starts, Bool.true_or]
  unfold word at spelled
  dsimp only at spelled
  obtain rfl := Except.ok.inj spelled
  split
  · trivial
  · refine ⟨c, rest.takeWhile continuesName, ?_, starts, fun other => List.mem_takeWhile_imp⟩
    rw [String.toList_ofList, List.takeWhile_cons_of_pos continues]

theorem legible_of_first {c : Char} {rest : List Char} {token : Token}
    (spelled : (first c rest).outcome = .ok token) : token.Legible := by
  unfold first at spelled
  split at spelled
  · exact legible_of_number spelled
  split at spelled
  · rename_i starts
    exact legible_of_word starts spelled
  split at spelled
  · cases spelled
  · unfold sign at spelled
    split at spelled
    · obtain rfl := Except.ok.inj spelled
      trivial
    · cases spelled

end Lexeme

theorem Cursor.legible_of_next {cursor after : Cursor} {token : Located}
    (delivered : cursor.next = (.ok token, after)) : token.token.Legible := by
  rcases cursor.next_cases with ⟨start, called⟩ | ⟨c, rest, start, called⟩ <;>
  obtain ⟨result, _⟩ := Prod.mk.inj (called.symm.trans delivered)
  · obtain rfl := Except.ok.inj result
    trivial
  · exact Lexeme.legible_of_first (located_eq_ok result)

theorem Lexeme.first_ne_finish (c : Char) (rest : List Char) :
    (first c rest).outcome ≠ .ok .finish := by
  unfold first number word sign integer real
  grind

/-- The end of input is reached once and for all. -/
theorem Cursor.next_of_finish {cursor after : Cursor} {token : Located}
    (delivered : cursor.next = (.ok token, after)) (ended : token.token = .finish) :
    after.next = (.ok token, after) ∧ after.place = token.place := by
  rcases cursor.next_cases with ⟨start, called⟩ | ⟨c, rest, start, called⟩
  · obtain ⟨result, rfl⟩ := Prod.mk.inj (called.symm.trans delivered)
    obtain rfl := Except.ok.inj result
    have bare : Trivia.pieceWidth? cursor.skipTrivia.rest = none := by
      rw [start]
      rfl
    have still : cursor.skipTrivia.skipTrivia = cursor.skipTrivia := skipTrivia_of_none bare
    refine ⟨?_, rfl⟩
    unfold next
    simp only [still, start]
  · obtain ⟨result, _⟩ := Prod.mk.inj (called.symm.trans delivered)
    have outcome := located_eq_ok result
    rw [ended] at outcome
    exact absurd outcome (Lexeme.first_ne_finish c rest)

theorem Cursor.isLexical_of_next {cursor : Cursor} {fault : Diagnostic}
    (failed : (cursor.next).1 = .error fault) : fault.isLexical = true := by
  rcases cursor.next_cases with ⟨start, called⟩ | ⟨c, rest, start, called⟩
  · rw [called] at failed
    cases failed
  · rw [called] at failed
    cases outcome : (Lexeme.first c rest).outcome with
    | ok token =>
      rw [outcome] at failed
      cases failed
    | error cause =>
      rw [outcome] at failed
      obtain rfl := Except.error.inj failed
      rfl

namespace Source

theorem isLexical_of_next {source : Source} {fault : Diagnostic}
    (failed : (source.next).1 = .error fault) : fault.isLexical = true := by
  match source with
  | text cursor => exact Cursor.isLexical_of_next failed
  | given [] line => cases failed
  | given (token :: rest) line => cases failed

theorem isLexical_of_drain {source : Source} {tokens : List Located} {fault : Diagnostic}
    (drained : source.drain = (tokens, some fault)) : fault.isLexical = true := by
  fun_induction drain source generalizing tokens with
  | case1 source token after delivered ended => cases drained
  | case2 source token after delivered inner rest cause behind ih =>
    obtain ⟨_, rfl⟩ := Prod.mk.inj drained
    exact ih behind
  | case3 source cause after delivered =>
    obtain ⟨_, known⟩ := Prod.mk.inj drained
    obtain rfl := Option.some.inj known
    exact isLexical_of_next (congrArg Prod.fst delivered)

theorem exists_of_next {cursor : Cursor} {token : Located} {after : Source}
    (delivered : (Source.text cursor).next = (.ok token, after)) :
    ∃ cursor', after = .text cursor' ∧ cursor.next = (.ok token, cursor') := by
  obtain ⟨result, rfl⟩ := Prod.mk.inj delivered
  exact ⟨_, rfl, Prod.ext result rfl⟩

/-- Everything that a text delivers is legible. -/
theorem legible_of_drain (cursor : Cursor) :
    ∀ token ∈ (Source.text cursor).drain.1, token.token.Legible := by
  generalize opened : Source.text cursor = source
  fun_induction drain source generalizing cursor with
  | case1 source token after delivered ended =>
    subst opened
    obtain ⟨cursor', _, called⟩ := exists_of_next delivered
    exact List.forall_mem_singleton.mpr (Cursor.legible_of_next called)
  | case2 source token after delivered inner rest cause behind ih =>
    subst opened
    obtain ⟨cursor', rfl, called⟩ := exists_of_next delivered
    rw [behind] at ih
    exact List.forall_mem_cons.mpr ⟨Cursor.legible_of_next called, ih cursor' rfl⟩
  | case3 source cause after delivered => exact List.forall_mem_nil _

end Source

end OnePass
