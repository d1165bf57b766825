import OnePass.Diagnostic
import OnePass.Source.Lexeme
import OnePass.Source.Trivia

/-! Cursors into a text. Each call of `next` passes the trivia at the cursor and then one
lexeme; a lexeme at fault is passed too, so reading can go on behind it. -/
namespace OnePass

structure Cursor where
  rest : List Char
  place : Position := {}
  deriving DecidableEq, Repr

namespace Cursor

def ofText (text : String) : Cursor := ⟨text.toList, {}⟩

def advance (cursor : Cursor) (count : Nat) : Cursor :=
  ⟨cursor.rest.drop count, cursor.place.after (cursor.rest.take count)⟩

def skipTrivia (cursor : Cursor) : Cursor := cursor.advance (Trivia.width cursor.rest)

def located (place : Position) : Except LexicalFault Token → Except Diagnostic Located
  | .ok token => .ok ⟨token, place⟩
  | .error fault => .error (.lexical place.line place.column fault.message)

/-- The next token, or what is wrong with the text in its place. The end of input lies
behind the last trivia and is reported there again and again. -/
def next (cursor : Cursor) : Except Diagnostic Located × Cursor :=
  let start := cursor.skipTrivia
  match start.rest with
  | [] => (.ok ⟨.finish, start.place⟩, start)
  | c :: rest =>
    let lexeme := Lexeme.first c rest
    (located start.place lexeme.outcome, start.advance lexeme.width)

theorem length_rest_advance (cursor : Cursor) (count : Nat) :
    (cursor.advance count).rest.length = cursor.rest.length - count := by
  simp [advance]

/-- Only the end of input is reported without reading a character. -/
theorem next_progress (cursor : Cursor) :
    (∃ place, (cursor.next).1 = .ok ⟨.finish, place⟩) ∨
      (cursor.next).2.rest.length < cursor.rest.length := by
  have skipped : cursor.skipTrivia.rest.length ≤ cursor.rest.length := by
    simp [skipTrivia, advance]
  unfold next
  cases start : cursor.skipTrivia.rest with
  | nil => simp [start]
  | cons c rest =>
    right
    have width := Lexeme.width_first c rest
    simp only [start, length_rest_advance, List.length_cons] at skipped ⊢
    omega

theorem length_rest_next (cursor : Cursor) :
    (cursor.next).2.rest.length ≤ cursor.rest.length := by
  have skipped : cursor.skipTrivia.rest.length ≤ cursor.rest.length := by
    simp [skipTrivia, advance]
  unfold next
  cases start : cursor.skipTrivia.rest with
  | nil => simp_all
  | cons c rest =>
    simp only [start, length_rest_advance, List.length_cons] at skipped ⊢
    omega

end Cursor

end OnePass
