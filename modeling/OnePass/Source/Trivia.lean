/-! Trivia: the blanks and comments between lexemes. Trivia is a run of pieces, each a
blank, a line comment or a closed block comment. A block comment without an end is no
piece, so the run stops in front of it. -/
namespace OnePass.Trivia

def isBlank (c : Char) : Bool := c = ' ' || c = '\t' || c = '\r' || c = '\n'

/-- The length of a line comment's body, with the newline that ends it if there is one. -/
def lineWidth : List Char → Nat
  | [] => 0
  | c :: rest => if c = '\n' then 1 else lineWidth rest + 1

/-- The length of a block comment's body through the first mark that closes it. -/
def blockWidth? : List Char → Option Nat
  | [] => none
  | '*' :: '/' :: _ => some 2
  | _ :: rest => (blockWidth? rest).map (· + 1)

def pieceWidth? : List Char → Option Nat
  | '/' :: '/' :: body => some (lineWidth body + 2)
  | '/' :: '*' :: body => (blockWidth? body).map (· + 2)
  | c :: _ => if isBlank c then some 1 else none
  | [] => none

theorem lineWidth_le (text : List Char) : lineWidth text ≤ text.length := by
  induction text with
  | nil => simp [lineWidth]
  | cons c rest ih => simp only [lineWidth, List.length_cons]; split <;> omega

theorem blockWidth?_le {text : List Char} {width : Nat} (closed : blockWidth? text = some width) :
    width ≤ text.length := by
  fun_induction blockWidth? text generalizing width with
  | case1 => simp at closed
  | case2 rest => simp at closed; simp [← closed]
  | case3 c rest _ ih =>
    obtain ⟨inner, found, rfl⟩ := Option.map_eq_some_iff.1 closed
    simpa using ih found

theorem pieceWidth?_bounds {text : List Char} {width : Nat} (found : pieceWidth? text = some width) :
    0 < width ∧ width ≤ text.length := by
  fun_cases pieceWidth? text with
  | case1 body =>
    have := lineWidth_le body
    simp [pieceWidth?] at found
    simp; omega
  | case2 body =>
    simp only [pieceWidth?] at found
    obtain ⟨inner, closed, rfl⟩ := Option.map_eq_some_iff.1 found
    have := blockWidth?_le closed
    simp; omega
  | case3 c rest noLine noBlock blank => simp_all [pieceWidth?]; omega
  | case4 c rest noLine noBlock blank => simp_all [pieceWidth?]
  | case5 => simp [pieceWidth?] at found

/-- The length of the longest run of trivia that a text begins with. -/
def width (text : List Char) : Nat :=
  match _found : pieceWidth? text with
  | none => 0
  | some piece => piece + width (text.drop piece)
termination_by text.length
decreasing_by
  have := pieceWidth?_bounds _found
  simp; omega

theorem width_of_none {text : List Char} (absent : pieceWidth? text = none) :
    width text = 0 := by
  rw [width]
  split <;> simp_all

theorem width_of_piece {text : List Char} {piece : Nat} (found : pieceWidth? text = some piece) :
    width text = piece + width (text.drop piece) := by
  rw [width]
  split <;> simp_all

end OnePass.Trivia
