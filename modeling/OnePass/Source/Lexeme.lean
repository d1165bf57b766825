import OnePass.Binary64.Reading
import OnePass.Token.Basic

/-! Lexemes: the longest run of characters at a place that spells a token, or the
characters that are at fault if none does. -/
namespace OnePass

inductive LexicalFault where
  | unexpected (c : Char)
  /-- The first half of a sign that exists only doubled. -/
  | lone (c : Char)
  | outOfRange (digits : List Char)
  | unclosedComment
  deriving DecidableEq, Repr

def LexicalFault.message : LexicalFault → String
  | unexpected c => "Unexpected character: '" ++ c.toString ++ "'"
  | lone c =>
    "Expected '" ++ c.toString ++ c.toString ++ "', found lone '" ++ c.toString ++ "'"
  | outOfRange digits => "Invalid integer literal: " ++ String.ofList digits
  | unclosedComment => "Unterminated block comment"

structure Lexeme where
  width : Nat
  outcome : Except LexicalFault Token

namespace Lexeme

def isDigit (c : Char) : Bool := '0' ≤ c && c ≤ '9'

def startsName (c : Char) : Bool :=
  ('a' ≤ c && c ≤ 'z') || ('A' ≤ c && c ≤ 'Z') || c = '_'

def continuesName (c : Char) : Bool := startsName c || isDigit c

def decimal (digits : List Char) : Nat :=
  digits.foldl (fun value c => 10 * value + (c.toNat - '0'.toNat)) 0

def largestInteger : Nat := Nat.pow 2 63 - 1

def integer (digits : List Char) : Lexeme where
  width := digits.length
  outcome :=
    if decimal digits ≤ largestInteger then .ok (.integer (decimal digits))
    else .error (.outOfRange digits)

def real (whole fraction : List Char) : Lexeme where
  width := whole.length + 1 + fraction.length
  outcome := .ok (.real (.ofDecimal (decimal (whole ++ fraction)) fraction.length))

/-- The number that a text begins with. A point belongs to it only in front of a digit. -/
def number (text : List Char) : Lexeme :=
  let whole := text.takeWhile isDigit
  match text.drop whole.length with
  | '.' :: rest =>
    let fraction := rest.takeWhile isDigit
    if fraction.isEmpty then integer whole else real whole fraction
  | _ => integer whole

def word (text : List Char) : Lexeme :=
  let letters := text.takeWhile continuesName
  let spelled := String.ofList letters
  ⟨letters.length, .ok (match Mark.ofWord? spelled with
    | some m => .mark m
    | none => .name spelled)⟩

/-- The sign that a text begins with. Where there is none the first character is at fault. -/
def sign (c : Char) (rest : List Char) : Lexeme :=
  match Mark.leading? (c :: rest) with
  | some m => ⟨m.spelling.length, .ok (.mark m)⟩
  | none => ⟨1, .error (if c = '&' ∨ c = '|' then .lone c else .unexpected c)⟩

/-- The lexeme at the beginning of a text that does not begin with trivia. A block
comment can open such a text only if it is never closed, and then takes all of it. -/
def first (c : Char) (rest : List Char) : Lexeme :=
  if isDigit c then number (c :: rest)
  else if startsName c then word (c :: rest)
  else if c = '/' ∧ rest.head? = some '*' then ⟨rest.length + 1, .error .unclosedComment⟩
  else sign c rest

theorem width_number {text : List Char} {c : Char} {rest : List Char} (start : text = c :: rest)
    (digit : isDigit c = true) : 0 < (number text).width ∧ (number text).width ≤ text.length := by
  have positive : 0 < (text.takeWhile isDigit).length := by simp [start, digit]
  have inside : (text.takeWhile isDigit).length ≤ text.length :=
    (List.takeWhile_sublist isDigit).length_le
  unfold number
  dsimp only
  split
  · rename_i tail split
    have total := congrArg List.length split
    have fraction : (tail.takeWhile isDigit).length ≤ tail.length :=
      (List.takeWhile_sublist isDigit).length_le
    simp only [List.length_drop, List.length_cons] at total
    split
    · exact ⟨positive, inside⟩
    · simp only [real]; omega
  · exact ⟨positive, inside⟩

theorem width_word {c : Char} {rest : List Char} (start : startsName c = true) :
    0 < (word (c :: rest)).width ∧ (word (c :: rest)).width ≤ rest.length + 1 := by
  have inside := (List.takeWhile_sublist continuesName (l := c :: rest)).length_le
  simp [word, continuesName, start] at inside ⊢
  omega

theorem width_sign (c : Char) (rest : List Char) :
    0 < (sign c rest).width ∧ (sign c rest).width ≤ rest.length + 1 := by
  unfold sign
  split
  · rename_i m found
    have within := (Mark.leading?_isPrefix found).length_le
    have nonempty := List.length_pos_iff.2 m.spelling_ne_nil
    rw [String.length_toList, List.length_cons] at within
    rw [String.length_toList] at nonempty
    exact ⟨nonempty, within⟩
  · simp

theorem width_first (c : Char) (rest : List Char) :
    0 < (first c rest).width ∧ (first c rest).width ≤ rest.length + 1 := by
  unfold first
  split
  · rename_i digit
    exact width_number rfl digit
  · split
    · rename_i start
      exact width_word start
    · split
      · simp
      · exact width_sign c rest

end Lexeme

end OnePass
