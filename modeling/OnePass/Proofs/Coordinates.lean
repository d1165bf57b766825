import Mathlib
import OnePass.Proofs.Tiling

/-! Places are coordinates in the text. However often a cursor is called, and whatever the calls
come to, its place counts the newlines that it has passed and the characters behind the last of
them, and what a call reports stands at the coordinates of the first character that it is about. -/
namespace OnePass

namespace Position

/-- The coordinates of the character that follows a text. -/
def behind (text : List Char) : Position where
  line := 1 + text.count '\n'
  column := 1 + (text.rtakeWhile (· ≠ '\n')).length

theorem step_behind (text : List Char) (c : Char) : (behind text).step c = behind (text ++ [c]) := by
  by_cases newline : c = '\n'
  · subst newline
    simp [step, behind, Nat.add_assoc]
  · simp [step, behind, newline, Nat.add_assoc]

theorem after_behind (front text : List Char) :
    (behind front).after text = behind (front ++ text) := by
  induction text generalizing front with
  | nil => rw [after_nil, List.append_nil]
  | cons c rest ih => rw [after_cons, step_behind, ih, List.append_assoc, List.singleton_append]

end Position

theorem Trivia.not_infix_of_blockWidth? {body : List Char} (unclosed : blockWidth? body = none) :
    ¬ ['*', '/'] <:+: body := by
  fun_induction blockWidth? body with
  | case1 => simp
  | case2 rest => cases unclosed
  | case3 c rest later ih =>
    intro closes
    rcases List.infix_cons_iff.mp closes with ⟨tail, same⟩ | inside
    · obtain ⟨rfl, rfl⟩ := List.cons.inj same
      exact later tail rfl rfl
    · exact ih (Option.map_eq_none_iff.mp unclosed) inside

namespace Lexeme

/-- The characters at fault in front of a text, where none of its beginnings stands for a token. -/
inductive Offends : List Char → List Char → LexicalFault → Prop where
  | unexpected {c behind} : c ≠ '&' → c ≠ '|' →
      (∀ part rest, c :: behind = part ++ rest → ¬ Shaped part) →
      Offends [c] behind (.unexpected c)
  | lone {c behind} : c = '&' ∨ c = '|' → behind.head? ≠ some c → Offends [c] behind (.lone c)
  | outOfRange {digits behind} : IsNumeral digits → LongestShaped digits behind →
      2 ^ 63 - 1 < Nat.ofDigitChars 10 digits 0 → Offends digits behind (.outOfRange digits)
  | unclosedComment {body} : ¬ ['*', '/'] <:+: body →
      Offends ('/' :: '*' :: body) [] .unclosedComment

theorem fault_of_integer {digits : List Char} {fault : LexicalFault}
    (failed : (integer digits).outcome = .error fault) :
    fault = .outOfRange digits ∧ 2 ^ 63 - 1 < Nat.ofDigitChars 10 digits 0 := by
  change (if Nat.ofDigitChars 10 digits 0 ≤ 2 ^ 63 - 1
    then .ok (Token.integer (Nat.ofDigitChars 10 digits 0)) else .error (.outOfRange digits)) =
      Except.error fault at failed
  split at failed
  · cases failed
  · rename_i large
    exact ⟨(Except.error.inj failed).symm, not_le.mp large⟩

/-- Of the numbers only a whole one can be at fault. -/
theorem number_of_fault {text : List Char} {fault : LexicalFault}
    (failed : (number text).outcome = .error fault) :
    number text = integer (text.takeWhile isDigit) := by
  unfold number at failed ⊢
  dsimp only at failed ⊢
  split at failed
  · split at failed
    · rename_i whole
      rw [if_pos whole]
    · cases failed
  · rfl

theorem offends_number {c : Char} {rest : List Char} {fault : LexicalFault}
    (digit : isDigit c = true) (failed : (number (c :: rest)).outcome = .error fault) :
    ∃ part behind, c :: rest = part ++ behind ∧ (number (c :: rest)).width = part.length ∧
      Offends part behind fault := by
  obtain ⟨numeral, tail, same, digits, stops⟩ := @exists_numeral c rest digit
  obtain ⟨part, behind, again, cuts⟩ := @exists_cuts_number c rest digit
  have whole := number_of_fault failed
  rw [same, takeWhile_of_boundary digits.inside stops, ← same] at whole
  have width : part.length = numeral.length := by rw [← cuts.width, whole]; rfl
  obtain ⟨rfl, rfl⟩ := List.append_inj (again.symm.trans same) width
  rw [whole] at failed
  obtain ⟨rfl, large⟩ := fault_of_integer failed
  exact ⟨part, behind, same, cuts.width, .outOfRange digits cuts.longest large⟩

theorem offends_sign {c : Char} {rest : List Char} {fault : LexicalFault}
    (digit : ¬ isDigit c = true) (starts : ¬ startsName c = true)
    (failed : (sign c rest).outcome = .error fault) :
    (sign c rest).width = 1 ∧ Offends [c] rest fault := by
  unfold sign at failed ⊢
  cases found : Mark.leading? (c :: rest) with
  | some mark =>
    rw [found] at failed
    cases failed
  | none =>
    rw [found] at failed
    obtain rfl := Except.error.inj failed
    refine ⟨rfl, ?_⟩
    by_cases half : c = '&' ∨ c = '|'
    · rw [if_pos half]
      apply Offends.lone half
      intro doubled
      obtain ⟨tail, rfl⟩ := List.head?_eq_some_iff.mp doubled
      rcases half with rfl | rfl <;> cases found
    · rw [if_neg half]
      obtain ⟨ampersand, bar⟩ := not_or.mp half
      exact .unexpected ampersand bar (not_shaped_of_leading? digit starts found)

/-- Where the text behind the trivia is at fault, the lexeme there has the characters at fault. -/
theorem offends_first {c : Char} {rest : List Char} {fault : LexicalFault}
    (bare : Trivia.pieceWidth? (c :: rest) = none)
    (failed : (first c rest).outcome = .error fault) :
    ∃ part behind, c :: rest = part ++ behind ∧ (first c rest).width = part.length ∧
      Offends part behind fault := by
  unfold first at failed ⊢
  by_cases digit : isDigit c = true
  · rw [if_pos digit] at failed ⊢
    exact offends_number digit failed
  rw [if_neg digit] at failed ⊢
  by_cases starts : startsName c = true
  · rw [if_pos starts] at failed
    cases failed
  rw [if_neg starts] at failed ⊢
  by_cases opens : c = '/' ∧ rest.head? = some '*'
  · rw [if_pos opens] at failed ⊢
    obtain ⟨rfl, next⟩ := opens
    obtain ⟨body, rfl⟩ := List.head?_eq_some_iff.mp next
    obtain rfl := Except.error.inj failed
    have unclosed : Trivia.blockWidth? body = none := Option.map_eq_none_iff.mp bare
    exact ⟨_, [], (List.append_nil _).symm, rfl,
      .unclosedComment (Trivia.not_infix_of_blockWidth? unclosed)⟩
  · rw [if_neg opens] at failed ⊢
    obtain ⟨width, offends⟩ := offends_sign digit starts failed
    exact ⟨[c], rest, rfl, width, offends⟩

end Lexeme

namespace Cursor

/-- What a call reports of the characters that it passes behind the trivia, which begin at a given
place, in front of what is left. -/
inductive Reports (place : Position) :
    List Char → List Char → Except Diagnostic Located → Prop where
  | finish : Reports place [] [] (.ok ⟨.finish, place⟩)
  | token {part rest token} : ¬ Lexeme.OpensComment (part ++ rest) →
      Lexeme.LongestShaped part rest → Lexeme.Denotes part token →
      Reports place part rest (.ok ⟨token, place⟩)
  | fault {part rest fault} : Lexeme.Offends part rest fault →
      Reports place part rest (.error (.lexical place.line place.column fault.message))

theorem reports_first {c : Char} {rest : List Char} (place : Position)
    (bare : Trivia.pieceWidth? (c :: rest) = none) :
    ∃ part behind, c :: rest = part ++ behind ∧ (Lexeme.first c rest).width = part.length ∧
      Reports place part behind (located place (Lexeme.first c rest).outcome) := by
  cases spelled : (Lexeme.first c rest).outcome with
  | ok token =>
    have closed := Lexeme.not_opensComment bare spelled
    rcases Lexeme.first_cases closed with ⟨part, behind, same, cuts⟩ | ⟨none, _⟩
    · refine ⟨part, behind, same, cuts.width, ?_⟩
      rw [same] at closed
      exact .token closed cuts.longest ((cuts.outcome token).mp spelled)
    · exact absurd spelled (none token)
  | error fault =>
    obtain ⟨part, behind, same, width, offends⟩ := Lexeme.offends_first bare spelled
    exact ⟨part, behind, same, width, .fault offends⟩

/-- A call passes the longest run of trivia and then what it reports. -/
theorem next_reports (cursor : Cursor) : ∃ run part,
    cursor.rest = run ++ (part ++ (cursor.next).2.rest) ∧
      Longest Trivia.Run run (part ++ (cursor.next).2.rest) ∧
      (cursor.next).2.place = (cursor.place.after run).after part ∧
      Reports (cursor.place.after run) part (cursor.next).2.rest (cursor.next).1 := by
  obtain ⟨text, place⟩ := cursor
  obtain ⟨run, rest, rfl, longest⟩ := Trivia.exists_longest text
  cases rest with
  | nil =>
    rw [List.append_nil, next_of_ends place longest]
    exact ⟨run, [], by simp, longest, rfl, .finish⟩
  | cons c rest =>
    have bare := (Trivia.longest_iff.mp longest).2
    obtain ⟨part, behind, same, width, reports⟩ := reports_first (place.after run) bare
    have passed : advance ⟨c :: rest, place.after run⟩ (Lexeme.first c rest).width =
        ⟨behind, (place.after run).after part⟩ := by
      rw [advance, width, same, List.drop_left, List.take_left]
    rw [next_of_lexeme place longest, passed]
    rw [same] at longest ⊢
    exact ⟨run, part, rfl, longest, rfl, reports⟩

/-- The cursor after so many calls, whatever they came to. -/
def called (cursor : Cursor) (calls : Nat) : Cursor := (fun c => (c.next).2)^[calls] cursor

theorem called_succ (cursor : Cursor) (calls : Nat) :
    cursor.called (calls + 1) = ((cursor.called calls).next).2 :=
  Function.iterate_succ_apply' _ _ _

theorem exists_front (text : String) (calls : Nat) :
    ∃ front, text.toList = front ++ ((ofText text).called calls).rest ∧
      ((ofText text).called calls).place = .behind front := by
  induction calls with
  | zero => exact ⟨[], rfl, rfl⟩
  | succ calls ih =>
    obtain ⟨front, whole, place⟩ := ih
    obtain ⟨run, part, passed, _, moved, _⟩ := next_reports ((ofText text).called calls)
    rw [called_succ]
    refine ⟨front ++ run ++ part, ?_, ?_⟩
    · rw [whole, passed]
      simp only [List.append_assoc]
    · rw [moved, place, Position.after_behind, Position.after_behind]

/-- However often a cursor is called, it stands at the coordinates behind the text that it has
passed, and the next call reports what follows the trivia with the coordinates where that begins. -/
theorem calls_located (text : String) (calls : Nat) :
    let cursor := (ofText text).called calls
    ∃ front, text.toList = front ++ cursor.rest ∧ cursor.place = .behind front ∧
      ∃ run part, cursor.rest = run ++ (part ++ (cursor.next).2.rest) ∧
        Longest Trivia.Run run (part ++ (cursor.next).2.rest) ∧
        Reports (.behind (front ++ run)) part (cursor.next).2.rest (cursor.next).1 := by
  intro cursor
  obtain ⟨front, whole, place⟩ := exists_front text calls
  obtain ⟨run, part, passed, longest, _, reports⟩ := next_reports cursor
  refine ⟨front, whole, place, run, part, passed, longest, ?_⟩
  rw [← Position.after_behind, ← place]
  exact reports

-- the third call comes behind a fault and a comment over three lines
example : (((ofText "x # /*\n\n*/ &y").called 2).next).1 =
    .error (.lexical 3 4 "Expected '&&', found lone '&'") := by decide +kernel

end Cursor

end OnePass
