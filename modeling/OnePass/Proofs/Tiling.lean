import Mathlib
import OnePass.Proofs.LexicalGrammar

/-! Cutting a text into trivia and lexemes. A cursor finds the one cut that takes the longest piece
each time, so the tokens of a text are those of its lexemes, and there are none if the text
cannot be cut to its end. -/
namespace OnePass

/-- A text that is cut into trivia and lexemes, and the tokens that its lexemes stand for. -/
inductive Tiles : List Char → List Token → Prop where
  | ends {run} : Longest Trivia.Run run [] → Tiles run []
  | lexeme {run part rest token tokens} : Longest Trivia.Run run (part ++ rest) →
      ¬ Lexeme.OpensComment (part ++ rest) → Lexeme.LongestShaped part rest →
      Lexeme.Denotes part token → Tiles rest tokens →
      Tiles (run ++ (part ++ rest)) (token :: tokens)

namespace Cursor

theorem skipTrivia_of_longest {run rest : List Char} (place : Position)
    (longest : Longest Trivia.Run run rest) :
    skipTrivia ⟨run ++ rest, place⟩ = ⟨rest, place.after run⟩ := by
  obtain ⟨found, absent⟩ := Trivia.longest_iff.mp longest
  have width : Trivia.width (run ++ rest) = run.length := by
    rw [found.width_append, Trivia.width_of_none absent, Nat.add_zero]
  rw [skipTrivia, width, advance, List.drop_left, List.take_left]

theorem next_of_ends {run : List Char} (place : Position) (longest : Longest Trivia.Run run []) :
    next ⟨run, place⟩ = (.ok ⟨.finish, place.after run⟩, ⟨[], place.after run⟩) := by
  have skipped := skipTrivia_of_longest place longest
  rw [List.append_nil] at skipped
  rw [next, skipped]

theorem next_of_lexeme {run text : List Char} {c : Char} (place : Position)
    (longest : Longest Trivia.Run run (c :: text)) :
    next ⟨run ++ c :: text, place⟩ =
      (located (place.after run) (Lexeme.first c text).outcome,
        advance ⟨c :: text, place.after run⟩ (Lexeme.first c text).width) := by
  rw [next, skipTrivia_of_longest place longest]

end Cursor

/-- The longest lexeme at a place is the one that is found there. -/
theorem Lexeme.first_of_longest {part rest text : List Char} {c : Char} {token : Token}
    (same : part ++ rest = c :: text) (closed : ¬ OpensComment (c :: text))
    (longest : LongestShaped part rest) (denotes : Denotes part token) :
    (first c text).outcome = .ok token ∧ (first c text).width = part.length := by
  rcases first_cases closed with ⟨other, behind, again, cuts⟩ | ⟨_, none⟩
  · have whole : other ++ behind = part ++ rest := again.symm.trans same.symm
    have size := Nat.le_antisymm (longest.most _ _ whole cuts.longest.fits)
      (cuts.longest.most _ _ whole.symm longest.fits)
    obtain ⟨rfl, rfl⟩ := List.append_inj whole size
    exact ⟨(cuts.outcome token).mpr denotes, cuts.width⟩
  · exact absurd longest.fits (none _ _ same.symm)

/-- Behind the trivia stands no line comment, and a block comment that opens there is at fault. -/
theorem Lexeme.not_opensComment {c : Char} {rest : List Char} {token : Token}
    (bare : Trivia.pieceWidth? (c :: rest) = none) (spelled : (first c rest).outcome = .ok token) :
    ¬ OpensComment (c :: rest) := by
  rintro (⟨body, same⟩ | ⟨body, same⟩)
  · rw [← same] at bare
    cases bare
  · obtain ⟨rfl, rfl⟩ := List.cons.inj same
    cases spelled

/-- What a cursor delivers where it does not fail: the end behind the last trivia, or the token of
the longest lexeme. -/
theorem Cursor.exists_cut {cursor after : Cursor} {token : Located}
    (delivered : cursor.next = (.ok token, after)) :
    (token.token = .finish ∧ Longest Trivia.Run cursor.rest []) ∨
    ∃ run part, cursor.rest = run ++ (part ++ after.rest) ∧
      Longest Trivia.Run run (part ++ after.rest) ∧ ¬ Lexeme.OpensComment (part ++ after.rest) ∧
      Lexeme.LongestShaped part after.rest ∧ Lexeme.Denotes part token.token := by
  obtain ⟨text, place⟩ := cursor
  obtain ⟨run, rest, rfl, longest⟩ := Trivia.exists_longest text
  cases rest with
  | nil =>
    rw [List.append_nil, next_of_ends place longest] at delivered
    obtain ⟨ended, _⟩ := Prod.mk.inj delivered
    obtain rfl := Except.ok.inj ended
    rw [List.append_nil]
    exact .inl ⟨rfl, longest⟩
  | cons c rest =>
    rw [next_of_lexeme place longest] at delivered
    obtain ⟨result, rfl⟩ := Prod.mk.inj delivered
    have spelled := located_eq_ok result
    have closed : ¬ Lexeme.OpensComment (c :: rest) :=
      Lexeme.not_opensComment (Trivia.longest_iff.mp longest).2 spelled
    rcases Lexeme.first_cases closed with ⟨part, behind, same, cuts⟩ | ⟨none, _⟩
    · have left : (advance ⟨c :: rest, place.after run⟩ (Lexeme.first c rest).width).rest =
          behind := by
        rw [advance, cuts.width, same, List.drop_left]
      rw [same] at longest closed
      rw [left, same]
      exact .inr ⟨run, part, rfl, longest, closed, cuts.longest, (cuts.outcome _).mp spelled⟩
    · exact absurd spelled (none _)

namespace Source

theorem exists_drain {text : List Char} {tokens : List Token} (tiles : Tiles text tokens)
    (place : Position) : ∃ located, (Source.text ⟨text, place⟩).drain = (located, none) ∧
      located.map (·.token) = tokens ++ [.finish] := by
  induction tiles generalizing place with
  | ends longest =>
    have delivered := congrArg (Prod.map id Source.text) (Cursor.next_of_ends place longest)
    exact ⟨_, drain_of_finish delivered rfl, rfl⟩
  | @lexeme run part rest token tokens longest closed most denotes _ ih =>
    obtain ⟨c, text, same⟩ : ∃ c text, part ++ rest = c :: text :=
      List.exists_cons_of_ne_nil (List.append_ne_nil_of_left_ne_nil most.fits.ne_nil _)
    rw [same] at longest closed ⊢
    obtain ⟨spelled, width⟩ := Lexeme.first_of_longest same closed most denotes
    have called := Cursor.next_of_lexeme place longest
    rw [spelled, width, Cursor.advance, ← same, List.drop_left] at called
    have delivered : (Source.text ⟨run ++ (part ++ rest), place⟩).next =
        (.ok ⟨token, place.after run⟩, .text ⟨rest, _⟩) :=
      congrArg (Prod.map id Source.text) called
    have inner : token ≠ .finish := by
      rintro rfl
      exact Lexeme.first_ne_finish c text spelled
    obtain ⟨located, drained, spells⟩ := ih _
    rw [← same]
    refine ⟨_, (drain_of_token delivered inner).trans (by rw [drained]), ?_⟩
    rw [List.map_cons, spells]
    rfl

theorem exists_tiles {cursor : Cursor} {located : List Located}
    (drained : (Source.text cursor).drain = (located, none)) :
    ∃ tokens, Tiles cursor.rest tokens ∧ located.map (·.token) = tokens ++ [.finish] := by
  generalize opened : Source.text cursor = source at drained
  fun_induction drain source generalizing cursor located with
  | case1 source token after delivered ended =>
    subst opened
    obtain ⟨rfl, _⟩ := Prod.mk.inj drained
    obtain ⟨cursor', rfl, called⟩ := exists_of_next delivered
    rcases Cursor.exists_cut called with ⟨_, longest⟩ | ⟨_, _, _, _, _, _, denotes⟩
    · exact ⟨[], .ends longest, congrArg (List.cons · []) ended⟩
    · rw [ended] at denotes
      cases denotes
  | case2 source token after delivered inner rest fault behind ih =>
    subst opened
    obtain ⟨rfl, rfl⟩ := Prod.mk.inj drained
    obtain ⟨cursor', rfl, called⟩ := exists_of_next delivered
    obtain ⟨tokens, tiles, spells⟩ := ih rfl behind
    rcases Cursor.exists_cut called with ⟨ended, _⟩ |
      ⟨run, part, same, longest, closed, most, denotes⟩
    · exact absurd ended inner
    · rw [same]
      exact ⟨_, .lexeme longest closed most denotes tiles, congrArg (List.cons _) spells⟩
  | case3 source fault after delivered => cases drained

end Source

theorem tokenize_of_tiles {text : String} {tokens : List Token} (tiles : Tiles text.toList tokens) :
    ∃ located, tokenize text = .ok located ∧ located.map (·.token) = tokens ++ [.finish] := by
  obtain ⟨located, drained, spells⟩ := Source.exists_drain tiles {}
  refine ⟨located, ?_, spells⟩
  unfold tokenize Source.ofText Cursor.ofText
  rw [drained]

/-- A text has the tokens of the lexemes that it is cut into, and a text that cannot be cut has a
lexical fault. -/
theorem tokenize_eq_tiles (text : String) :
    (∀ tokens, (∃ located, tokenize text = .ok located ∧
        located.map (·.token) = tokens ++ [.finish]) ↔ Tiles text.toList tokens) ∧
      ((∃ line column message, tokenize text = .error (.lexical line column message)) ↔
        ¬ ∃ tokens, Tiles text.toList tokens) := by
  have cut (tokens : List Token) : (∃ located, tokenize text = .ok located ∧
      located.map (·.token) = tokens ++ [.finish]) ↔ Tiles text.toList tokens := by
    constructor
    · rintro ⟨located, read, spells⟩
      unfold tokenize at read
      split at read
      · rename_i drained
        obtain rfl := Except.ok.inj read
        obtain ⟨tokens', tiles, spells'⟩ := Source.exists_tiles drained
        obtain rfl := List.append_cancel_right (spells.symm.trans spells')
        exact tiles
      · cases read
    · exact tokenize_of_tiles
  refine ⟨cut, ?_, fun none => ?_⟩
  · rintro ⟨line, column, message, failed⟩ ⟨tokens, tiles⟩
    obtain ⟨located, read, _⟩ := (cut tokens).mpr tiles
    rw [failed] at read
    cases read
  · unfold tokenize
    split
    · rename_i drained
      obtain ⟨tokens, tiles, _⟩ := Source.exists_tiles drained
      exact absurd ⟨tokens, tiles⟩ none
    · rename_i fault drained
      have lexical := Source.isLexical_of_drain drained
      cases fault with
      | lexical line column message => exact ⟨line, column, message, rfl⟩
      | _ => cases lexical

end OnePass
