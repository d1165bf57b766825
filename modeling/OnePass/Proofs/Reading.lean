import Mathlib
import OnePass.Compilation.Run
import OnePass.Proofs.Syntax

/-! What a compilation has in front of it, and reading tokens off it one by one. -/
namespace OnePass

structure Input where
  lookahead : Located
  source : Source

namespace Input

def token (input : Input) : Token := input.lookahead.token

def Moves (input next : Input) : Prop := input.source.next = (.ok next.lookahead, next.source)

/-- Reading given tokens one after the other leads from one input to another. -/
def Reads : Input → List Token → Input → Prop
  | input, [], final => input = final
  | input, token :: rest, final =>
    input.token = token ∧ ∃ next, input.Moves next ∧ Reads next rest final

theorem Moves.unique {input one other : Input} (first : input.Moves one)
    (second : input.Moves other) : one = other := by
  have same := first.symm.trans second
  simp only [Prod.mk.injEq, Except.ok.injEq] at same
  cases one
  cases other
  simp_all

theorem reads_append {input final : Input} {first second : List Token} :
    input.Reads (first ++ second) final ↔
      ∃ middle, input.Reads first middle ∧ middle.Reads second final := by
  induction first generalizing input with
  | nil => simp [Reads]
  | cons token rest ih =>
    simp only [List.cons_append, Reads, ih]
    constructor
    · intro read
      obtain ⟨seen, next, moved, middle, left, right⟩ := read
      exact ⟨middle, ⟨seen, next, moved, left⟩, right⟩
    · intro read
      obtain ⟨middle, ⟨seen, next, moved, left⟩, right⟩ := read
      exact ⟨seen, next, moved, middle, left, right⟩

theorem Reads.unique {input one other : Input} {tokens : List Token} (first : input.Reads tokens one)
    (second : input.Reads tokens other) : one = other := by
  induction tokens generalizing input with
  | nil => exact first.symm.trans second
  | cons token rest ih =>
    obtain ⟨_, next, moved, first⟩ := first
    obtain ⟨_, again, movedAgain, second⟩ := second
    obtain rfl := moved.unique movedAgain
    exact ih first second

def Opens (source : Source) (input : Input) : Prop :=
  source.next = (.ok input.lookahead, input.source)

theorem drain_of_reads {source : Source} {input final : Input} {tokens : List Token}
    (opens : Opens source input) (inner : ∀ token ∈ tokens, token ≠ .finish)
    (reads : input.Reads (tokens ++ [Token.finish]) final) :
    source.drain.2 = none ∧ source.drain.1.map (·.token) = tokens ++ [Token.finish] := by
  induction tokens generalizing source input with
  | nil =>
    obtain ⟨seen, _⟩ := reads
    rw [Source.drain_of_finish opens seen]
    exact ⟨rfl, congrArg (fun token => [token]) seen⟩
  | cons token rest ih =>
    obtain ⟨seen, next, moved, reads⟩ := reads
    have unended : input.lookahead.token ≠ .finish := by
      intro ended
      exact inner token (by simp) (seen.symm.trans ended)
    have tail := ih moved (fun other member => inner other (by simp [member])) reads
    rw [Source.drain_of_token opens unended]
    refine ⟨tail.1, ?_⟩
    rw [List.map_cons, tail.2]
    exact congrArg (fun first => first :: (rest ++ [Token.finish])) seen

theorem sentence_cons (first : Located) (rest : List Located) :
    sentence (first :: rest) =
      if first.token = .finish then [] else first.token :: sentence rest := by
  by_cases ended : first.token = .finish <;> simp [sentence, ended]

/-- Given tokens can be read up to the first end of input among them, which is there even
where none is given, and past it. -/
theorem exists_reads_given (rest : List Located) (lookahead : Located) (line : Nat) :
    ∃ final, Reads ⟨lookahead, .given rest line⟩ (sentence (lookahead :: rest) ++ [Token.finish])
      final := by
  induction rest generalizing lookahead line with
  | nil =>
    let last : Input := ⟨⟨.finish, ⟨line, 1⟩⟩, .given [] line⟩
    rw [sentence_cons]
    by_cases ended : lookahead.token = .finish
    · rw [if_pos ended]
      exact ⟨last, ended, last, rfl, rfl⟩
    · rw [if_neg ended]
      exact ⟨last, rfl, last, rfl, rfl, last, rfl, rfl⟩
  | cons next rest ih =>
    let second : Input := ⟨next, .given rest next.place.line⟩
    rw [sentence_cons]
    by_cases ended : lookahead.token = .finish
    · rw [if_pos ended]
      exact ⟨second, ended, second, rfl, rfl⟩
    · obtain ⟨final, reads⟩ := ih next next.place.line
      rw [if_neg ended]
      exact ⟨final, rfl, second, rfl, reads⟩

theorem finish_notMem_sentence (tokens : List Located) :
    ∀ token ∈ sentence tokens, token ≠ .finish := by
  intro token member
  simpa using List.mem_takeWhile_imp member

theorem eq_of_reads_finish {input one other : Input} {first second : List Token}
    (innerFirst : ∀ token ∈ first, token ≠ .finish) (innerSecond : ∀ token ∈ second, token ≠ .finish)
    (left : input.Reads (first ++ [Token.finish]) one)
    (right : input.Reads (second ++ [Token.finish]) other) :
    first = second := by
  induction first generalizing input second with
  | nil =>
    cases second with
    | nil => rfl
    | cons token rest => exact absurd (right.1.symm.trans left.1) (innerSecond token (by simp))
  | cons token rest ih =>
    cases second with
    | nil => exact absurd (left.1.symm.trans right.1) (innerFirst token (by simp))
    | cons token' rest' =>
      obtain ⟨seen, next, moved, left⟩ := left
      obtain ⟨seenAgain, again, movedAgain, right⟩ := right
      obtain rfl := moved.unique movedAgain
      have tails := ih (fun other member => innerFirst other (by simp [member]))
        (fun other member => innerSecond other (by simp [member])) left right
      rw [← seen, ← seenAgain, tails]

end Input

namespace Compilation.State

def input (s : State) : Input := ⟨s.lookahead, s.source⟩

end Compilation.State

end OnePass
