import Mathlib
import OnePass.Proofs.Coordinates

/-! Reading comes to an end. Each call of a cursor passes a character of the text or reports the
end of input, a call that finds a fault included, and the end of input is reported from then on
without a change. Given tokens are delivered one by one, and behind the last of them the end of
input at one place. -/
namespace OnePass

namespace Cursor

/-- The number of characters of a text that are in front of a cursor into it. -/
def offset (cursor : Cursor) (text : String) : Nat := text.length - cursor.rest.length

/-- The next call reports the end of input at a place. -/
def Ends (cursor : Cursor) (place : Position) : Prop := (cursor.next).1 = .ok ⟨.finish, place⟩

theorem rest_called (text : String) (calls : Nat) :
    ((ofText text).called calls).rest =
      text.toList.drop (((ofText text).called calls).offset text) := by
  obtain ⟨front, whole, _⟩ := exists_front text calls
  have length : ((ofText text).called calls).offset text = front.length := by
    rw [offset, ← String.length_toList, whole, List.length_append, Nat.add_sub_cancel]
  rw [length, whole, List.drop_left]

/-- A call that does not report the end of input moves the cursor on. -/
theorem offset_called_succ (text : String) (calls : Nat) :
    (∃ place, ((ofText text).called calls).Ends place) ∨
      ((ofText text).called calls).offset text < ((ofText text).called (calls + 1)).offset text := by
  rcases ((ofText text).called calls).next_progress with ended | shorter
  · exact .inl ended
  · right
    obtain ⟨front, whole, _⟩ := exists_front text calls
    have inside : ((ofText text).called calls).rest.length ≤ text.length := by
      rw [← String.length_toList, whole, List.length_append]
      exact Nat.le_add_left _ _
    rw [called_succ]
    unfold offset
    omega

theorem le_offset_called {text : String} {calls : Nat}
    (before : ∀ earlier < calls, ¬ ∃ place, ((ofText text).called earlier).Ends place) :
    calls ≤ ((ofText text).called calls).offset text := by
  induction calls with
  | zero => exact Nat.zero_le _
  | succ calls ih =>
    have further := ih fun earlier less => before earlier (Nat.lt_succ_of_lt less)
    rcases offset_called_succ text calls with ended | moved
    · exact absurd ended (before calls (Nat.lt_succ_self calls))
    · exact Nat.lt_of_le_of_lt further moved

theorem exists_ends (text : String) :
    ∃ calls ≤ text.length, ∃ place, ((ofText text).called calls).Ends place := by
  by_contra never
  have passed : text.length + 1 ≤ ((ofText text).called (text.length + 1)).offset text := by
    apply le_offset_called
    intro earlier less ended
    exact never ⟨earlier, Nat.le_of_lt_succ less, ended⟩
  have inside : ((ofText text).called (text.length + 1)).offset text ≤ text.length :=
    Nat.sub_le _ _
  omega

theorem next_of_ends_before {cursor : Cursor} {calls later : Nat} {place : Position}
    (ended : (cursor.called calls).Ends place) (after : calls ≤ later) :
    (cursor.called later).next = (.ok ⟨.finish, place⟩, cursor.called (calls + 1)) := by
  have first : (cursor.called calls).next =
      (.ok ⟨.finish, place⟩, cursor.called (calls + 1)) :=
    Prod.ext ended (called_succ cursor calls).symm
  induction later, after using Nat.le_induction with
  | base => exact first
  | succ later _ ih =>
    rw [called_succ, ih]
    exact (next_of_finish first rfl).1

end Cursor

namespace Source

/-- The source after so many calls, whatever they came to. -/
def called (source : Source) (calls : Nat) : Source := (fun s => (s.next).2)^[calls] source

/-- The place of the end of input behind given tokens: the line of the last one, or a given line if
there is none. -/
def endPlace (rest : List Located) (line : Nat) : Position :=
  ⟨(rest.getLast?.map (·.place.line)).getD line, 1⟩

theorem called_nil (line calls : Nat) : (given [] line).called calls = given [] line :=
  Function.iterate_fixed rfl calls

theorem next_called_given (rest : List Located) (line calls : Nat) :
    (((given rest line).called calls).next).1 =
      .ok (rest[calls]?.getD ⟨.finish, endPlace rest line⟩) := by
  induction rest generalizing line calls with
  | nil =>
    rw [called_nil]
    rfl
  | cons token rest ih =>
    have place : endPlace (token :: rest) line = endPlace rest token.place.line := by
      rw [endPlace, endPlace, List.getLast?_cons]
      cases rest.getLast? <;> rfl
    cases calls with
    | zero => rfl
    | succ calls => exact place ▸ ih token.place.line calls

end Source

/-- A call moves a cursor on within its text unless it reports the end of input, which is therefore
reported by one call more than the text has characters, and from then on by every call at the same
place and without moving. Given tokens are followed by the end of input at one place. -/
theorem reading_ends (text : String) (tokens : List Located) :
    (∀ calls, let cursor := (Cursor.ofText text).called calls
      cursor.offset text ≤ text.length ∧ cursor.rest = text.toList.drop (cursor.offset text) ∧
        ((∃ place, cursor.Ends place) ∨ cursor.offset text < (cursor.next).2.offset text)) ∧
      (∃ calls ≤ text.length, ∃ place, ((Cursor.ofText text).called calls).Ends place) ∧
      (∀ calls place, ((Cursor.ofText text).called calls).Ends place →
        ∀ later ≥ calls, ((Cursor.ofText text).called later).next =
          (.ok ⟨.finish, place⟩, (Cursor.ofText text).called (calls + 1))) ∧
      ∀ calls, (((Source.ofTokens tokens).called calls).next).1 =
        .ok (tokens[calls]?.getD ⟨.finish, Source.endPlace tokens 1⟩) := by
  refine ⟨fun calls => ?_, Cursor.exists_ends text, fun calls place ended later after => ?_,
    Source.next_called_given tokens 1⟩
  · have moved := Cursor.offset_called_succ text calls
    rw [Cursor.called_succ] at moved
    exact ⟨Nat.sub_le _ _, Cursor.rest_called text calls, moved⟩
  · exact Cursor.next_of_ends_before ended after

/-- A point that no digit follows is passed as a fault, and the end of input stays behind it. -/
theorem reading_ends_stray :
    (((Cursor.ofText "7.").called 1).next).1 =
      .error (.lexical 1 2 "Unexpected character: '.'") ∧
    ((Cursor.ofText "7.").called 2).Ends ⟨1, 3⟩ ∧
    ((Cursor.ofText "7.").called 9).next =
      (.ok ⟨.finish, ⟨1, 3⟩⟩, (Cursor.ofText "7.").called 3) := by
  have ended : ((Cursor.ofText "7.").called 2).Ends ⟨1, 3⟩ := by
    unfold Cursor.Ends
    decide +kernel
  exact ⟨by decide +kernel, ended, (reading_ends "7." []).2.2.1 2 ⟨1, 3⟩ ended 9 (by decide)⟩

end OnePass
