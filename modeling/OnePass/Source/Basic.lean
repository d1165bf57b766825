import OnePass.Source.Cursor

/-! Sources of tokens: a text that is read as it is needed, or tokens given beforehand. -/
namespace OnePass

/-- What a compilation reads from. There are these two kinds and no others, and what is shown of all
sources is shown of the two: both come to their end, which a scanner of another kind need not. -/
inductive Source where
  | text (cursor : Cursor)
  /-- Tokens that are left, and the line of the last one delivered. -/
  | given (rest : List Located) (lastLine : Nat)
  deriving DecidableEq, Repr

namespace Source

def ofText (text : String) : Source := .text (.ofText text)

def ofTokens (tokens : List Located) : Source := .given tokens 1

def line : Source → Nat
  | text cursor => cursor.place.line
  | given _ lastLine => lastLine

/-- How much is left: characters of a text, or tokens. -/
def remaining : Source → Nat
  | text cursor => cursor.rest.length
  | given rest _ => rest.length

/-- Delivers a token or a fault and what is left of the source. Given tokens are
delivered as they stand, an end of input among them included, and the end of input when
none is left. -/
def next : Source → Except Diagnostic Located × Source
  | text cursor =>
    let (result, after) := cursor.next
    (result, text after)
  | given [] lastLine => (.ok ⟨.finish, ⟨lastLine, 1⟩⟩, given [] lastLine)
  | given (token :: rest) _ => (.ok token, given rest token.place.line)

theorem remaining_next_le (source : Source) : (source.next).2.remaining ≤ source.remaining := by
  match source with
  | text cursor => exact cursor.length_rest_next
  | given [] _ => simp [next, remaining]
  | given (_ :: _) _ => simp [next, remaining]

theorem weight_next_le {source after : Source} {token : Located}
    (delivered : source.next = (.ok token, after)) :
    token.weight + after.remaining ≤ source.remaining := by
  have fewer := source.remaining_next_le
  rw [delivered] at fewer
  unfold Located.weight
  split
  · simpa using fewer
  · rename_i inner
    match source with
    | text cursor =>
      simp only [next, Prod.mk.injEq] at delivered
      obtain ⟨result, rfl⟩ := delivered
      rcases cursor.next_progress with ⟨place, atEnd⟩ | progress
      · rw [result] at atEnd
        exact absurd (congrArg Located.token (Except.ok.inj atEnd)) inner
      · simp only [remaining]; omega
    | given [] lastLine =>
      simp only [next, Prod.mk.injEq, Except.ok.injEq] at delivered
      exact absurd (congrArg Located.token delivered.1).symm inner
    | given (head :: rest) _ =>
      simp only [next, Prod.mk.injEq] at delivered
      obtain ⟨_, rfl⟩ := delivered
      simp [remaining]; omega

/-- All tokens up to the end of input, or up to the first fault and that fault. -/
def drain (source : Source) : List Located × Option Diagnostic :=
  match _delivered : source.next with
  | (.ok token, after) =>
    if token.token = .finish then ([token], none)
    else
      let (tokens, fault) := drain after
      (token :: tokens, fault)
  | (.error fault, _) => ([], some fault)
termination_by source.remaining
decreasing_by
  rename_i inner
  have bound := weight_next_le _delivered
  simp [Located.weight, inner] at bound
  omega

theorem drain_of_token {source after : Source} {token : Located}
    (delivered : source.next = (.ok token, after)) (inner : token.token ≠ .finish) :
    source.drain = (token :: after.drain.1, after.drain.2) := by
  rw [drain]
  split <;> simp_all

theorem drain_of_finish {source after : Source} {token : Located}
    (delivered : source.next = (.ok token, after)) (ended : token.token = .finish) :
    source.drain = ([token], none) := by
  rw [drain]
  split <;> simp_all

theorem drain_of_fault {source after : Source} {fault : Diagnostic}
    (delivered : source.next = (.error fault, after)) : source.drain = ([], some fault) := by
  rw [drain]
  split <;> simp_all

end Source

/-- The tokens of a text, the last of which is the end of input. -/
def tokenize (text : String) : Except Diagnostic (List Located) :=
  match (Source.ofText text).drain with
  | (tokens, none) => .ok tokens
  | (_, some fault) => .error fault

end OnePass
