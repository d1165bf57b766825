import Mathlib
import OnePass.Proofs.Course
import OnePass.Proofs.Delivery

/-! Inputs that begin with the same tokens lead a run through the same course. -/
namespace OnePass

namespace Input

/-- Faults in front of the input are reported with the line of its token. -/
def Sited (i : Input) : Prop := i.line = i.lookahead.place.line

variable {i j k : Input} {passed rest tokens : List Located}

theorem Opens.sited {source : Source} (opens : Opens source i) : i.Sited := by
  have delivered : source.next = (.ok i.lookahead, i.source) := opens
  unfold Sited line
  split
  · rename_i ended
    match source with
    | .text cursor =>
      obtain ⟨result, after⟩ := Prod.mk.inj delivered
      have called : cursor.next = (.ok i.lookahead, cursor.next.2) := Prod.ext result rfl
      rw [← after]
      exact congrArg Position.line (Cursor.next_of_finish called ended).2
    | .given [] line =>
      obtain ⟨result, after⟩ := Prod.mk.inj delivered
      rw [← Except.ok.inj result, ← after]
      rfl
    | .given (token :: rest) line =>
      obtain ⟨result, after⟩ := Prod.mk.inj delivered
      rw [← Except.ok.inj result, ← after]
      rfl
  · rfl

theorem Moves.sited (moved : i.Moves j) : j.Sited := by
  have opens : Opens i.source j := moved
  exact opens.sited

theorem Looks.of_lookahead (same : i.lookahead = j.lookahead) (sited : i.Sited) (there : j.Sited) :
    i.Looks j := by
  refine ⟨congrArg Located.token same, by rw [same], ?_⟩
  rw [sited, there, same]

/-! Given tokens as an input. -/

def given : List Located → Nat → Input
  | [], line => ⟨⟨.finish, ⟨line, 1⟩⟩, .given [] line⟩
  | token :: rest, _ => ⟨token, .given rest token.place.line⟩

theorem opens_given (tokens : List Located) (line : Nat) :
    Opens (.given tokens line) (given tokens line) := by
  cases tokens <;> rfl

theorem sited_given (tokens : List Located) (line : Nat) : (given tokens line).Sited :=
  (opens_given tokens line).sited

theorem moves_given (token : Located) (rest : List Located) (line : Nat) :
    (given (token :: rest) line).Moves (given rest token.place.line) := by
  cases rest <;> rfl

theorem exists_moves_given (tokens : List Located) (line : Nat) :
    ∃ next, (given tokens line).Moves (given tokens.tail next) := by
  cases tokens with
  | nil => exact ⟨line, rfl⟩
  | cons token rest => exact ⟨_, moves_given token rest line⟩

theorem passes_given (first rest : List Located) (line : Nat) :
    ∃ last, (given (first ++ rest) line).Passes first (given rest last) := by
  induction first generalizing line with
  | nil => exact ⟨line, rfl⟩
  | cons token others ih =>
    obtain ⟨last, passes⟩ := ih token.place.line
    exact ⟨last, rfl, _, moves_given token (others ++ rest) line, passes⟩

theorem exists_reads_all (tokens : List Located) (line : Nat) :
    ∃ final, (given tokens line).Reads (tokens.map (·.token)) final := by
  obtain ⟨last, passes⟩ := passes_given tokens [] line
  rw [List.append_nil] at passes
  exact ⟨_, passes.reads⟩

/-- The tokens and the end of input behind them, which is on the line of the last one. -/
def ended (tokens : List Located) (line : Nat) : List Located :=
  tokens ++ [⟨.finish, ⟨(tokens.getLast?.map (·.place.line)).getD line, 1⟩⟩]

theorem ended_cons (token : Located) (rest : List Located) (line : Nat) :
    ended (token :: rest) line = token :: ended rest token.place.line := by
  unfold ended
  rw [List.getLast?_cons, List.cons_append]
  cases rest.getLast? <;> rfl

theorem ended_eq_cons (tokens : List Located) (line : Nat) :
    ∃ rest, ended tokens line = (given tokens line).lookahead :: rest := by
  cases tokens with
  | nil => exact ⟨[], rfl⟩
  | cons token rest => exact ⟨_, ended_cons token rest line⟩

/-- As long as no end of input is passed, what is passed stands at the front of the tokens, and what
is to be passed next stands behind it. -/
theorem Passes.of_given {line : Nat} (passes : (given tokens line).Passes passed k)
    (inner : Token.finish ∉ passed.map (·.token)) :
    ∃ behind, ended tokens line = passed ++ k.lookahead :: behind := by
  induction passed generalizing tokens line with
  | nil =>
    obtain rfl : given tokens line = k := passes
    exact ended_eq_cons tokens line
  | cons first others ih =>
    obtain ⟨seen, j, moved, further⟩ := passes
    cases tokens with
    | nil => simp [← seen, given] at inner
    | cons token rest =>
      obtain rfl : token = first := seen
      obtain rfl := (moves_given token rest line).unique moved
      obtain ⟨behind, whole⟩ := ih further fun member => inner (by simp [member])
      exact ⟨behind, by rw [ended_cons, whole, List.cons_append]⟩

theorem Passes.prefix_given {line : Nat} (passes : (given tokens line).Passes passed k)
    (inner : Token.finish ∉ passed.map (·.token)) (further : k.token ≠ .finish) :
    passed ++ [k.lookahead] <+: tokens := by
  obtain ⟨behind, whole⟩ := passes.of_given inner
  have begins : passed ++ [k.lookahead] <+: ended tokens line := ⟨behind, by simp [whole]⟩
  rcases List.prefix_concat_iff.mp begins with same | inside
  · have last := (List.append_inj' same rfl).2
    exact absurd (congrArg Located.token (List.cons.inj last).1) further
  · exact inside

end Input

namespace Compilation.Reaches

variable {tasks others : List Task} {s t : State} {passed : List Located} {i k : Input}

theorem sited (reaches : Reaches tasks s passed others t) (sited : s.input.Sited) :
    t.input.Sited := by
  induction reaches with
  | refl => exact sited
  | stay steps _ ih =>
    have still : _ = _ := steps.proceeds
    exact ih (still ▸ sited)
  | pass steps _ ih => exact ih (Input.Moves.sited steps.proceeds)

theorem resembles (reaches : Reaches tasks s passed others t) (passes : i.Passes passed k)
    (same : k.Resembles false t.input) (sited : s.input.Sited) (there : i.Sited) :
    i.Resembles false s.input := by
  induction reaches with
  | refl =>
    obtain rfl : i = k := passes
    exact same
  | stay steps _ ih =>
    have still : _ = _ := steps.proceeds
    rw [still] at sited ⊢
    exact ih passes same sited
  | pass steps _ _ => exact .inl (.of_lookahead passes.1 there sited)

/-- On another input that begins with the tokens passed, and goes on with a token of the same looks
or with another name, a run comes to the same tasks. -/
theorem run_facing (reaches : Reaches tasks s passed others t) (passes : i.Passes passed k)
    (same : k.Resembles false t.input) (sited : s.input.Sited) (there : i.Sited) :
    run tasks (s.facing i) = run others (t.facing k) := by
  induction reaches generalizing i with
  | refl =>
    obtain rfl : i = k := passes
    rfl
  | @stay task rest s names parts middle passed others t steps further ih =>
    -- a step that passes nothing may look at the first token behind those passed
    have reaches : Reaches (task :: rest) s passed others t := .stay steps further
    have alike := reaches.resembles passes same sited there
    rw [run_cons_ok rest (steps.alike i i alike rfl)]
    have still : s.input = middle.input := steps.proceeds
    exact ih passes same (still ▸ sited) there
  | @pass task rest s names parts middle passed others t steps further ih =>
    obtain ⟨seen, j, moved, behind⟩ := passes
    have looks : i.Looks s.input := .of_lookahead seen there sited
    rw [run_cons_ok rest (steps.alike i j (.inl looks) moved)]
    exact ih behind same (Input.Moves.sited steps.proceeds) moved.sited

end Compilation.Reaches

end OnePass
