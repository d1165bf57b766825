import Mathlib
import OnePass.Proofs.Acceptance
import OnePass.Proofs.Simulation

/-! The code of a compile means what its program means. -/
namespace OnePass

/-- Tokens that compile have a tree, and for each tree that they have, the code ends in a memory
with a print trace if and only if the tree does, whatever values, operators and addresses are. -/
theorem compiled_means_program {session : Session} {tokens : List Located} {compiled : Compiled}
    (accepted : (session.compile (.ofTokens tokens)).1.outcome = .ok compiled) :
    (∃ p : Program, p.Reads tokens) ∧ ∀ p : Program, p.Reads tokens →
      ∀ {Value Address : Type} [DecidableEq Address] (I : Interpretation Value Address)
        (memory final : Address → Value) (trace : List Value),
        p.Executes I ⟨memory, []⟩ ⟨final, trace⟩ ↔
          ∃ index, Machine.Leads I compiled.code.toList ⟨0, [], ⟨memory, []⟩⟩
              ⟨index, [], ⟨final, trace⟩⟩ ∧
            Machine.Finished compiled.code.toList session.options.halting index := by
  refine ⟨Session.exists_reads ⟨compiled, accepted⟩, fun p reads => ?_⟩
  intro Value Address _ I memory final trace
  rw [Session.code_of_reads reads accepted]
  constructor
  · intro executes
    exact ⟨_, Machine.leads_of_program executes, Machine.finished_listing p _ _ _⟩
  · intro reached
    obtain ⟨index, leads, finished⟩ := reached
    obtain ⟨t, executes, same⟩ := Machine.program_of_leads leads (Machine.step_of_finished finished)
    obtain ⟨_, _, rfl⟩ := Machine.Config.mk.inj same
    exact executes

def Interpretation.ofIntegers : Interpretation Int Int where
  integer := id
  real _ := 0
  base _ := 0
  cell := id
  binary
    | .subtract, left, right => left - right
    | _, left, right => left + right
  not value := if value = 0 then 1 else 0
  truth value := value ≠ 0

theorem countdown_prints : ∃ (compiled : Compiled) (final : Int → Int) (index : Nat),
    (({} : Session).compile (.ofTokens Program.countdown.tokens)).1.outcome = .ok compiled ∧
    Machine.Leads .ofIntegers compiled.code.toList ⟨0, [], ⟨fun _ => 2, []⟩⟩
      ⟨index, [], ⟨final, [2, 1]⟩⟩ ∧
    Machine.Finished compiled.code.toList true index := by
  have settled : Program.countdown.body.Undeclaring := trivial
  have accepts : ({} : Session).Accepts (.ofTokens Program.countdown.tokens) :=
    (Session.accepts_iff_of_reads Program.reads_countdown settled).mpr (by decide)
  obtain ⟨compiled, accepted⟩ := accepts
  have first : Program.countdown.Executes .ofIntegers ⟨fun _ => 2, []⟩ ⟨_, [2, 1]⟩ :=
    .cons (.while_true rfl (.block (.cons (.print _ _) (.cons (.ifElse_true rfl (.assign _ _ _))
      (.nil _)))) (.while_true rfl (.block (.cons (.print _ _) (.cons (.ifElse_true rfl
        (.assign _ _ _)) (.nil _)))) (.while_false rfl))) (.nil _)
  obtain ⟨index, leads, finished⟩ := ((compiled_means_program accepted).2 Program.countdown
    Program.reads_countdown .ofIntegers _ _ _).mp first
  exact ⟨compiled, _, index, accepted, leads, finished⟩

end OnePass
