import Mathlib
import OnePass.Proofs.Acceptance

/-! One pass gives what two passes would: the code that a compilation emits while it reads is the
code of the tree that was read. -/
namespace OnePass

/-- Tokens that compile have a tree, and for each tree that they have, the code of the compile is
that of the tree and its labels are the first ones of the supply. -/
theorem compiled_eq_translation {tokens : List Located} {stem : String} {first : Nat}
    {halting : Bool} {initial final : Compilation.State}
    (started : Compilation.start (.ofTokens tokens) ⟨stem, first⟩ = .ok initial)
    (done : Compilation.program halting initial = .ok () final) :
    (∃ p : Program, p.Reads tokens) ∧ ∀ p : Program, p.Reads tokens →
      final.code.toList = p.listing stem halting first ∧
        final.labels = ⟨stem, first + p.labelCount⟩ := by
  obtain ⟨input, last, opens, given⟩ := Compilation.exists_opens_given tokens
  have opening := Compilation.start_of_opens opens ⟨stem, first⟩
  obtain rfl := Except.ok.inj (started.symm.trans opening)
  constructor
  · obtain ⟨p, nearest, reads⟩ := Compilation.exists_program done
    exact ⟨p, Program.reads_of_input nearest reads given⟩
  · intro p reads
    exact Compilation.program_eq_listing reads.nearest (reads.input given) done

theorem compiled_countdown : ∃ initial final,
    Compilation.start (.ofTokens Program.countdown.tokens) ⟨"L", 5⟩ = .ok initial ∧
    Compilation.program true initial = .ok () final ∧
    final.code.toList =
      [.label ⟨"L", 5⟩, .push (.name "n"), .load, .goFalse ⟨"L", 6⟩,
        .push (.name "n"), .load, .print, .push (.name "n"), .load, .goFalse ⟨"L", 7⟩,
        .push (.name "n"), .push (.name "n"), .load, .push (.integer 1), .binary .subtract, .store,
        .goto ⟨"L", 8⟩, .label ⟨"L", 7⟩, .push (.name "n"), .push (.integer 0), .store,
        .label ⟨"L", 8⟩, .goto ⟨"L", 5⟩, .label ⟨"L", 6⟩, .halt] ∧
    final.labels = ⟨"L", 9⟩ := by
  obtain ⟨input, last, opens, given⟩ := Compilation.exists_opens_given Program.countdown.tokens
  have started := Compilation.start_of_opens opens ⟨"L", 5⟩
  have accepted : Scoped [] Program.countdown.mentions ∧
      Program.countdown.nesting ≤ Compilation.maxNesting := by decide
  have settled : Program.countdown.body.Undeclaring := trivial
  obtain ⟨final, done⟩ := (Compilation.program_ok_iff settled Program.reads_countdown.nearest
    (Program.reads_countdown.input given)).mpr accepted
  have equal := (compiled_eq_translation started done).2 _ Program.reads_countdown
  exact ⟨_, final, started, done, equal⟩

end OnePass
