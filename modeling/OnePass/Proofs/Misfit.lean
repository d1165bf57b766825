import Mathlib
import OnePass.Proofs.Replay

/-! Where a fault with the tokens is found: at the first token behind which no sentence of the
grammar can follow. What stands in front of it begins a sentence, since all tasks that are left can
be completed. With it nothing does, since a sentence would lead a run through the same course to the
same fault, and no run finds a fault with the tokens of a sentence. -/
namespace OnePass

/-- Tokens that begin a sentence of the grammar, or are one with the end of input behind it. -/
def Viable (tokens : List Token) : Prop :=
  ∃ p : Program, tokens <+: p.spelling ++ [Token.finish]

namespace Viable

variable {tokens : List Token}

theorem eq_of_finish (viable : Viable tokens) (ended : Token.finish ∈ tokens) :
    ∃ p : Program, tokens = p.spelling ++ [Token.finish] := by
  obtain ⟨p, begins⟩ := viable
  rcases List.prefix_concat_iff.mp begins with whole | inside
  · exact ⟨p, whole⟩
  · exact absurd (inside.mem ended) p.finish_notMem

theorem exists_sentence (viable : Viable tokens) (unended : Token.finish ∉ tokens) :
    ∃ p : Program, tokens <+: p.spelling := by
  obtain ⟨p, begins⟩ := viable
  rcases List.prefix_concat_iff.mp begins with rfl | inside
  · simp at unended
  · exact ⟨p, inside⟩

end Viable

namespace Compilation

variable {halting : Bool} {labels : LabelSupply} {input final : Input} {p : Program}
  {fault : Diagnostic} {after s t : State} {passed : List Located} {task : Task}
  {others : List Task}

/-- A sentence of the grammar may fail to compile, but not for its tokens. -/
theorem isSyntactic_of_reads (reads : input.Reads (p.spelling ++ [Token.finish]) final)
    (failed : program halting (.opening labels input) = .error fault after) :
    fault.isSyntactic = false := by
  obtain ⟨near, spelled, nearest⟩ := p.exists_nearest
  obtain ⟨q, settles⟩ := near.exists_settles
  rw [← spelled, ← settles.spelling] at reads
  have yields : Yields (Task.program halting) [] (.opening labels input) final
      (q.contribution halting labels) :=
    yields_program halting q settles.undeclaring (settles.nearest nearest) reads
  by_cases admitted : Admits (.opening labels input) (q.contribution halting labels)
  · obtain ⟨events, reached⟩ := yields.1 admitted
    cases failed.symm.trans (reached.trans (run_nil _))
  · obtain ⟨cause, stopped, refused, other⟩ := yields.2 admitted
    obtain ⟨rfl, _⟩ := EStateM.Result.error.inj (failed.symm.trans refused)
    exact other

theorem Reaches.viable (reaches : Reaches (Task.program halting) s passed others t) :
    Viable (passed.map (·.token)) := by
  obtain ⟨w, completes⟩ := Task.exists_mem_languageAll others
  obtain ⟨p, spelled⟩ := Task.mem_program (reaches.mem_languageAll completes)
  exact ⟨p, w, spelled⟩

/-- A token behind a course that begins a production of the next task is fine, whatever comes of
performing the task. -/
theorem Reaches.viable_expands {token : Token} {names : List String} {parts : List Task}
    (reaches : Reaches (Task.program halting) s passed (task :: others) t)
    (expands : task.Expands token true names parts) :
    Viable (passed.map (·.token) ++ [token]) := by
  obtain ⟨w, inside⟩ := Task.exists_mem_languageAll parts
  obtain ⟨v, behind⟩ := Task.exists_mem_languageAll others
  have whole := Task.mem_languageAll_cons.mpr ⟨_, expands.mem_language inside, v, behind, rfl⟩
  obtain ⟨p, spelled⟩ := Task.mem_program (reaches.mem_languageAll whole)
  exact ⟨p, w ++ v, by simpa using spelled⟩

theorem Reaches.not_viable {source : Source} (opens : Input.Opens source input)
    (reaches : Reaches (Task.program halting) (.opening labels input) passed (task :: others) t)
    (failed : task.perform t = .error fault after) (blamed : fault.isSyntactic = true) :
    ¬ Viable (passed.map (·.token) ++ [t.lookahead.token]) := by
  intro viable
  obtain ⟨p, suffix, whole⟩ := viable
  -- places do not matter to what a sentence is, so its rest may stand anywhere
  let behind : List Located := suffix.map fun token => ⟨token, {}⟩
  have spelled : (passed ++ t.lookahead :: behind).map (·.token) =
      p.spelling ++ [Token.finish] := by
    rw [← whole]
    simp [behind, Function.comp_def]
  obtain ⟨last, passes⟩ := Input.passes_given passed (t.lookahead :: behind) 1
  obtain ⟨final, reads⟩ := Input.exists_reads_all (passed ++ t.lookahead :: behind) 1
  rw [spelled] at reads
  have sited : t.input.Sited := reaches.sited opens.sited
  have there : (Input.given (t.lookahead :: behind) last).Sited := Input.sited_given _ _
  have looks : (Input.given (t.lookahead :: behind) last).Looks t.input :=
    .of_lookahead rfl there sited
  have replayed := reaches.run_facing passes (.inl looks) opens.sited (Input.sited_given _ _)
  rcases blames_of_perform failed with lexical | ⟨_, _, alike⟩
  · have lexical := Source.isLexical_of_next lexical
    cases fault <;> simp [Diagnostic.isSyntactic, Diagnostic.isLexical] at blamed lexical
  · obtain ⟨stopped, again⟩ := alike _ _ looks (Input.moves_given t.lookahead behind last)
    have refused : program halting (.opening labels (.given _ 1)) = .error fault _ :=
      replayed.trans (run_cons_error others again)
    have other := isSyntactic_of_reads reads refused
    rw [blamed] at other
    cases other

theorem unexpected_of_perform {line : Nat} {expected found : String}
    (failed : task.perform t = .error (.unexpected line expected found) after) :
    line = t.input.line ∧ found = t.input.token.description := by
  rcases blames_of_perform failed with lexical | ⟨blames, _⟩
  · cases Source.isLexical_of_next lexical
  · cases blames
    exact ⟨rfl, rfl⟩

end Compilation

namespace Session

variable {session : Session} {source : Source} {input : Input} {fault : Diagnostic}

theorem program_of_error (opens : Input.Opens source input)
    (failed : (session.compile source).1.outcome = .error fault) :
    ∃ after, Compilation.program session.options.halting (.opening session.labels input) =
      .error fault after := by
  cases done : Compilation.program session.options.halting (.opening session.labels input) with
  | ok value final =>
    rw [compile_of_ok opens done] at failed
    cases failed
  | error cause after =>
    obtain rfl := Except.error.inj ((compile_of_error opens done).symm.trans failed)
    exact ⟨after, rfl⟩

/-- A fault with the tokens is reported at the first token with which they no longer begin a
sentence, by its line and its description. -/
theorem unexpected_at_misfit (session : Session) (tokens : List Located) {line : Nat}
    {expected found : String}
    (failed : (session.compile (.ofTokens tokens)).1.outcome =
      .error (.unexpected line expected found)) :
    ∃ k misfit, (Input.ended tokens 1)[k]? = some misfit ∧
      Viable (((Input.ended tokens 1).take k).map (·.token)) ∧
      ¬ Viable (((Input.ended tokens 1).take (k + 1)).map (·.token)) ∧
      line = misfit.place.line ∧ found = misfit.token.description := by
  have opens := Input.opens_given tokens 1
  obtain ⟨after, stopped⟩ := program_of_error opens failed
  obtain ⟨passed, task, others, t, last, reaches, refused⟩ :=
    Compilation.exists_reaches_of_error stopped
  -- past the end of input a whole sentence would have been read, which has no such fault
  have unended : Token.finish ∉ passed.map (·.token) := by
    intro ended
    obtain ⟨p, spelled⟩ := reaches.viable.eq_of_finish ended
    have other := Compilation.isSyntactic_of_reads (spelled ▸ reaches.passes.reads) stopped
    cases other
  obtain ⟨behind, whole⟩ := reaches.passes.of_given unended
  have front : (Input.ended tokens 1).take passed.length = passed := by rw [whole, List.take_left]
  have misfit : (Input.ended tokens 1)[passed.length]? = some t.lookahead := by
    rw [whole, List.getElem?_append_right le_rfl, Nat.sub_self]
    rfl
  have further : (Input.ended tokens 1).take (passed.length + 1) = passed ++ [t.lookahead] := by
    rw [List.take_add_one, front, misfit]
    rfl
  refine ⟨passed.length, t.lookahead, misfit, ?_, ?_, ?_⟩
  · rw [front]
    exact reaches.viable
  · rw [further, List.map_append]
    exact reaches.not_viable opens refused rfl
  · obtain ⟨rfl, rfl⟩ := Compilation.unexpected_of_perform refused
    exact ⟨reaches.sited opens.sited, rfl⟩

/-- `void main { int a[0]; }`, with the size on a line of its own -/
def emptyArray : List Located :=
  [⟨.mark .void, {}⟩, ⟨.mark .main, {}⟩, ⟨.mark .openBrace, {}⟩, ⟨.mark .int, {}⟩, ⟨.name "a", {}⟩,
    ⟨.mark .openBracket, {}⟩, ⟨.integer 0, ⟨2, 1⟩⟩, ⟨.mark .closeBracket, ⟨3, 1⟩⟩,
    ⟨.mark .semicolon, ⟨3, 2⟩⟩, ⟨.mark .closeBrace, ⟨3, 3⟩⟩]

theorem unexpected_at_size :
    (({} : Session).compile (.ofTokens emptyArray)).1.outcome =
      .error (.unexpected 2 "positive array size" "integer literal 0") ∧
    ∃ k misfit, (Input.ended emptyArray 1)[k]? = some misfit ∧
      Viable (((Input.ended emptyArray 1).take k).map (·.token)) ∧
      ¬ Viable (((Input.ended emptyArray 1).take (k + 1)).map (·.token)) ∧
      2 = misfit.place.line ∧ "integer literal 0" = misfit.token.description := by
  have failed : (({} : Session).compile (.ofTokens emptyArray)).1.outcome =
      .error (.unexpected 2 "positive array size" "integer literal 0") := by cbv
  exact ⟨failed, unexpected_at_misfit {} emptyArray failed⟩

end Session

end OnePass
