import Mathlib
import OnePass.Proofs.Misfit
import OnePass.Proofs.Naming

/-! Which names are reported. Up to a name, a run depends on nothing but the tokens in front of it
and that a name is there. So it comes to the same task, with the same names known, whatever the name
is and whatever follows. A use is reported at once. A declarator is reported at once if it is one of
a scalar, but that of an array only behind a whole size. -/
namespace OnePass

theorem Input.Passes.prefix_or {i j k : Input} {first second : List Located}
    (one : i.Passes first j) (other : i.Passes second k) : first <+: second ∨ second <+: first := by
  induction first generalizing i second with
  | nil => exact .inl List.nil_prefix
  | cons token rest ih =>
    cases second with
    | nil => exact .inr List.nil_prefix
    | cons token' rest' =>
      obtain ⟨seen, next, moved, one⟩ := one
      obtain ⟨seen', next', moved', other⟩ := other
      obtain rfl := moved.unique moved'
      obtain rfl : token = token' := seen.symm.trans seen'
      simp only [List.cons_prefix_cons, true_and]
      exact ih one other

namespace Compilation

variable {halting : Bool} {labels : LabelSupply} {tokens : List Located} {final : State}
  {p : Program} {u v : List Token} {token : Token}

/-- A run that succeeds comes past each token of what it has read. -/
theorem exists_reaches_at
    (done : program halting (.opening labels (.given tokens 1)) = .ok () final)
    (spelled : p.spelling = sentence tokens) (whole : p.spelling = u ++ token :: v) :
    ∃ task rest t names parts after, (tokens.take u.length).map (·.token) = u ∧
      Reaches (Task.program halting) (.opening labels (.given tokens 1)) (tokens.take u.length)
        (task :: rest) t ∧
      Steps task t true names parts after ∧ t.input.token = token := by
  obtain ⟨passed, reaches⟩ := exists_reaches_of_ok done
  obtain ⟨q, ended⟩ :=
    Task.mem_program (reaches.mem_languageAll (Task.mem_languageAll_nil.mpr rfl))
  rw [List.append_nil] at ended
  obtain ⟨behind, all⟩ : u ++ token :: v <+: tokens.map (·.token) := by
    rw [← whole, spelled]
    exact List.takeWhile_prefix _
  rw [List.append_assoc, eq_comm, List.map_eq_append_iff] at all
  obtain ⟨front, others, rfl, rfl, later⟩ := all
  obtain ⟨located, rest, rfl, rfl, _⟩ := List.map_eq_cons_iff.mp later
  obtain ⟨last, passes⟩ := Input.passes_given (front ++ [located]) rest 1
  rw [List.append_assoc, List.singleton_append] at passes
  -- the run has passed the end of input, and that is not among the tokens of a tree
  have inside : front ++ [located] <+: passed := by
    refine (passes.prefix_or reaches.passes).resolve_right fun shorter => ?_
    have finish : Token.finish ∈ passed.map (·.token) := by
      rw [ended]
      simp
    have within : (front ++ [located]).map (·.token) <+: p.spelling := ⟨v, by simp [whole]⟩
    exact p.finish_notMem (((shorter.map _).trans within).mem finish)
  obtain ⟨second, rfl⟩ := inside
  rw [List.append_assoc, List.singleton_append] at reaches
  obtain ⟨task, left, t, names, parts, after, before, steps, seen, _⟩ := reaches.split
  rw [List.length_map, List.take_left]
  exact ⟨task, left, t, names, parts, after, rfl, before, steps, congrArg Located.token seen⟩

/-- Whatever name stands at a place where there is one, and whatever follows, a run comes to the
task that passes it, with the names known that are declared in front of it. -/
theorem exists_task_at {i : Nat} {mention : Mention}
    (done : program halting (.opening labels (.given tokens 1)) = .ok () final)
    (spelled : p.spelling = sentence tokens) (found : p.mentionAt i = some mention) :
    ∃ (task : Task) (rest : List Task) (t : State) (awaited : List String) (name : String)
        (names : List String) (parts : List Task),
      Task.Poised mention.naming.1 awaited (task :: rest) ∧
      task.Expands (.name name) true names parts ∧
      (∀ known, known ∈ t.symbols.names ∨ known ∈ awaited ↔
        known ∈ declaredNames (p.mentionsBefore i)) ∧
      ∀ (other : Located) (text : String) (behind : List Located), other.token = .name text →
        ∃ last, program halting (.opening labels (.given (tokens.take i ++ other :: behind) 1)) =
          run (task :: rest) (t.facing (.given (other :: behind) last)) := by
  obtain ⟨u, name, v, whole, rfl⟩ := p.exists_name_of_mentionAt found
  obtain ⟨task, rest, t, names, parts, after, taken, reaches, steps, seen⟩ :=
    exists_reaches_at done spelled whole
  obtain ⟨awaited, poised, known⟩ := reaches.poised (Task.poised_program halting)
  rw [taken] at poised known
  have classified := p.mentionAt_name whole
  rw [found] at classified
  have declares : mention.naming = _ := Option.some.inj classified
  refine ⟨task, rest, t, awaited, name, names, parts, ?_, seen ▸ steps.expands, fun text => ?_, ?_⟩
  · rw [declares]
    exact poised
  · rw [known text, p.mem_declaredNames_before text whole]
    simp [State.opening, SymbolTable.names, SymbolTable.empty]
  · intro other text behind named
    obtain ⟨last, passes⟩ := Input.passes_given (tokens.take u.length) (other :: behind) 1
    have names : (Input.given (other :: behind) last).Resembles false t.input :=
      .inr ⟨rfl, text, name, named, seen⟩
    exact ⟨last, reaches.run_facing passes names (Input.sited_given _ _) (Input.sited_given _ _)⟩

variable {s : State} (rest : List Task) (type : Scalar) (name : String) (line : Nat) {next : Input}

theorem run_use {task : Task} (either : task = .statement ∨ task = .operand)
    (seen : s.input.token = .name name) (moved : s.input.Moves next)
    (unknown : name ∉ s.symbols.names) :
    ∃ after, run (task :: rest) s = .error (.undeclared s.lookahead.place.line name) after := by
  have passed := advance_of_moves moved
  have refused := pushName_of_unknown (s := s.facing next) s.lookahead.place.line unknown
  rcases either with rfl | rfl
  · have stepped := (perform_statement seen).trans (bind_of_ok passed)
    exact ⟨_, run_cons_error rest (stepped.trans (bind_of_error refused))⟩
  · have stepped := (perform_operand seen).trans (bind_of_ok passed)
    exact ⟨_, run_cons_error rest (stepped.trans (bind_of_error refused))⟩

theorem run_declarator (seen : s.input.token = .name name) (moved : s.input.Moves next) :
    run (.declarator type :: rest) s =
      run (.declared type name s.lookahead.place.line :: rest) (s.facing next) := by
  have done : (Task.declarator type).perform s =
      .ok [.declared type name s.lookahead.place.line] (s.facing next) := by
    change Task.onDeclarator type s.lookahead.place.line s.input.token s = _
    rw [seen]
    exact bind_of_ok (advance_of_moves moved)
  exact run_cons_ok rest done

theorem run_declared_of_known (known : name ∈ s.symbols.names)
    (other : s.input.token ≠ .mark .openBracket) :
    ∃ after, run (.declared type name line :: rest) s = .error (.redeclared line name) after := by
  have refused := @declare_of_known s ⟨name, .scalar type⟩ line known
  have failed : (Task.declared type name line).perform s = .error (.redeclared line name) s := by
    change Task.onDeclared type name line s.input.token s = _
    generalize s.input.token = token at other
    fun_cases Task.onDeclared type name line token
    · contradiction
    · exact bind_of_error refused
    · exact bind_of_error refused
  exact ⟨_, run_cons_error rest failed⟩

theorem run_declared_size (seen : s.input.token = .mark .openBracket) (moved : s.input.Moves next) :
    run (.declared type name line :: rest) s =
      run (.arraySize type name line :: rest) (s.facing next) := by
  have done : (Task.declared type name line).perform s =
      .ok [.arraySize type name line] (s.facing next) := by
    change Task.onDeclared type name line s.input.token s = _
    rw [seen]
    exact bind_of_ok (advance_of_moves moved)
  exact run_cons_ok rest done

theorem run_arraySize (moved : s.input.Moves next) :
    (∃ size, 0 < size ∧ s.input.token = .integer size ∧
      run (.arraySize type name line :: rest) s =
        run (.pass .closeBracket :: .declareArray type name line size.toNat :: rest)
          (s.facing next)) ∨
    (∀ size, 0 < size → s.input.token ≠ .integer size) ∧ ∃ fault after,
      run (.arraySize type name line :: rest) s = .error fault after ∧ fault.isSyntactic = true := by
  have stepped : (Task.arraySize type name line).perform s =
      Task.onArraySize type name line s.line s.input.token s := rfl
  generalize s.input.token = token at stepped ⊢
  revert stepped
  fun_cases Task.onArraySize type name line s.line token
  case case1 size =>
    intro stepped
    have passed := stepped.trans (bind_of_ok (advance_of_moves moved))
    by_cases positive : 0 < size
    · rw [if_pos positive] at passed
      exact .inl ⟨size, positive, rfl, run_cons_ok rest passed⟩
    · rw [if_neg positive] at passed
      refine .inr ⟨?_, _, _, run_cons_error rest passed, rfl⟩
      intro other greater same
      cases same
      exact positive greater
  case case2 other =>
    intro stepped
    exact .inr ⟨fun size _ same => other size same, _, _, run_cons_error rest stepped, rfl⟩

theorem run_pass (mark : Mark) (moved : s.input.Moves next) :
    (s.input.token = .mark mark ∧ run (.pass mark :: rest) s = run rest (s.facing next)) ∨
    s.input.token ≠ .mark mark ∧ ∃ fault after,
      run (.pass mark :: rest) s = .error fault after ∧ fault.isSyntactic = true := by
  have stepped : (Task.pass mark).perform s =
      ((if s.input.token.kind = .mark mark then advance
        else unexpected (Kind.mark mark).description) >>= fun _ => pure []) s := rfl
  by_cases seen : s.input.token = .mark mark
  · rw [if_pos (Token.kind_eq_mark_iff.mpr seen), bind_of_ok (advance_of_moves moved)] at stepped
    exact .inl ⟨seen, run_cons_ok rest stepped⟩
  · rw [if_neg (mt Token.kind_eq_mark_iff.mp seen)] at stepped
    exact .inr ⟨seen, _, _, run_cons_error rest stepped, rfl⟩

theorem run_declareArray_of_known (size : Nat) (known : name ∈ s.symbols.names) :
    ∃ after, run (.declareArray type name line size :: rest) s =
      .error (.redeclared line name) after := by
  have refused := @declare_of_known s ⟨name, .array type size⟩ line known
  have failed : (Task.declareArray type name line size).perform s =
      .error (.redeclared line name) s := (bind_of_ok get_eq).trans (bind_of_error refused)
  exact ⟨_, run_cons_error rest failed⟩

end Compilation

namespace Declarator

/-- A whole size of an array, with the bracket behind it. -/
def closesSize : List Token → Bool
  | .integer size :: .mark .closeBracket :: _ => decide (0 < size)
  | _ => false

/-- Whether what follows the name in a declarator gets the name entered: all that begins no size,
and a whole size. -/
def enters : List Token → Bool
  | .mark .openBracket :: rest => closesSize rest
  | _ => true

theorem closesSize_iff (behind : List Located) (here next : Nat) :
    closesSize (behind.map (·.token)) = true ↔
      (∃ size, 0 < size ∧ (Input.given behind here).token = .integer size) ∧
        (Input.given behind.tail next).token = .mark .closeBracket := by
  constructor
  · intro whole
    unfold closesSize at whole
    split at whole
    · rename_i size _ same
      obtain ⟨first, others, rfl, sized, rest⟩ := List.map_eq_cons_iff.mp same
      obtain ⟨second, _, rfl, closed, _⟩ := List.map_eq_cons_iff.mp rest
      exact ⟨⟨size, of_decide_eq_true whole, sized⟩, closed⟩
    · cases whole
  · intro whole
    obtain ⟨⟨size, positive, sized⟩, closed⟩ := whole
    match behind with
    | [] => cases sized
    | [first] => cases closed
    | first :: second :: _ =>
      obtain ⟨_, place⟩ := first
      obtain ⟨_, place'⟩ := second
      obtain rfl : _ = Token.integer size := sized
      obtain rfl : _ = Token.mark .closeBracket := closed
      exact decide_eq_true positive

theorem enters_of_open {behind : List Located} {here : Nat}
    (opened : (Input.given behind here).token = .mark .openBracket) :
    enters (behind.map (·.token)) = closesSize (behind.tail.map (·.token)) := by
  cases behind with
  | nil => cases opened
  | cons first others =>
    have same : first.token = .mark .openBracket := opened
    rw [List.map_cons, same]
    rfl

theorem enters_of_other {behind : List Located} {here : Nat}
    (other : (Input.given behind here).token ≠ .mark .openBracket) :
    enters (behind.map (·.token)) = true := by
  cases behind with
  | nil => rfl
  | cons first others =>
    rw [List.map_cons]
    unfold enters
    split
    · rename_i same
      exact absurd (List.cons.inj same).1 other
    · rfl

end Declarator

namespace Compilation

variable {s : State} (rest : List Task) (type : Scalar) {name : String}

/-- Behind a bracket, a name that is known is reported exactly if a whole size follows. -/
theorem run_arraySize_of_known (line : Nat) (known : name ∈ s.symbols.names)
    (behind : List Located) (here : Nat) :
    ∃ fault after, run (.arraySize type name line :: rest) (s.facing (.given behind here)) =
        .error fault after ∧
      if Declarator.closesSize (behind.map (·.token)) then fault = .redeclared line name
      else fault.isSyntactic = true := by
  obtain ⟨there, moved⟩ := Input.exists_moves_given behind here
  obtain ⟨last, left⟩ := Input.exists_moves_given behind.tail there
  have closes := Declarator.closesSize_iff behind here there
  rcases run_arraySize (s := s.facing (.given behind here)) rest type name line moved with
    ⟨size, positive, sized, reached⟩ | ⟨other, failed⟩
  · let declaring := Task.declareArray type name line size.toNat :: rest
    rcases run_pass (s := s.facing (.given behind.tail there)) declaring .closeBracket left with
      ⟨closed, entered⟩ | ⟨unclosed, failed⟩
    · obtain ⟨after, refused⟩ := run_declareArray_of_known
        (s := s.facing (.given behind.tail.tail last)) rest type name line size.toNat known
      refine ⟨_, after, reached.trans (entered.trans refused), ?_⟩
      rw [if_pos (closes.mpr ⟨⟨size, positive, sized⟩, closed⟩)]
    · obtain ⟨fault, after, refused, blamed⟩ := failed
      refine ⟨fault, after, reached.trans refused, ?_⟩
      rwa [if_neg fun whole => unclosed (closes.mp whole).2]
  · obtain ⟨fault, after, refused, blamed⟩ := failed
    refine ⟨fault, after, refused, ?_⟩
    rwa [if_neg fun whole => ?_]
    obtain ⟨⟨size, positive, sized⟩, _⟩ := closes.mp whole
    exact other size positive sized

theorem run_declarator_of_known (known : name ∈ s.symbols.names) (place : Position)
    (behind : List Located) (here : Nat) :
    ∃ fault after, run (.declarator type :: rest)
        (s.facing (.given (⟨.name name, place⟩ :: behind) here)) = .error fault after ∧
      if Declarator.enters (behind.map (·.token)) then fault = .redeclared place.line name
      else fault.isSyntactic = true := by
  have passed := run_declarator (s := s.facing (.given (⟨.name name, place⟩ :: behind) here))
    rest type name rfl (Input.moves_given _ behind here)
  by_cases opened : (Input.given behind place.line).token = .mark .openBracket
  · obtain ⟨there, moved⟩ := Input.exists_moves_given behind place.line
    obtain ⟨fault, after, refused, found⟩ :=
      run_arraySize_of_known rest type place.line known behind.tail there
    have begun := run_declared_size (s := s.facing (.given behind place.line))
      rest type name place.line opened moved
    refine ⟨fault, after, passed.trans (begun.trans refused), ?_⟩
    rwa [Declarator.enters_of_open opened]
  · obtain ⟨after, refused⟩ := run_declared_of_known (s := s.facing (.given behind place.line))
      rest type name place.line known opened
    refine ⟨_, after, passed.trans refused, ?_⟩
    rw [if_pos (Declarator.enters_of_other opened)]

end Compilation

theorem Mention.eq_uses {mention : Mention} {name : String}
    (same : mention.naming = (false, name)) : mention = .uses name := by
  cases mention with
  | declares entry => cases congrArg Prod.fst same
  | uses text => exact congrArg uses (congrArg Prod.snd same)

namespace Compilation

variable {halting : Bool} {s t after : State} {passed : List Located} {task : Task}
  {others : List Task} {line : Nat} {name : String}

theorem use_of_undeclared (failed : task.perform t = .error (.undeclared line name) after) :
    t.input.token = .name name ∧ t.lookahead.place.line = line ∧ name ∉ t.symbols.names ∧
      ∃ names parts, task.Expands (.name name) true names parts ∧
        ∀ type, task ≠ .declarator type := by
  rcases blames_of_perform failed with lexical | ⟨blames, unknown, _⟩
  · cases Source.isLexical_of_next lexical
  · cases blames with
    | target seen => exact ⟨seen, rfl, unknown _ _ rfl, _, _, .assignment, nofun⟩
    | operand seen => exact ⟨seen, rfl, unknown _ _ rfl, _, _, .name, nofun⟩

end Compilation

namespace Session

open Compilation

variable {session : Session} {tokens behind : List Located} {p : Program} {i line : Nat}
  {used name : String} {place : Position}

theorem undeclared_of_use (accepted : session.Accepts (.ofTokens tokens))
    (spelled : p.spelling = sentence tokens) (found : p.mentionAt i = some (.uses used))
    (undeclared : name ∉ declaredNames (p.mentionsBefore i)) :
    (session.compile (.ofTokens (tokens.take i ++ ⟨.name name, place⟩ :: behind))).1.outcome =
      .error (.undeclared place.line name) := by
  obtain ⟨final, done⟩ := (accepts_iff_program (Input.opens_given tokens 1)).mp accepted
  obtain ⟨task, rest, t, awaited, _, _, _, poised, expands, known, comes⟩ :=
    exists_task_at done spelled found
  obtain ⟨rfl, either⟩ := poised.eq_of_use expands
  have unknown : name ∉ t.symbols.names := fun member => undeclared ((known name).mp (.inl member))
  obtain ⟨last, reached⟩ := comes ⟨.name name, place⟩ name behind rfl
  obtain ⟨after, failed⟩ := run_use (s := t.facing (.given (⟨.name name, place⟩ :: behind) last))
    rest name either rfl (Input.moves_given _ behind last) unknown
  exact compile_of_error (Input.opens_given _ 1) (reached.trans failed)

theorem exists_use_of_undeclared
    (refused : (session.compile (.ofTokens tokens)).1.outcome = .error (.undeclared line name)) :
    ∃ k place, tokens[k]? = some ⟨.name name, place⟩ ∧ place.line = line ∧
      (∃ p : Program, (tokens.take (k + 1)).map (·.token) <+: p.spelling) ∧
      ∀ p : Program, (tokens.take (k + 1)).map (·.token) <+: p.spelling →
        p.mentionAt k = some (.uses name) ∧ name ∉ declaredNames (p.mentionsBefore k) := by
  obtain ⟨after, stopped⟩ := program_of_error (Input.opens_given tokens 1) refused
  obtain ⟨passed, task, others, t, last, reaches, failed⟩ := exists_reaches_of_error stopped
  obtain ⟨seen, here, unknown, names, parts, expands, plain⟩ := use_of_undeclared failed
  obtain ⟨awaited, poised, known⟩ := reaches.poised (Task.poised_program session.options.halting)
  have uses : opening false (passed.map (·.token)) = false := by
    refine Bool.eq_false_iff.mpr fun declares => ?_
    rw [declares] at poised
    obtain ⟨_, type, same⟩ := poised.eq_of_declarator
    exact plain type same
  rw [uses] at poised
  obtain ⟨rfl, _⟩ := poised.eq_of_use expands
  have unended : Token.finish ∉ passed.map (·.token) ++ [.name name] := by
    intro member
    obtain ⟨p, whole⟩ := (reaches.viable_expands expands).eq_of_finish member
    cases (List.append_inj' whole rfl).2
  have inner : Token.finish ∉ passed.map (·.token) := fun member => unended (by simp [member])
  obtain ⟨rest, whole⟩ := reaches.passes.prefix_given inner (by rw [seen]; nofun)
  have there : t.input.lookahead = ⟨.name name, t.lookahead.place⟩ := by
    rw [← seen]
    rfl
  have front : (tokens.take (passed.length + 1)).map (·.token) =
      passed.map (·.token) ++ [.name name] := by
    rw [← whole, List.take_left' (by simp), List.map_append, there]
    rfl
  refine ⟨passed.length, t.lookahead.place, ?_, here, ?_, fun p begins => ?_⟩
  · rw [← whole, there]
    simp
  · rw [front]
    exact (reaches.viable_expands expands).exists_sentence unended
  · rw [front] at begins
    obtain ⟨v, spelled⟩ := begins
    rw [List.append_assoc, List.singleton_append] at spelled
    have classified := p.mentionAt_name spelled.symm
    have declared := p.mem_declaredNames_before name spelled.symm
    rw [List.length_map] at classified declared
    rw [uses] at classified
    obtain ⟨mention, found, same⟩ := Option.map_eq_some_iff.mp classified
    refine ⟨found.trans (congrArg some (Mention.eq_uses same)), fun member => unknown ?_⟩
    exact ((known name).mpr (.inr (declared.mp member))).resolve_right List.not_mem_nil

/-- A name that is not declared in front of a use is reported there, whatever follows. And a name is
reported only where it is used and not declared in front of that. -/
theorem undeclared_at_use (session : Session) (tokens : List Located) :
    (session.Accepts (.ofTokens tokens) → ∀ (p : Program) (i : Nat) (used name : String)
        (place : Position) (behind : List Located),
      p.spelling = sentence tokens → p.mentionAt i = some (.uses used) →
      name ∉ declaredNames (p.mentionsBefore i) →
      (session.compile (.ofTokens (tokens.take i ++ ⟨.name name, place⟩ :: behind))).1.outcome =
        .error (.undeclared place.line name)) ∧
    ∀ (line : Nat) (name : String),
      (session.compile (.ofTokens tokens)).1.outcome = .error (.undeclared line name) →
      ∃ k place, tokens[k]? = some ⟨.name name, place⟩ ∧ place.line = line ∧
        (∃ p : Program, (tokens.take (k + 1)).map (·.token) <+: p.spelling) ∧
        ∀ p : Program, (tokens.take (k + 1)).map (·.token) <+: p.spelling →
          p.mentionAt k = some (.uses name) ∧ name ∉ declaredNames (p.mentionsBefore k) :=
  ⟨fun accepted _ _ _ _ _ _ spelled found undeclared =>
    undeclared_of_use accepted spelled found undeclared,
    fun _ _ refused => exists_use_of_undeclared refused⟩

/-- `void main { int n; while (m` -/
def misnamed : List Located :=
  Program.countdown.tokens.take 8 ++ [⟨.name "m", ⟨3, 1⟩⟩]

theorem undeclared_at_misnamed :
    ({} : Session).Accepts (.ofTokens Program.countdown.tokens) ∧
    Program.countdown.mentionAt 8 = some (.uses "n") ∧
    "m" ∉ declaredNames (Program.countdown.mentionsBefore 8) ∧
    (({} : Session).compile (.ofTokens misnamed)).1.outcome = .error (.undeclared 3 "m") ∧
    ∃ (k : Nat) (place : Position), misnamed[k]? = some ⟨.name "m", place⟩ ∧ place.line = 3 := by
  have accepted : ({} : Session).Accepts (.ofTokens Program.countdown.tokens) :=
    (accepts_iff_of_reads Program.reads_countdown trivial).mpr (by decide)
  have found : Program.countdown.mentionAt 8 = some (.uses "n") := by decide
  have undeclared : "m" ∉ declaredNames (Program.countdown.mentionsBefore 8) := by decide
  have failed : (({} : Session).compile (.ofTokens misnamed)).1.outcome =
      .error (.undeclared 3 "m") :=
    (undeclared_at_use {} _).1 accepted Program.countdown 8 "n" "m" ⟨3, 1⟩ []
      Program.countdown.sentence_tokens.symm found undeclared
  obtain ⟨k, place, there, line, _⟩ := (undeclared_at_use {} misnamed).2 3 "m" failed
  exact ⟨accepted, found, undeclared, failed, k, place, there, line⟩

/-- A name that is declared in front of a declarator is reported there, but where the size of an
array begins only behind the whole of it. -/
theorem redeclared_at_declarator {session : Session} {tokens : List Located} {p : Program} {i : Nat}
    {entry : Entry} {name : String} (accepted : session.Accepts (.ofTokens tokens))
    (spelled : p.spelling = sentence tokens) (found : p.mentionAt i = some (.declares entry))
    (declared : name ∈ declaredNames (p.mentionsBefore i)) (place : Position)
    (behind : List Located) :
    ∃ fault,
      (session.compile (.ofTokens (tokens.take i ++ ⟨.name name, place⟩ :: behind))).1.outcome =
        .error fault ∧
      if Declarator.enters (behind.map (·.token)) then fault = .redeclared place.line name
      else fault.isSyntactic = true := by
  obtain ⟨final, done⟩ := (accepts_iff_program (Input.opens_given tokens 1)).mp accepted
  obtain ⟨task, rest, t, awaited, _, _, _, poised, expands, known, comes⟩ :=
    exists_task_at done spelled found
  obtain ⟨rfl, type, rfl⟩ := poised.eq_of_declarator
  have member : name ∈ t.symbols.names := ((known name).mpr declared).resolve_right List.not_mem_nil
  obtain ⟨last, reached⟩ := comes ⟨.name name, place⟩ name behind rfl
  obtain ⟨fault, after, failed, which⟩ :=
    run_declarator_of_known rest type member place behind last
  exact ⟨fault, compile_of_error (Input.opens_given _ 1) (reached.trans failed), which⟩

/-- `void main { int a; int b; }` -/
def twoScalars : Program where
  declarations := [⟨.int, .plain "a", []⟩, ⟨.int, .plain "b", []⟩]
  body := .nil

theorem accepts_twoScalars : ({} : Session).Accepts (.ofTokens twoScalars.tokens) :=
  (accepts_iff_of_reads ⟨twoScalars.sentence_tokens.symm, trivial⟩ trivial).mpr (by decide)

theorem redeclared_at_second :
    ({} : Session).Accepts (.ofTokens twoScalars.tokens) ∧
    twoScalars.mentionAt 7 = some (.declares ⟨"b", .scalar .int⟩) ∧
    "a" ∈ declaredNames (twoScalars.mentionsBefore 7) ∧
    (({} : Session).compile (.ofTokens (twoScalars.tokens.take 7 ++
      [⟨.name "a", ⟨2, 1⟩⟩, ⟨.mark .closeParen, {}⟩]))).1.outcome = .error (.redeclared 2 "a") := by
  have found : twoScalars.mentionAt 7 = some (.declares ⟨"b", .scalar .int⟩) := by decide
  have declared : "a" ∈ declaredNames (twoScalars.mentionsBefore 7) := by decide
  obtain ⟨_, failed, rfl⟩ := redeclared_at_declarator accepts_twoScalars
    twoScalars.sentence_tokens.symm found declared ⟨2, 1⟩ [⟨.mark .closeParen, {}⟩]
  exact ⟨accepts_twoScalars, found, declared, failed⟩

/-- It is not so that a name declared before is reported at a declarator whatever follows: in
`void main { int a; int a[0]; }` the size is reported. -/
theorem not_redeclared_at_declarator :
    ¬ ∀ (session : Session) (tokens : List Located) (p : Program) (i : Nat) (entry : Entry)
        (name : String) (place : Position) (behind : List Located),
      session.Accepts (.ofTokens tokens) → p.spelling = sentence tokens →
      p.mentionAt i = some (.declares entry) → name ∈ declaredNames (p.mentionsBefore i) →
      (session.compile (.ofTokens (tokens.take i ++ ⟨.name name, place⟩ :: behind))).1.outcome =
        .error (.redeclared place.line name) := by
  intro claimed
  let behind : List Located := [.mark .openBracket, .integer 0, .mark .closeBracket,
    .mark .semicolon, .mark .closeBrace].map fun token => ⟨token, {}⟩
  have reported := claimed {} twoScalars.tokens twoScalars 7 ⟨"b", .scalar .int⟩ "a" {} behind
    accepts_twoScalars twoScalars.sentence_tokens.symm (by decide) (by decide)
  have sized : (({} : Session).compile (.ofTokens (twoScalars.tokens.take 7 ++
      ⟨.name "a", {}⟩ :: behind))).1.outcome =
        .error (.unexpected 1 "positive array size" "integer literal 0") := by cbv
  cases reported.symm.trans sized

end Session

end OnePass
