import Mathlib
import OnePass.Proofs.Acceptance
import OnePass.Proofs.LabelUse

/-! Code and symbols stay coherent. An array is added to both at once, and a name is pushed only
when the table has it, so code and symbols cohere wherever a compilation stops. -/
namespace OnePass

namespace Instruction

/-- The entry that stands for an array in the table. -/
def array? : Instruction → Option Entry
  | .array name element size => some ⟨name, .array element size⟩
  | _ => none

/-- The name whose address is pushed. -/
def pushed? : Instruction → Option String
  | .push (.name name) => some name
  | _ => none

/-- Neither of an array nor of a name. -/
def isInert (instruction : Instruction) : Bool :=
  instruction.array?.isNone && instruction.pushed?.isNone

end Instruction

namespace Entry

def isArray (entry : Entry) : Bool :=
  match entry.type with
  | .array _ _ => true
  | .scalar _ => false

theorem insert_perm (entry : Entry) (entries : List Entry) :
    (insert entry entries).Perm (entry :: entries) := by
  induction entries with
  | nil => exact .refl _
  | cons head rest ih =>
    unfold insert
    split
    · exact .refl _
    · exact (ih.cons head).trans (.swap entry head rest)

end Entry

theorem SymbolTable.entries_add {table : SymbolTable} (entry : Entry)
    (new : entry.name ∉ table.names) : (table.add entry).entries.Perm (entry :: table.entries) := by
  have absent := lookup_eq_none_iff.mpr new
  have added : (table.add entry).entries = Entry.insert entry table.entries := by
    simp only [add, declare, absent, dite_true]
  rw [added]
  exact Entry.insert_perm entry table.entries

/-- Code and table fit each other: names that are pushed are known, the arrays of the code are those
of the table, none of them is empty, and no name is pushed in front of its array. -/
structure Coheres (table : SymbolTable) (code : List Instruction) : Prop where
  known : ∀ name ∈ code.filterMap Instruction.pushed?, name ∈ table.names
  arrays : (code.filterMap Instruction.array?).Perm (table.entries.filter Entry.isArray)
  sized : ∀ name element size, .array name element size ∈ code → 0 < size
  ordered : code.Pairwise fun earlier later => ∀ entry, later.array? = some entry →
    earlier.pushed? ≠ some entry.name

namespace Coheres

variable {table : SymbolTable} {code : List Instruction}

theorem empty : Coheres .empty [] where
  known := nofun
  arrays := .refl _
  sized := nofun
  ordered := .nil

theorem plain (coheres : Coheres table code) {instruction : Instruction}
    (plain : instruction.array? = none)
    (known : ∀ name, instruction.pushed? = some name → name ∈ table.names) :
    Coheres table (code ++ [instruction]) where
  known name member := by
    rw [List.filterMap_append] at member
    rcases List.mem_append.mp member with early | last
    · exact coheres.known name early
    · obtain ⟨other, one, pushed⟩ := List.mem_filterMap.mp last
      obtain rfl := List.mem_singleton.mp one
      exact known name pushed
  arrays := by
    rw [List.filterMap_append, List.filterMap_cons_none plain, List.filterMap_nil, List.append_nil]
    exact coheres.arrays
  sized name element size member := by
    rcases List.mem_append.mp member with early | last
    · exact coheres.sized name element size early
    · obtain rfl := List.mem_singleton.mp last
      cases plain
  ordered := by
    refine List.pairwise_append.mpr ⟨coheres.ordered, List.pairwise_singleton _ _, ?_⟩
    intro earlier _ later last entry found
    obtain rfl := List.mem_singleton.mp last
    rw [plain] at found
    cases found

theorem scalar (coheres : Coheres table code) {name : String} (type : Scalar)
    (new : name ∉ table.names) : Coheres (table.add ⟨name, .scalar type⟩) code where
  known other member := SymbolTable.mem_names_add.mpr (.inr (coheres.known other member))
  arrays := by
    have filtered := (SymbolTable.entries_add ⟨name, .scalar type⟩ new).filter Entry.isArray
    exact coheres.arrays.trans filtered.symm
  sized := coheres.sized
  ordered := coheres.ordered

theorem array (coheres : Coheres table code) {name : String} (element : Scalar) {size : Nat}
    (positive : 0 < size) (new : name ∉ table.names) :
    Coheres (table.add ⟨name, .array element size⟩) (code ++ [.array name element size]) where
  known other member := by
    rw [List.filterMap_append] at member
    rcases List.mem_append.mp member with early | last
    · exact SymbolTable.mem_names_add.mpr (.inr (coheres.known other early))
    · cases last
  arrays := by
    rw [List.filterMap_append]
    have filtered := (SymbolTable.entries_add ⟨name, .array element size⟩ new).filter Entry.isArray
    exact (List.perm_append_singleton _ _).trans ((coheres.arrays.cons _).trans filtered.symm)
  sized other element' size' member := by
    rcases List.mem_append.mp member with early | last
    · exact coheres.sized other element' size' early
    · cases List.mem_singleton.mp last
      exact positive
  ordered := by
    refine List.pairwise_append.mpr ⟨coheres.ordered, List.pairwise_singleton _ _, ?_⟩
    -- a push in front of the array would be one of a name that the table does not have
    intro earlier member later last entry found pushed
    obtain rfl := List.mem_singleton.mp last
    obtain rfl := Option.some.inj found
    exact new (coheres.known name (List.mem_filterMap.mpr ⟨earlier, member, pushed⟩))

end Coheres

/-- Whether a task will keep code and symbols together. It may not push a name of its own accord, or
declare an array without elements. -/
def Task.isFit : Task → Bool
  | emit instruction => instruction.isInert
  | nested inner => inner.isFit
  | declareArray _ _ _ size => 0 < size
  | _ => true

namespace Compilation

def State.Coherent (s : State) : Prop := Coheres s.symbols s.code.toList

/-- A result with a coherent state, and a value of a given kind if there is one. -/
inductive Kept {α : Type} (kind : α → Prop) : EStateM.Result Diagnostic State α → Prop where
  | ok {value after} : kind value → after.Coherent → Kept kind (.ok value after)
  | error {fault after} : after.Coherent → Kept kind (.error fault after)

def Keeps {α : Type} (kind : α → Prop) (step : Compilation α) : Prop :=
  ∀ s : State, s.Coherent → Kept kind (step s)

/-- Nothing is said of a value. -/
abbrev Keeping {α : Type} : Compilation α → Prop := Keeps fun _ => True

namespace Keeps

variable {α β : Type} {kind : α → Prop}

theorem pure {value : α} (fits : kind value) : Keeps kind (pure value) :=
  fun _ coherent => .ok fits coherent

theorem throw (fault : Diagnostic) : Keeps kind (throw fault) := fun _ coherent => .error coherent

theorem bind {kind' : β → Prop} {step : Compilation α} {next : α → Compilation β}
    (first : Keeps kind step) (second : ∀ value, Keeps kind' (next value)) :
    Keeps kind' (step >>= next) := by
  intro s coherent
  have here := first s coherent
  cases done : step s with
  | error fault after =>
    rw [done] at here
    rw [bind_of_error done]
    cases here with
    | error further => exact .error further
  | ok value after =>
    rw [done] at here
    rw [bind_of_ok done]
    cases here with
    | ok _ further => exact second value after further

/-- A step that leaves code and symbols as they are, whether it fails or not. -/
theorem still {step : Compilation α} (same : ∀ s, (leaves step s).code = s.code ∧
    (leaves step s).symbols = s.symbols) : Keeping step := by
  intro s coherent
  obtain ⟨code, symbols⟩ := same s
  have kept : (leaves step s).Coherent := by
    unfold State.Coherent
    rwa [code, symbols]
  unfold leaves at kept
  cases done : step s with
  | ok value after =>
    rw [done] at kept
    exact .ok trivial kept
  | error fault after =>
    rw [done] at kept
    exact .error kept

theorem look {next : State → Compilation α} (later : ∀ s, Keeps kind (next s)) :
    Keeps kind (get >>= next) :=
  .bind (still fun _ => ⟨rfl, rfl⟩) later

theorem advance : Keeping advance := by
  refine still fun s => ?_
  unfold leaves Compilation.advance
  rcases s.source.next with ⟨fault | token, source⟩ <;> exact ⟨rfl, rfl⟩

theorem unexpected (expected : String) : Keeps kind (unexpected expected) := .look fun _ => .throw _

theorem expect (expected : Kind) : Keeping (expect expected) := by
  refine .look fun s => ?_
  by_cases fits : s.lookahead.kind = expected
  · rw [if_pos fits]
    exact advance
  · rw [if_neg fits]
    exact unexpected _

theorem fresh : Keeping fresh := still fun _ => ⟨rfl, rfl⟩

theorem leave : Keeping leave := still fun _ => ⟨rfl, rfl⟩

theorem enter : Keeping enter := by
  refine still fun s => ?_
  by_cases room : s.depth < maxNesting
  · rw [leaves, enter_of_room room]
    exact ⟨rfl, rfl⟩
  · rw [leaves, enter_of_full room]
    exact ⟨rfl, rfl⟩

theorem coherent_push {s : State} (coherent : s.Coherent) {instruction : Instruction}
    (plain : instruction.array? = none)
    (known : ∀ name, instruction.pushed? = some name → name ∈ s.symbols.names) :
    State.Coherent { s with code := s.code.push instruction } := by
  have added := coherent.plain plain known
  rw [← Listing.toList_push] at added
  exact added

theorem emit {instruction : Instruction} (inert : instruction.isInert = true) :
    Keeping (emit instruction) := by
  intro s coherent
  obtain ⟨plain, unnamed⟩ := Bool.and_eq_true_iff.mp inert
  have plain := Option.isNone_iff_eq_none.mp plain
  refine .ok trivial (coherent_push coherent plain fun name pushed => ?_)
  rw [pushed] at unnamed
  cases unnamed

theorem coherent_pushName {s : State} (coherent : s.Coherent) {name : String}
    (known : name ∈ s.symbols.names) :
    State.Coherent { s with code := s.code.push (.push (.name name)) } := by
  refine coherent_push coherent rfl fun other pushed => ?_
  obtain rfl := Option.some.inj pushed
  exact known

theorem pushName (name : String) (line : Nat) : Keeping (pushName name line) := by
  intro s coherent
  by_cases known : name ∈ s.symbols.names
  · rw [pushName_of_known line known]
    exact .ok trivial (coherent_pushName coherent known)
  · rw [pushName_of_unknown line known]
    exact .error coherent

theorem declareScalar (name : String) (type : Scalar) (line : Nat) :
    Keeping (declare name (.scalar type) line) := by
  intro s coherent
  by_cases known : name ∈ s.symbols.names
  · rw [@declare_of_known s ⟨name, .scalar type⟩ line known]
    exact .error coherent
  · rw [@declare_of_unknown s ⟨name, .scalar type⟩ line known]
    exact .ok trivial (coherent.scalar type known)

theorem kept_initialValue {s : State} (coherent : s.Coherent) {name : String}
    (known : name ∈ s.symbols.names) {result : α} (fits : kind result) :
    Kept kind ((do
      Compilation.advance
      Compilation.emit (.push (.name name))
      return result : Compilation α) s) := by
  rcases delivered : s.source.next with ⟨fault | token, source⟩
  · rw [bind_of_error (advance_of_fault delivered)]
    exact .error coherent
  · have moved : s.input.Moves ⟨token, source⟩ := delivered
    have facing : (s.facing ⟨token, source⟩).Coherent := coherent
    rw [bind_of_ok (advance_of_moves moved)]
    exact .ok fits (coherent_pushName facing known)

/-- A name is known before it is pushed for its initial value. -/
theorem initialValue (name : String) (type : Scalar) (line : Nat) {result : α}
    (fits : kind result) :
    Keeps kind (do
      declare name (.scalar type) line
      Compilation.advance
      Compilation.emit (.push (.name name))
      return result) := by
  intro s coherent
  by_cases known : name ∈ s.symbols.names
  · rw [bind_of_error (@declare_of_known s ⟨name, .scalar type⟩ line known)]
    exact .error coherent
  · have added : name ∈ (s.symbols.add ⟨name, .scalar type⟩).names :=
      SymbolTable.mem_names_add.mpr (.inl rfl)
    rw [bind_of_ok (@declare_of_unknown s ⟨name, .scalar type⟩ line known)]
    refine kept_initialValue ?_ added fits
    exact coherent.scalar type known

/-- An array is declared and put into the code at once. -/
theorem declareArray (name : String) (element : Scalar) {size : Nat} (line : Nat)
    (positive : 0 < size) {result : α} (fits : kind result) :
    Keeps kind (do
      declare name (.array element size) line
      Compilation.emit (.array name element size)
      return result) := by
  intro s coherent
  by_cases known : name ∈ s.symbols.names
  · rw [bind_of_error (@declare_of_known s ⟨name, .array element size⟩ line known)]
    exact .error coherent
  · have further := coherent.array element positive known
    rw [← Listing.toList_push] at further
    rw [bind_of_ok (@declare_of_unknown s ⟨name, .array element size⟩ line known)]
    exact .ok fits further

end Keeps

end Compilation

namespace Task

open Compilation

/-- A step that leaves tasks behind which keep code and symbols together like itself. -/
abbrev KeepsFit : Compilation (List Task) → Prop := Keeps fun parts => parts.all isFit = true

theorem keeps_declaration (token : Token) : KeepsFit (onDeclaration token) := by
  fun_cases onDeclaration token
  case case4 => exact .unexpected _
  all_goals exact .bind .advance fun _ => .pure rfl

theorem keeps_declarator (type : Scalar) (line : Nat) (token : Token) :
    KeepsFit (onDeclarator type line token) := by
  fun_cases onDeclarator type line token
  case case1 => exact .bind .advance fun _ => .pure rfl
  case case2 => exact .unexpected _

theorem keeps_declarators (type : Scalar) (token : Token) :
    KeepsFit (onDeclarators type token) := by
  fun_cases onDeclarators type token
  case case1 => exact .bind .advance fun _ => .pure rfl
  case case2 => exact .pure rfl

theorem keeps_declared (type : Scalar) (name : String) (line : Nat) (token : Token) :
    KeepsFit (onDeclared type name line token) := by
  fun_cases onDeclared type name line token
  case case1 => exact .bind .advance fun _ => .pure rfl
  case case2 => exact .initialValue name type line rfl
  case case3 => exact .bind (.declareScalar name type line) fun _ => .pure rfl

theorem keeps_arraySize (element : Scalar) (name : String) (line sizeLine : Nat) (token : Token) :
    KeepsFit (onArraySize element name line sizeLine token) := by
  fun_cases onArraySize element name line sizeLine token
  case case1 size =>
    refine .bind .advance fun _ => ?_
    by_cases positive : 0 < size
    · rw [if_pos positive]
      refine .pure ?_
      have filled : 0 < size.toNat := by omega
      simp [isFit, pass, filled]
    · rw [if_neg positive]
      exact .throw _
  case case2 => exact .unexpected _

theorem keeps_statement (line : Nat) (token : Token) : KeepsFit (onStatement line token) := by
  fun_cases onStatement line token
  case case1 => exact .bind .advance fun _ => .bind (.pushName _ _) fun _ => .pure rfl
  case case2 | case3 | case4 => exact .pure rfl
  case case7 | case8 =>
    exact .bind .advance fun _ => .bind .fresh fun _ => .bind (.emit rfl) fun _ => .pure rfl
  case case10 => exact .unexpected _
  all_goals exact .bind .advance fun _ => .pure rfl

theorem keeps_otherwise (skip : Label) (token : Token) : KeepsFit (onOtherwise skip token) := by
  fun_cases onOtherwise skip token
  case case1 =>
    exact .bind .fresh fun _ => .bind (.emit rfl) fun _ => .bind (.emit rfl) fun _ =>
      .bind .advance fun _ => .pure rfl
  case case2 => exact .bind (.emit rfl) fun _ => .pure rfl

theorem keeps_chain (tier : Tier) (token : Token) : KeepsFit (onChain tier token) := by
  unfold onChain
  cases tier.operator? token with
  | none => exact .pure rfl
  | some op => cases tier <;> exact .bind .advance fun _ => .pure rfl

theorem keeps_operand (line : Nat) (token : Token) : KeepsFit (onOperand line token) := by
  fun_cases onOperand line token
  case case1 | case2 => exact .bind .advance fun _ => .pure rfl
  case case7 => exact .bind .advance fun _ => .bind (.pushName _ _) fun _ => .pure rfl
  case case8 => exact .unexpected _
  all_goals exact .bind .advance fun _ => .bind (.emit rfl) fun _ => .pure rfl

theorem keeps_index (token : Token) : KeepsFit (onIndex token) := by
  fun_cases onIndex token
  case case1 => exact .bind .advance fun _ => .pure rfl
  case case2 => exact .pure rfl

theorem perform_keeps {task : Task} (fit : task.isFit = true) : KeepsFit task.perform := by
  refine .look fun s => ?_
  cases task with
  | expect kind => exact .bind (.expect kind) fun _ => .pure rfl
  | emit instruction => exact .bind (.emit fit) fun _ => .pure rfl
  | nested inner =>
    refine .bind .enter fun _ => .pure ?_
    have inside : inner.isFit = true := fit
    simp [isFit, inside]
  | leave => exact .bind .leave fun _ => .pure rfl
  | declarations =>
    refine .pure ?_
    split <;> rfl
  | declaration => exact keeps_declaration _
  | declarator type => exact keeps_declarator _ _ _
  | declarators type => exact keeps_declarators _ _
  | declared type name line => exact keeps_declared _ _ _ _
  | arraySize element name line => exact keeps_arraySize _ _ _ _ _
  | declareArray element name line size =>
    exact .declareArray name element line (of_decide_eq_true fit) rfl
  | instructions =>
    refine .pure ?_
    split <;> rfl
  | statement => exact keeps_statement _ _
  | branch => exact .bind .fresh fun _ => .bind (.emit rfl) fun _ => .pure rfl
  | otherwise skip => exact keeps_otherwise _ _
  | loopBody top => exact .bind .fresh fun _ => .bind (.emit rfl) fun _ => .pure rfl
  | loopTest top =>
    exact .bind .fresh fun _ => .bind (.emit rfl) fun _ => .bind (.emit rfl) fun _ =>
      .bind (.emit rfl) fun _ => .pure rfl
  | level tier => cases tier <;> exact .pure rfl
  | chain tier => exact keeps_chain _ _
  | operand => exact keeps_operand _ _
  | index => exact keeps_index _

end Task

namespace Compilation

theorem run_keeps {tasks : List Task} (fit : tasks.all Task.isFit = true) :
    Keeping (run tasks) := by
  intro s coherent
  fun_induction run tasks s with
  | case1 s => exact .ok trivial coherent
  | case2 s task rest parts after performed ih =>
    obtain ⟨here, behind⟩ := Bool.and_eq_true_iff.mp (List.all_cons.symm.trans fit)
    have kept := Task.perform_keeps here s coherent
    rw [performed] at kept
    cases kept with
    | ok parts further =>
      refine ih ?_ further
      rw [List.all_append, parts, behind]
      rfl
  | case3 s task rest fault after performed =>
    obtain ⟨here, _⟩ := Bool.and_eq_true_iff.mp (List.all_cons.symm.trans fit)
    have kept := Task.perform_keeps here s coherent
    rw [performed] at kept
    cases kept with
    | error further => exact .error further

theorem program_keeps (halting : Bool) : Keeping (program halting) := by
  apply run_keeps
  cases halting <;> rfl

theorem coherent_called (halting : Bool) (calls : Nat) {s : State} (coherent : s.Coherent) :
    (s.called halting calls).Coherent := by
  induction calls with
  | zero => exact coherent
  | succ calls ih =>
    have next : s.called halting (calls + 1) = leaves (program halting) (s.called halting calls) :=
      Function.iterate_succ_apply' _ _ _
    have kept := program_keeps halting _ ih
    rw [next, leaves]
    generalize program halting (s.called halting calls) = result at kept ⊢
    cases kept with
    | ok _ further => exact further
    | error further => exact further

end Compilation

/-! What a program declares. -/

def Mention.entry? : Mention → Option Entry
  | declares entry => some entry
  | uses _ => none

/-- The declarators of a program in order, each with its type. -/
def Program.entries (p : Program) : List Entry := p.mentions.filterMap Mention.entry?

theorem SymbolTable.entries_extend {table : SymbolTable} {mentions : List Mention}
    (fits : Scoped table.names mentions) :
    (table.extend mentions).entries.Perm (mentions.filterMap Mention.entry? ++ table.entries) := by
  induction mentions generalizing table with
  | nil => exact .refl _
  | cons mention rest ih =>
    cases mention with
    | uses name => exact ih fits.2
    | declares entry =>
      have further : Scoped (table.add entry).names rest :=
        (Scoped.congr fun name => List.mem_cons.trans mem_names_add.symm).mp fits.2
      have added := (entries_add entry fits.1).append_left (rest.filterMap Mention.entry?)
      exact (ih further).trans (added.trans List.perm_middle)

namespace Compilation

/-- The table of a program that is found has the program's declarators and nothing else. -/
theorem entries_of_program {halting : Bool} {labels : LabelSupply} {input final : Input}
    {p : Program} {last : State} (nearest : p.body.ElseNearest)
    (reads : input.Reads (p.spelling ++ [Token.finish]) final)
    (done : program halting (.opening labels input) = .ok () last) :
    last.symbols.entries.Perm p.entries := by
  obtain ⟨q, settles⟩ := p.exists_settles
  rw [← settles.spelling] at reads
  have yields : Yields (Task.program halting) [] (.opening labels input) final
      (q.contribution halting labels) :=
    yields_program halting q settles.undeclaring (settles.nearest nearest) reads
  have accepted :=
    (program_ok_iff settles.undeclaring (settles.nearest nearest) reads).mp ⟨last, done⟩
  obtain ⟨events, reached⟩ := yields.1 accepted
  obtain ⟨_, rfl⟩ := EStateM.Result.ok.inj (done.symm.trans (reached.trans (run_nil _)))
  have entries := @SymbolTable.entries_extend .empty _ accepted.1
  rw [Program.entries, ← settles.mentions, ← List.append_nil (List.filterMap _ _)]
  exact entries

theorem exists_reads_drain {source : Source} {labels : LabelSupply} {input : Input} {halting : Bool}
    {last : State} (opens : Input.Opens source input)
    (done : program halting (.opening labels input) = .ok () last) :
    ∃ p : Program, p.Reads source.drain.1 ∧
      input.Reads (p.spelling ++ [Token.finish]) last.input := by
  obtain ⟨p, nearest, reads⟩ := exists_program done
  have inner : ∀ token ∈ p.spelling, token ≠ .finish :=
    fun token member ended => p.finish_notMem (ended ▸ member)
  obtain ⟨_, drained⟩ := Input.drain_of_reads opens inner reads
  refine ⟨p, ⟨?_, nearest⟩, reads⟩
  rw [sentence, drained, List.takeWhile_append_of_pos (by simpa using inner)]
  simp

/-- Code and table cohere however often programs are asked for, whether they are found or not. Where
the first one is found, the table has its declarators with their types and nothing else. -/
theorem coherent_of_start {source : Source} {supply : LabelSupply} {initial : State}
    (started : start source supply = .ok initial) (halting : Bool) :
    (∀ calls, (initial.called halting calls).Coherent) ∧
      ∀ t, program halting initial = .ok () t →
        (∃ p : Program, p.Reads source.drain.1) ∧
          ∀ p : Program, p.Reads source.drain.1 → t.symbols.entries.Perm p.entries := by
  obtain ⟨input, opens, rfl⟩ : ∃ input, Input.Opens source input ∧
      initial = .opening supply input := by
    unfold start at started
    split at started
    · rename_i token after delivered
      exact ⟨⟨token, after⟩, delivered, (Except.ok.inj started).symm⟩
    · cases started
  refine ⟨fun calls => coherent_called halting calls .empty, fun t done => ?_⟩
  obtain ⟨p, found, reads⟩ := exists_reads_drain opens done
  refine ⟨⟨p, found⟩, fun q given => ?_⟩
  rw [found.spelled, ← given.spelled] at reads
  exact entries_of_program given.nearest reads done

/-- `void main { int a[2]; a[1] = 7; }`, and an array of the same name in a second program. -/
def repeated : List Located :=
  [.mark .void, .mark .main, .mark .openBrace, .mark .int, .name "a", .mark .openBracket,
    .integer 2, .mark .closeBracket, .mark .semicolon, .name "a", .mark .openBracket, .integer 1,
    .mark .closeBracket, .mark .assign, .integer 7, .mark .semicolon, .mark .closeBrace, .finish,
    .mark .void, .mark .main, .mark .openBrace, .mark .int, .name "a", .mark .openBracket,
    .integer 3, .mark .closeBracket, .mark .semicolon].map fun token => ⟨token, {}⟩

theorem coherent_of_start_repeated : ∃ (initial t : State) (p : Program),
    start (.ofTokens repeated) {} = .ok initial ∧
    (initial.called true 2).code.toList = [.array "a" .int 2, .push (.name "a"),
      .push (.integer 1), .binary .add, .push (.integer 7), .store, .halt] ∧
    (initial.called true 2).Coherent ∧
    program true initial = .ok () t ∧ p.Reads (Source.ofTokens repeated).drain.1 ∧
    t.symbols.entries.Perm p.entries := by
  let initial : State :=
    { source := .given repeated.tail 1, lookahead := ⟨.mark .void, {}⟩ }
  have started : start (.ofTokens repeated) {} = .ok initial := rfl
  have code : (initial.called true 2).code.toList = [.array "a" .int 2, .push (.name "a"),
      .push (.integer 1), .binary .add, .push (.integer 7), .store, .halt] := by cbv
  have accepted : EStateM.run' (program true) initial = some () := by cbv
  obtain ⟨coherent, found⟩ := coherent_of_start started true
  cases done : program true initial with
  | ok value t =>
    obtain ⟨⟨p, reads⟩, entries⟩ := found t done
    exact ⟨initial, t, p, started, code, coherent 2, done, reads, entries p reads⟩
  | error fault t =>
    rw [EStateM.run', EStateM.run, done] at accepted
    cases accepted

end Compilation

end OnePass
