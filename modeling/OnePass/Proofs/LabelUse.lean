import Mathlib
import OnePass.Proofs.Labels
import OnePass.Proofs.Yield

/-! Each label that a compilation takes from its supply is defined once, and one jump goes to it.
Until then it is owed by a task that is left. A compilation that fails may leave a label without
the one or the other, but none with either twice. -/
namespace OnePass

def Instruction.target? : Instruction → Option Label
  | .goto target => some target
  | .goFalse target => some target
  | _ => none

def jumpTargets (code : List Instruction) : List Label := code.filterMap Instruction.target?

/-- What a label can be in an instruction. -/
inductive LabelRole where
  | definition
  | target

namespace LabelRole

def label? : LabelRole → Instruction → Option Label
  | definition => Instruction.label?
  | target => Instruction.target?

def labels (role : LabelRole) (code : List Instruction) : List Label := code.filterMap role.label?

theorem labels_append (role : LabelRole) (first second : List Instruction) :
    role.labels (first ++ second) = role.labels first ++ role.labels second :=
  List.filterMap_append

theorem labels_singleton (role : LabelRole) (instruction : Instruction) :
    role.labels [instruction] = (role.label? instruction).toList := by
  cases found : role.label? instruction <;> simp [labels, found]

end LabelRole

/-- The labels that a supply gives out until it has become another. -/
def LabelSupply.Issues (supply later : LabelSupply) (label : Label) : Prop :=
  label.stem = supply.stem ∧ supply.next ≤ label.number ∧ label.number < later.next

instance (supply later : LabelSupply) (label : Label) : Decidable (supply.Issues later label) :=
  inferInstanceAs (Decidable (_ ∧ _ ∧ _))

/-- The labels that a task will still put into the code. The others that it puts there it takes
from the supply itself. -/
def Task.owes : LabelRole → Task → List Label
  | role, emit instruction => (role.label? instruction).toList
  | role, nested inner => inner.owes role
  | .definition, otherwise skip => [skip]
  | .target, loopBody top => [top]
  | .target, loopTest top => [top]
  | _, _ => []

namespace Compilation

/-- What no step takes back: code is added at the end, and labels are taken from the supply. -/
structure State.Grows (s after : State) : Prop where
  code : s.code.toList <+: after.code.toList
  stem : after.labels.stem = s.labels.stem
  next : s.labels.next ≤ after.labels.next

namespace State

def occurrences (s : State) (role : LabelRole) (label : Label) : Nat :=
  (role.labels s.code.toList).count label

def issued (s after : State) (label : Label) : Nat :=
  if s.labels.Issues after.labels label then 1 else 0

theorem Grows.refl (s : State) : s.Grows s := ⟨List.prefix_rfl, rfl, Nat.le_refl _⟩

theorem Grows.trans {s middle after : State} (first : s.Grows middle)
    (second : middle.Grows after) :
    s.Grows after :=
  ⟨first.code.trans second.code, second.stem.trans first.stem, first.next.trans second.next⟩

theorem issued_self (s : State) (label : Label) : s.issued s label = 0 := by
  apply if_neg
  rintro ⟨_, above, below⟩
  omega

theorem issued_le_one (s after : State) (label : Label) : s.issued after label ≤ 1 := by
  unfold issued
  split <;> omega

theorem issued_add {s middle after : State} (first : s.Grows middle) (second : middle.Grows after)
    (label : Label) :
    s.issued middle label + middle.issued after label = s.issued after label := by
  have earlier := first.next
  have later := second.next
  unfold issued
  simp only [LabelSupply.Issues, first.stem]
  by_cases same : label.stem = s.labels.stem
  · simp only [same, true_and]
    split_ifs <;> omega
  · simp only [same, false_and, if_false]

theorem issued_first (s : State) {after : State} (taken : after.labels = s.labels.after 1)
    (label : Label) : s.issued after label = if s.labels.first = label then 1 else 0 := by
  apply if_congr _ rfl rfl
  obtain ⟨stem, number⟩ := label
  rw [taken]
  simp only [LabelSupply.Issues, LabelSupply.first, LabelSupply.after, Label.mk.injEq]
  constructor
  · rintro ⟨rfl, above, below⟩
    exact ⟨rfl, by omega⟩
  · rintro ⟨rfl, rfl⟩
    exact ⟨rfl, Nat.le_refl _, Nat.lt_succ_self _⟩

end State

/-- From one state to another, the labels put into the code are those owed before, less those
owed behind, and those taken from the supply. -/
structure State.Pays (role : LabelRole) (s after : State) (owed left : List Label) : Prop where
  grows : s.Grows after
  balance : ∀ label, after.occurrences role label + left.count label =
    s.occurrences role label + owed.count label + s.issued after label

namespace State.Pays

variable {role : LabelRole} {s between after : State} {owed middle left : List Label}

theorem refl (s : State) (owed : List Label) : s.Pays role s owed owed := by
  refine ⟨.refl s, fun label => ?_⟩
  rw [issued_self]
  rfl

theorem trans (first : s.Pays role between owed middle)
    (second : between.Pays role after middle left) :
    s.Pays role after owed left := by
  refine ⟨first.grows.trans second.grows, fun label => ?_⟩
  have one := first.balance label
  have two := second.balance label
  have issued := issued_add first.grows second.grows label
  omega

theorem frame (pays : s.Pays role after owed left) (more : List Label) :
    s.Pays role after (owed ++ more) (left ++ more) := by
  refine ⟨pays.grows, fun label => ?_⟩
  have own := pays.balance label
  rw [List.count_append, List.count_append]
  omega

theorem perm {other : List Label} (pays : s.Pays role after owed left) (same : owed.Perm other) :
    s.Pays role after other left :=
  ⟨pays.grows, fun label => same.count_eq label ▸ pays.balance label⟩

theorem congr {same : State} (pays : s.Pays role after owed left) (code : same.code = after.code)
    (labels : same.labels = after.labels) : s.Pays role same owed left := by
  obtain ⟨⟨code', stem, next⟩, balance⟩ := pays
  refine ⟨⟨by rwa [code], by rwa [labels], by rwa [labels]⟩, fun label => ?_⟩
  have own := balance label
  rw [occurrences, issued] at own ⊢
  rwa [code, labels]

end State.Pays

/-- The state that a step leaves, whether it fails or not. -/
def leaves {α : Type} (step : Compilation α) (s : State) : State :=
  match step s with
  | .ok _ after => after
  | .error _ after => after

/-- A step pays for the labels owed before it but for those left behind it. If it fails, it has
paid for some of them. -/
def Balances {α : Type} (role : LabelRole) (step : Compilation α) (owed : List Label)
    (left : α → List Label) : Prop :=
  ∀ s, match step s with
    | .ok value after => s.Pays role after owed (left value)
    | .error _ after => ∃ unpaid, s.Pays role after owed unpaid

namespace Balances

variable {α β : Type} {role : LabelRole} {owed : List Label}

theorem pure {value : α} {left : α → List Label} (settled : left value = owed) :
    Balances role (pure value) owed left :=
  fun s => settled ▸ .refl s (left value)

theorem bind {step : Compilation α} {next : α → Compilation β} {middle : α → List Label}
    {left : β → List Label} (first : Balances role step owed middle)
    (second : ∀ value, Balances role (next value) (middle value) left) :
    Balances role (step >>= next) owed left := by
  intro s
  have here := first s
  cases done : step s with
  | error fault after =>
    rw [bind_of_error done]
    rwa [done] at here
  | ok value between =>
    rw [bind_of_ok done]
    rw [done] at here
    have there := second value between
    cases rest : next value between with
    | ok result after =>
      rw [rest] at there
      exact here.trans there
    | error fault after =>
      rw [rest] at there
      obtain ⟨unpaid, there⟩ := there
      exact ⟨unpaid, here.trans there⟩

theorem perm {step : Compilation α} {left : α → List Label} {other : List Label}
    (balances : Balances role step owed left) (same : owed.Perm other) :
    Balances role step other left := by
  intro s
  have here := balances s
  cases done : step s with
  | ok value after =>
    rw [done] at here
    exact here.perm same
  | error fault after =>
    rw [done] at here
    obtain ⟨unpaid, here⟩ := here
    exact ⟨unpaid, here.perm same⟩

/-- A step that leaves code and labels as they are, whether it fails or not. -/
theorem keeps {step : Compilation α} (same : ∀ s, (leaves step s).code = s.code ∧
    (leaves step s).labels = s.labels) : Balances role step owed fun _ => owed := by
  intro s
  obtain ⟨code, labels⟩ := same s
  have paid : s.Pays role (leaves step s) owed owed := (State.Pays.refl s owed).congr code labels
  unfold leaves at paid
  cases done : step s with
  | ok value after => rwa [done] at paid
  | error fault after =>
    rw [done] at paid
    exact ⟨owed, paid⟩

theorem look {next : State → Compilation α} {left : α → List Label}
    (later : ∀ s, Balances role (next s) owed left) : Balances role (get >>= next) owed left :=
  .bind (keeps fun _ => ⟨rfl, rfl⟩) later

theorem advance : Balances role advance owed fun _ => owed := by
  refine keeps fun s => ?_
  unfold leaves Compilation.advance
  rcases s.source.next with ⟨token | fault, source⟩ <;> exact ⟨rfl, rfl⟩

theorem throw (fault : Diagnostic) (left : α → List Label) :
    Balances role (throw fault) owed left :=
  fun s => ⟨owed, .refl s owed⟩

theorem unexpected (expected : String) (left : α → List Label) :
    Balances role (unexpected expected) owed left :=
  .look fun _ => .throw _ _

theorem enter : Balances role enter owed fun _ => owed := by
  refine keeps fun s => ?_
  by_cases room : s.depth < maxNesting
  · rw [leaves, enter_of_room room]
    exact ⟨rfl, rfl⟩
  · rw [leaves, enter_of_full room]
    exact ⟨rfl, rfl⟩

theorem leave : Balances role leave owed fun _ => owed := keeps fun _ => ⟨rfl, rfl⟩

theorem declare (entry : Entry) (line : Nat) :
    Balances role (declare entry.name entry.type line) owed fun _ => owed := by
  refine keeps fun s => ?_
  by_cases known : entry.name ∈ s.symbols.names
  · rw [leaves, declare_of_known known]
    exact ⟨rfl, rfl⟩
  · rw [leaves, declare_of_unknown known]
    exact ⟨rfl, rfl⟩

theorem expect (kind : Kind) : Balances role (expect kind) owed fun _ => owed := by
  refine .look fun s => ?_
  by_cases fits : s.lookahead.kind = kind
  · rw [if_pos fits]
    exact advance
  · rw [if_neg fits]
    exact unexpected _ _

theorem emit (instruction : Instruction) :
    Balances role (emit instruction) ((role.label? instruction).toList ++ owed) fun _ => owed := by
  intro s
  have added : (s.code.push instruction).toList = s.code.toList ++ [instruction] :=
    Listing.toList_push _ _
  refine ⟨⟨?_, rfl, Nat.le_refl _⟩, fun label => ?_⟩
  · exact added ▸ List.prefix_append _ _
  · have none := s.issued_self label
    simp only [State.occurrences, State.issued] at none ⊢
    rw [none, added, role.labels_append, role.labels_singleton, List.count_append,
      List.count_append]
    omega

theorem emitPlain {instruction : Instruction}
    (plain : ∀ role, LabelRole.label? role instruction = none) :
    Balances role (Compilation.emit instruction) owed fun _ => owed := by
  have emitted : Balances role (Compilation.emit instruction)
      ((role.label? instruction).toList ++ owed) fun _ => owed := emit instruction
  rwa [plain role] at emitted

theorem pushName (name : String) (line : Nat) :
    Balances role (pushName name line) owed fun _ => owed := by
  intro s
  by_cases known : name ∈ s.symbols.names
  · rw [pushName_of_known line known]
    exact emitPlain (fun role => by cases role <;> rfl) s
  · rw [pushName_of_unknown line known]
    exact throw (.undeclared line name) (fun _ : Unit => owed) s

theorem fresh : Balances role fresh owed fun label => label :: owed := by
  intro s
  refine ⟨⟨List.prefix_rfl, rfl, Nat.le_succ _⟩, fun label => ?_⟩
  change s.occurrences role label + (s.labels.first :: owed).count label = _
  rw [s.issued_first rfl, List.count_cons, Nat.add_assoc]
  simp only [beq_iff_eq]

end Balances

end Compilation

namespace Task

open Compilation

variable {role : LabelRole}

/-- The labels that tasks will still put into the code. -/
def allOwe (role : LabelRole) (tasks : List Task) : List Label := tasks.flatMap (owes role)

theorem allOwe_append (first second : List Task) :
    allOwe role (first ++ second) = allOwe role first ++ allOwe role second :=
  List.flatMap_append

theorem balances_declaration (token : Token) :
    Balances role (onDeclaration token) [] (allOwe role) := by
  fun_cases onDeclaration token
  case case4 => exact .unexpected _ _
  all_goals exact .bind .advance fun _ => .pure rfl

theorem balances_declarator (type : Scalar) (line : Nat) (token : Token) :
    Balances role (onDeclarator type line token) [] (allOwe role) := by
  fun_cases onDeclarator type line token
  case case1 => exact .bind .advance fun _ => .pure rfl
  case case2 => exact .unexpected _ _

theorem balances_declarators (type : Scalar) (token : Token) :
    Balances role (onDeclarators type token) [] (allOwe role) := by
  fun_cases onDeclarators type token
  case case1 => exact .bind .advance fun _ => .pure rfl
  case case2 => exact .pure rfl

theorem balances_declared (type : Scalar) (name : String) (line : Nat) (token : Token) :
    Balances role (onDeclared type name line token) [] (allOwe role) := by
  have declares : Balances role (Compilation.declare name (.scalar type) line) [] fun _ => [] :=
    .declare ⟨name, .scalar type⟩ line
  have pushes : Balances role (Compilation.emit (.push (.name name))) [] fun _ => [] :=
    .emitPlain fun role => by cases role <;> rfl
  fun_cases onDeclared type name line token
  case case1 => exact .bind .advance fun _ => .pure rfl
  case case2 =>
    refine .bind declares fun _ => .bind .advance fun _ => .bind pushes fun _ => ?_
    cases role <;> exact .pure rfl
  case case3 => exact .bind declares fun _ => .pure rfl

theorem balances_arraySize (element : Scalar) (name : String) (line sizeLine : Nat)
    (token : Token) :
    Balances role (onArraySize element name line sizeLine token) [] (allOwe role) := by
  fun_cases onArraySize element name line sizeLine token
  case case1 size =>
    refine .bind .advance fun _ => ?_
    by_cases positive : 0 < size
    · rw [if_pos positive]
      exact .pure rfl
    · rw [if_neg positive]
      exact .throw _ _
  case case2 => exact .unexpected _ _

theorem balances_statement (line : Nat) (token : Token) :
    Balances role (onStatement line token) [] (allOwe role) := by
  fun_cases onStatement line token
  case case1 =>
    refine .bind .advance fun _ => .bind (.pushName _ _) fun _ => ?_
    cases role <;> exact .pure rfl
  case case2 | case3 | case4 => exact .pure rfl
  case case7 | case8 =>
    -- The label in front of a loop is defined at once; the jump to it is left to the loop's end.
    cases role <;>
      exact .bind .advance fun _ => .bind .fresh fun _ => .bind (.emit _) fun _ =>
        .pure rfl
  case case10 => exact .unexpected _ _
  all_goals
    refine .bind .advance fun _ => ?_
    cases role <;> exact .pure rfl

theorem balances_otherwise (skip : Label) (token : Token) :
    Balances role (onOtherwise skip token) ((otherwise skip).owes role) (allOwe role) := by
  fun_cases onOtherwise skip token
  case case1 =>
    refine .bind .fresh fun bottom => ?_
    cases role with
    | definition =>
      have swapped : [skip, bottom].Perm [bottom, skip] := .swap _ _ _
      refine .bind (.emit _) fun _ => .bind (.perm (.emit (.label skip)) swapped) fun _ => ?_
      exact .bind .advance fun _ => .pure rfl
    | target =>
      exact .bind (.emit _) fun _ => .bind (.emit _) fun _ => .bind .advance fun _ =>
        .pure rfl
  case case2 => cases role <;> exact .bind (.emit _) fun _ => .pure rfl

theorem balances_chain (tier : Tier) (token : Token) :
    Balances role (onChain tier token) [] (allOwe role) := by
  unfold onChain
  cases tier.operator? token with
  | none => exact .pure rfl
  | some op =>
    refine .bind .advance fun _ => ?_
    cases role <;> cases tier <;> exact .pure rfl

theorem balances_operand (line : Nat) (token : Token) :
    Balances role (onOperand line token) [] (allOwe role) := by
  have pushes : ∀ operand, Balances role (Compilation.emit (.push operand)) [] fun _ => [] :=
    fun operand => .emitPlain fun role => by cases role <;> rfl
  fun_cases onOperand line token
  case case1 | case2 =>
    refine .bind .advance fun _ => ?_
    cases role <;> exact .pure rfl
  case case7 =>
    refine .bind .advance fun _ => .bind (.pushName _ _) fun _ => ?_
    cases role <;> exact .pure rfl
  case case8 => exact .unexpected _ _
  all_goals exact .bind .advance fun _ => .bind (pushes _) fun _ => .pure rfl

theorem balances_index (token : Token) : Balances role (onIndex token) [] (allOwe role) := by
  fun_cases onIndex token
  case case1 =>
    refine .bind .advance fun _ => ?_
    cases role <;> exact .pure rfl
  case case2 => exact .pure rfl

theorem perform_balances (role : LabelRole) (task : Task) :
    Balances role task.perform (task.owes role) (allOwe role) := by
  refine .look fun s => ?_
  cases task with
  | expect kind => exact .bind (.expect kind) fun _ => .pure rfl
  | emit instruction =>
    have whole : (role.label? instruction).toList ++ [] = (emit instruction).owes role :=
      List.append_nil _
    exact .bind (whole ▸ .emit instruction) fun _ => .pure rfl
  | nested inner =>
    refine .bind .enter fun _ => ?_
    exact .pure (by simp [allOwe, owes])
  | leave => exact .bind .leave fun _ => .pure rfl
  | declarations =>
    by_cases begins : beginsDeclaration s.lookahead.token = true
    · simp only [begins, if_true]
      exact .pure rfl
    · simp only [begins]
      exact .pure rfl
  | declaration => exact balances_declaration _
  | declarator type => exact balances_declarator _ _ _
  | declarators type => exact balances_declarators _ _
  | declared type name line => exact balances_declared _ _ _ _
  | arraySize element name line => exact balances_arraySize _ _ _ _ _
  | declareArray element name line size =>
    have reserves : Balances role (Compilation.emit (.array name element size)) [] fun _ => [] :=
      .emitPlain fun role => by cases role <;> rfl
    exact .bind (.declare ⟨name, .array element size⟩ line) fun _ => .bind reserves fun _ =>
      .pure rfl
  | instructions =>
    by_cases begins : beginsInstruction s.lookahead.token = true
    · simp only [begins, if_true]
      exact .pure rfl
    · simp only [begins]
      exact .pure rfl
  | statement => exact balances_statement _ _
  | branch =>
    cases role <;> exact .bind .fresh fun _ => .bind (.emit _) fun _ => .pure rfl
  | otherwise skip => exact balances_otherwise _ _
  | loopBody top =>
    cases role <;> exact .bind .fresh fun _ => .bind (.emit _) fun _ => .pure rfl
  | loopTest top =>
    cases role <;> exact .bind .fresh fun _ => .bind (.emit _) fun _ => .bind (.emit _) fun _ =>
      .bind (.emit _) fun _ => .pure rfl
  | level tier => cases tier <;> exact .pure rfl
  | chain tier => exact balances_chain _ _
  | operand => exact balances_operand _ _
  | index => exact balances_index _

end Task

namespace Compilation

variable {role : LabelRole}

theorem run_balances (role : LabelRole) (tasks : List Task) :
    Balances role (run tasks) (Task.allOwe role tasks) fun _ => [] := by
  intro s
  fun_induction run tasks s with
  | case1 s => exact .refl s []
  | case2 s task rest parts after performed ih =>
    have here := Task.perform_balances role task s
    rw [performed] at here
    have paid := here.frame (Task.allOwe role rest)
    rw [← Task.allOwe_append] at paid
    cases done : run (parts ++ rest) after with
    | ok value final =>
      rw [done] at ih
      exact paid.trans ih
    | error fault final =>
      rw [done] at ih
      obtain ⟨unpaid, ih⟩ := ih
      exact ⟨unpaid, paid.trans ih⟩
  | case3 s task rest fault after performed =>
    have here := Task.perform_balances role task s
    rw [performed] at here
    obtain ⟨unpaid, here⟩ := here
    exact ⟨unpaid ++ Task.allOwe role rest, (here.frame (Task.allOwe role rest)).congr rfl rfl⟩

/-- The state after programs were asked for so many times, whether they were found or not. -/
def State.called (halting : Bool) (calls : Nat) (s : State) : State :=
  (leaves (program halting))^[calls] s

theorem allOwe_program (halting : Bool) : Task.allOwe role (Task.program halting) = [] := by
  cases role <;> cases halting <;> rfl

theorem program_pays (role : LabelRole) {halting : Bool} {s t : State}
    (done : program halting s = .ok () t) :
    s.Pays role t [] [] := by
  have paid := run_balances role (Task.program halting) s
  rw [allOwe_program] at paid
  unfold program at done
  rwa [done] at paid

theorem called_pays (role : LabelRole) (halting : Bool) (calls : Nat) (s : State) :
    ∃ unpaid, s.Pays role (s.called halting calls) [] unpaid := by
  induction calls with
  | zero => exact ⟨[], .refl s []⟩
  | succ calls ih =>
    obtain ⟨unpaid, paid⟩ := ih
    have next : s.called halting (calls + 1) = leaves (program halting) (s.called halting calls) :=
      Function.iterate_succ_apply' _ _ _
    have called := run_balances role (Task.program halting) (s.called halting calls)
    rw [allOwe_program] at called
    rw [next, leaves, program]
    cases done : run (Task.program halting) (s.called halting calls) with
    | ok value after =>
      rw [done] at called
      exact ⟨_, paid.trans (called.frame unpaid)⟩
    | error fault after =>
      rw [done] at called
      obtain ⟨more, called⟩ := called
      exact ⟨_, paid.trans (called.frame unpaid)⟩

/-- Each label in the code was taken from the supply, is defined once at most and is the target of
one jump at most. -/
structure LabelsDistinct (supply : LabelSupply) (s : State) : Prop where
  issued : ∀ label ∈ definedLabels s.code.toList ++ jumpTargets s.code.toList,
    supply.Issues s.labels label
  defined : ((definedLabels s.code.toList).map Label.text).Nodup
  targeted : ((jumpTargets s.code.toList).map Label.text).Nodup

/-- Between two states, code was added that defines the labels taken from the supply, each once,
and no others, and that has one jump to each. No other jump goes there. -/
structure LabelsClosed (s t : State) (segment : List Instruction) : Prop where
  added : t.code.toList = s.code.toList ++ segment
  defined : ∀ label, (definedLabels segment).count label =
    if s.labels.Issues t.labels label then 1 else 0
  targeted : ∀ label, (jumpTargets segment).count label =
    if s.labels.Issues t.labels label then 1 else 0
  alone : ∀ label, s.labels.Issues t.labels label → (jumpTargets t.code.toList).count label = 1

theorem count_le_issued {s t : State} {unpaid : List Label} (empty : s.code = .empty)
    (paid : s.Pays role t [] unpaid) (label : Label) :
    (role.labels t.code.toList).count label ≤ s.issued t label := by
  have balance := paid.balance label
  have nothing : s.occurrences role label = 0 := by
    rw [State.occurrences, empty]
    rfl
  rw [nothing, List.count_nil] at balance
  unfold State.occurrences at balance
  omega

theorem issues_of_mem {s t : State} {unpaid : List Label} {label : Label} (empty : s.code = .empty)
    (paid : s.Pays role t [] unpaid) (member : label ∈ role.labels t.code.toList) :
    s.labels.Issues t.labels label := by
  by_contra other
  have few := count_le_issued empty paid label
  rw [State.issued, if_neg other] at few
  exact absurd (List.count_pos_iff.mpr member) (by omega)

theorem nodup_texts {s t : State} {unpaid : List Label} (empty : s.code = .empty)
    (paid : s.Pays role t [] unpaid) : ((role.labels t.code.toList).map Label.text).Nodup := by
  have distinct : (role.labels t.code.toList).Nodup := by
    rw [List.nodup_iff_count_le_one]
    intro label
    exact (count_le_issued empty paid label).trans (State.issued_le_one _ _ _)
  refine distinct.map_on fun one first other second text => ?_
  have stem := (issues_of_mem empty paid first).1.trans (issues_of_mem empty paid second).1.symm
  exact Label.eq_of_text stem text

theorem count_segment {s t : State} {segment : List Instruction} (paid : s.Pays role t [] [])
    (added : t.code.toList = s.code.toList ++ segment) (label : Label) :
    (role.labels segment).count label = s.issued t label := by
  have balance := paid.balance label
  rw [State.occurrences, State.occurrences, added, role.labels_append, List.count_append,
    List.count_nil] at balance
  omega

/-- However often programs are asked for, and whether they are found or not, the labels in the code
come from the supply, none is defined twice, and no two jumps go to one. Where a program is found,
the labels that it took are those that its own code defines, each with one jump from that code. -/
theorem labels_closed {source : Source} {supply : LabelSupply} {initial : State}
    (started : start source supply = .ok initial) (halting : Bool) (calls : Nat) :
    LabelsDistinct supply (initial.called halting calls) ∧
      ∀ t, program halting (initial.called halting calls) = .ok () t →
        ∃ segment, LabelsClosed (initial.called halting calls) t segment := by
  have opened : initial.code = .empty ∧ initial.labels = supply := by
    unfold start at started
    split at started
    · obtain rfl := Except.ok.inj started
      exact ⟨rfl, rfl⟩
    · cases started
  obtain ⟨empty, rfl⟩ := opened
  obtain ⟨unplaced, defines⟩ := called_pays .definition halting calls initial
  obtain ⟨unmet, jumps⟩ := called_pays .target halting calls initial
  refine ⟨⟨?_, nodup_texts empty defines, nodup_texts empty jumps⟩, ?_⟩
  · intro label member
    rcases List.mem_append.mp member with defined | targeted
    · exact issues_of_mem empty defines defined
    · exact issues_of_mem empty jumps targeted
  · intro t done
    have defined := program_pays .definition done
    have targeted := program_pays .target done
    obtain ⟨segment, added⟩ := defined.grows.code
    refine ⟨segment, added.symm, count_segment defined added.symm,
      count_segment targeted added.symm, fun label issued => ?_⟩
    have most := count_le_issued empty (jumps.trans (targeted.frame unmet)) label
    have least : 1 ≤ (LabelRole.target.labels t.code.toList).count label := by
      rw [← added, LabelRole.labels_append, List.count_append, count_segment targeted added.symm,
        State.issued, if_pos issued]
      exact Nat.le_add_left _ _
    exact Nat.le_antisymm (most.trans (State.issued_le_one _ _ _)) least

/-- `void main { while (` in front of `void main { if (1) print(1); }`: the first call fails at the
second `void`, behind a label that no jump goes to, and the second call begins there. -/
def interrupted : List Located :=
  [.mark .void, .mark .main, .mark .openBrace, .mark .while, .mark .openParen,
    .mark .void, .mark .main, .mark .openBrace, .mark .if, .mark .openParen, .integer 1,
    .mark .closeParen, .mark .print, .mark .openParen, .integer 1, .mark .closeParen,
    .mark .semicolon, .mark .closeBrace].map fun token => ⟨token, {}⟩

theorem labels_closed_interrupted : ∃ initial t segment,
    start (.ofTokens interrupted) ⟨"L", 3⟩ = .ok initial ∧
    (initial.called true 1).code.toList = [.label ⟨"L", 3⟩] ∧
    program true (initial.called true 1) = .ok () t ∧
    LabelsDistinct ⟨"L", 3⟩ (initial.called true 1) ∧
    LabelsClosed (initial.called true 1) t segment := by
  let initial : State :=
    { source := .given interrupted.tail 1, lookahead := ⟨.mark .void, {}⟩, labels := ⟨"L", 3⟩ }
  have started : start (.ofTokens interrupted) ⟨"L", 3⟩ = .ok initial := rfl
  have failed : (initial.called true 1).code.toList = [.label ⟨"L", 3⟩] := by cbv
  have found : EStateM.run' (program true) (initial.called true 1) = some () := by cbv
  obtain ⟨distinct, closes⟩ := labels_closed started true 1
  cases done : program true (initial.called true 1) with
  | ok value t =>
    obtain ⟨segment, closed⟩ := closes t done
    exact ⟨initial, t, segment, started, failed, done, distinct, closed⟩
  | error fault t =>
    rw [EStateM.run', EStateM.run, done] at found
    cases found

end Compilation

end OnePass
