import Mathlib
import OnePass.Proofs.StackHeights
import OnePass.Proofs.Unambiguous

/-! The shape of control flow. The code of a tree is a block: control enters it at its first index,
gets from there to every index of it, and from every index to the one behind it. Jumps on false go
forward, and a jump back stands behind a jump on false that leaves the loop. -/
namespace OnePass.Machine

/-- Control can go from one index to another in one step. -/
def Edge (code : List Instruction) (index next : Nat) : Prop :=
  ∃ instruction, Flows code index instruction next

/-- Control can get from one index to another. -/
abbrev Connects (code : List Instruction) : Nat → Nat → Prop := Relation.ReflTransGen (Edge code)

/-- Where control leaves the code: at a halt, or behind the last instruction. -/
def Exit (code : List Instruction) (index : Nat) : Prop :=
  code[index]? = some .halt ∨ index = code.length

/-- A jump on false from a given index goes forward. A jump back has a label behind it, and a jump
on false to that label lies in the loop that it closes. -/
def JumpFits (code : List Instruction) (index : Nat) : Instruction → Prop
  | .goFalse target => ∃ next, index < next ∧ resolve code target = some next
  | .goto target => ∀ next, resolve code target = some next → next < index →
      ∃ label, code[index + 1]? = some (.label label) ∧
        ∃ test bottom, next < test ∧ test < index ∧ code[test]? = some (.goFalse bottom) ∧
          resolve code bottom = some (index + 1)
  | _ => True

/-- Control flow as that of branches and loops inside one another. -/
structure Structured (code : List Instruction) : Prop where
  reached : ∀ index < code.length, Connects code 0 index
  ends : ∀ index < code.length, ∃ exit, Exit code exit ∧ Connects code index exit
  jumps : ∀ index instruction, code[index]? = some instruction → JumpFits code index instruction

/-- A stretch of code that is entered at its first index and left at the one behind it. -/
structure Block (code : List Instruction) (first last : Nat) : Prop where
  ordered : first ≤ last
  reached : ∀ index, first ≤ index → index ≤ last → Connects code first index
  ends : ∀ index, first ≤ index → index ≤ last → Connects code index last
  jumps : ∀ index instruction, first ≤ index → index < last → code[index]? = some instruction →
    JumpFits code index instruction

variable {code : List Instruction} {first middle last index next : Nat} {target : Label}

namespace Block

theorem refl (code : List Instruction) (index : Nat) : Block code index index := by
  refine ⟨Nat.le_refl index, fun other low high => ?_, fun other low high => ?_,
    fun other instruction low high => absurd low (Nat.not_le.mpr high)⟩
  · obtain rfl := Nat.le_antisymm low high
    exact .refl
  · obtain rfl := Nat.le_antisymm low high
    exact .refl

theorem trans (before : Block code first middle) (behind : Block code middle last) :
    Block code first last := by
  have enters := before.reached middle before.ordered (Nat.le_refl middle)
  have leaves := behind.ends middle (Nat.le_refl middle) behind.ordered
  refine ⟨before.ordered.trans behind.ordered, fun index low high => ?_, fun index low high => ?_,
    fun index instruction low high here => ?_⟩
  · rcases Nat.le_total index middle with early | late
    · exact before.reached index low early
    · exact enters.trans (behind.reached index late high)
  · rcases Nat.le_total index middle with early | late
    · exact (before.ends index low early).trans leaves
    · exact behind.ends index late high
  · rcases Nat.lt_or_ge index middle with early | late
    · exact before.jumps index instruction low early here
    · exact behind.jumps index instruction late high here

/-- One instruction that control can go on behind. -/
theorem single {instruction : Instruction} (here : code[index]? = some instruction)
    (edge : Edge code index (index + 1)) (fits : JumpFits code index instruction) :
    Block code index (index + 1) := by
  refine ⟨Nat.le_succ index, fun other low high => ?_, fun other low high => ?_,
    fun other found low high there => ?_⟩
  · obtain rfl | rfl : other = index ∨ other = index + 1 := by omega
    · exact .refl
    · exact .single edge
  · obtain rfl | rfl : other = index ∨ other = index + 1 := by omega
    · exact .single edge
    · exact .refl
  · obtain rfl : other = index := by omega
    obtain rfl := Option.some.inj (here.symm.trans there)
    exact fits

theorem label {label : Label} (here : code[index]? = some (.label label)) :
    Block code index (index + 1) :=
  single here ⟨_, here, rfl⟩ trivial

/-- A jump on false, from which control can also go on. -/
theorem test (here : code[index]? = some (.goFalse target))
    (resolved : resolve code target = some next) (forward : index < next) :
    Block code index (index + 1) :=
  single here ⟨_, here, Or.inl rfl⟩ ⟨next, forward, resolved⟩

/-- Two blocks with a jump between them, which control comes to from the first and does not go on
from. Some other way leads to the second. -/
theorem around (before : Block code first index) (behind : Block code (index + 1) last)
    (jump : code[index]? = some (.goto target)) (fits : JumpFits code index (.goto target))
    (enters : Connects code first (index + 1)) (leaves : Connects code index last) :
    Block code first last := by
  refine ⟨(Nat.le_succ_of_le before.ordered).trans behind.ordered, fun other low high => ?_,
    fun other low high => ?_, fun other instruction low high here => ?_⟩
  · rcases Nat.lt_or_ge index other with late | early
    · exact enters.trans (behind.reached other late high)
    · exact before.reached other low early
  · rcases Nat.lt_or_ge index other with late | early
    · exact behind.ends other late high
    · exact (before.ends other low early).trans leaves
  · rcases Nat.lt_trichotomy other index with early | rfl | late
    · exact before.jumps other instruction low early here
    · obtain rfl := Option.some.inj (jump.symm.trans here)
      exact fits
    · exact behind.jumps other instruction late high here

/-- A loop is left by a jump on false inside of it, and its end jumps back to its start. -/
theorem loop {test : Nat} {label bottom : Label} (resolves : Resolves code)
    (body : Block code first index) (top : code[first]? = some (.label target))
    (jump : code[index]? = some (.goto target)) (ends : code[index + 1]? = some (.label label))
    (inside : first < test ∧ test < index) (branch : code[test]? = some (.goFalse bottom))
    (resolved : resolve code bottom = some (index + 1)) : Block code first (index + 1 + 1) := by
  have returns := resolves first target top
  have behind : Block code (index + 1) (index + 1 + 1) := .label ends
  have leaves : Edge code test (index + 1) := ⟨_, branch, Or.inr resolved⟩
  have enters : Connects code first (index + 1) :=
    (body.reached test inside.1.le inside.2.le).tail leaves
  refine body.around behind jump ?_ enters ?_
  · intro next found _
    obtain rfl := Option.some.inj (returns.symm.trans found)
    exact ⟨label, ends, test, bottom, inside.1, inside.2, branch, resolved⟩
  · have back : Edge code index first := ⟨_, jump, returns⟩
    exact (enters.head back).trans (behind.ends _ (Nat.le_refl _) (Nat.le_succ _))

/-- A block that the whole code is, but for a halt at the end. -/
theorem structured (block : Block code 0 last) (exit : Exit code last)
    (whole : code.length ≤ last + 1) : Structured code := by
  have within : ∀ index < code.length, index ≤ last := fun index inside => by omega
  refine ⟨fun index inside => block.reached index (Nat.zero_le index) (within index inside),
    fun index inside => ⟨last, exit, block.ends index (Nat.zero_le index) (within index inside)⟩,
    fun index instruction here => ?_⟩
  obtain ⟨inside, _⟩ := List.getElem?_eq_some_iff.mp here
  rcases Nat.lt_or_eq_of_le (within index inside) with early | rfl
  · exact block.jumps index instruction (Nat.zero_le index) early here
  · rcases exit with halts | ended
    · obtain rfl := Option.some.inj (halts.symm.trans here)
      trivial
    · exact absurd inside (Nat.not_lt.mpr ended.ge)

end Block

end OnePass.Machine

namespace OnePass

/-- Control goes on behind the instruction and nowhere else. -/
def Instruction.isStraight : Instruction → Bool
  | .goto _ => false
  | .goFalse _ => false
  | .halt => false
  | _ => true

theorem Expr.straight_code {grade : Grade} (e : Expr grade) :
    e.code.all Instruction.isStraight = true := by
  induction e with
  | truth value => cases value <;> rfl
  | _ => simp_all [Instruction.isStraight]

theorem Declarator.straight_code (type : Scalar) (d : Declarator) :
    (d.code type).all Instruction.isStraight = true := by
  cases d with
  | initialized name value => simp [code, value.straight_code, Instruction.isStraight]
  | _ => rfl

theorem Declaration.straight_code (d : Declaration) : d.code.all Instruction.isStraight = true := by
  simp [code, List.all_flatMap, Declarator.straight_code]

namespace Machine

variable {code : List Instruction} {start stop : Nat}

theorem block_of_straight {part : List Instruction} (spans : Spans code start part stop)
    (straight : part.all Instruction.isStraight = true) : Block code start stop := by
  induction part generalizing start with
  | nil =>
    obtain rfl := spans
    exact .refl code _
  | cons instruction rest ih =>
    obtain ⟨here, spans⟩ := spans
    obtain ⟨single, others⟩ := Bool.and_eq_true_iff.mp (List.all_cons.symm.trans straight)
    refine .trans ?_ (ih spans others)
    cases instruction with
    | goto target => cases single
    | goFalse target => cases single
    | halt => cases single
    | _ => exact .single here ⟨_, here, rfl⟩ trivial

theorem block_expr {grade : Grade} {e : Expr grade} (spans : Spans code start e.code stop) :
    Block code start stop :=
  block_of_straight spans e.straight_code

theorem block_statement (resolves : Resolves code) {extent : Extent} {st : Statement extent}
    {stem : String} {number : Nat} (spans : Spans code start (st.code stem number) stop) :
    Block code start stop := by
  induction st generalizing start stop number with
  | declare declaration => exact block_of_straight spans declaration.straight_code
  | assign name value =>
    refine block_of_straight spans ?_
    simp [value.straight_code, Instruction.isStraight]
  | update name index value =>
    refine block_of_straight spans ?_
    simp [index.straight_code, value.straight_code, Instruction.isStraight]
  | print value =>
    refine block_of_straight spans ?_
    simp [value.straight_code, Instruction.isStraight]
  | ifThen condition body ih =>
    obtain ⟨middle, test, branch, spans⟩ := spans_append.mp spans
    obtain ⟨leave, inner, skip, rfl⟩ := spans_append.mp spans
    have body := ih inner
    have forward : middle < leave := body.ordered
    have tested : Block code middle (middle + 1) := .test branch (resolves _ _ skip) forward
    exact (block_expr test).trans (tested.trans (body.trans (.label skip)))
  | ifElse condition yes no ihYes ihNo =>
    obtain ⟨middle, test, branch, spans⟩ := spans_append.mp spans
    obtain ⟨leave, one, jump, skip, spans⟩ := spans_append.mp spans
    obtain ⟨leave', two, bottom, rfl⟩ := spans_append.mp spans
    have yes := ihYes one
    have no := ihNo two
    have condition := block_expr test
    have skips := resolves _ _ skip
    have joins := resolves _ _ bottom
    have forward : middle < leave + 1 := yes.ordered.trans (Nat.le_succ leave)
    have tested : Block code middle (middle + 1) := .test branch skips forward
    have before : Block code start leave := condition.trans (tested.trans yes)
    have behind : Block code (leave + 1) (leave' + 1) :=
      (Block.label skip).trans (no.trans (.label bottom))
    refine before.around behind jump ?_ ?_ ?_
    · intro next found back
      obtain rfl := Option.some.inj (joins.symm.trans found)
      have ordered := no.ordered
      omega
    · have edge : Edge code middle (leave + 1) := ⟨_, branch, Or.inr skips⟩
      exact (before.reached middle condition.ordered (Nat.le_of_lt yes.ordered)).tail edge
    · have edge : Edge code leave leave' := ⟨_, jump, joins⟩
      exact .head edge (behind.ends leave' (by have := no.ordered; omega) (Nat.le_succ leave'))
  | whileDo condition body ih =>
    obtain ⟨top, spans⟩ := spans
    obtain ⟨middle, test, branch, spans⟩ := spans_append.mp spans
    obtain ⟨leave, inner, jump, bottom, rfl⟩ := spans_append.mp spans
    have body := ih inner
    have condition := block_expr test
    have forward : middle < leave + 1 := body.ordered.trans (Nat.le_succ leave)
    have tested : Block code middle (middle + 1) := .test branch (resolves _ _ bottom) forward
    have round : Block code start leave :=
      (Block.label top).trans (condition.trans (tested.trans body))
    exact round.loop resolves top jump bottom ⟨condition.ordered, body.ordered⟩ branch
      (resolves _ _ bottom)
  | doWhile body condition ih =>
    obtain ⟨top, spans⟩ := spans
    obtain ⟨leave, inner, spans⟩ := spans_append.mp spans
    obtain ⟨middle, test, branch, jump, bottom, rfl⟩ := spans_append.mp spans
    have body := ih inner
    have condition := block_expr test
    have tested : Block code middle (middle + 1) :=
      .test branch (resolves _ _ bottom) (by omega)
    have round : Block code start (middle + 1) :=
      (Block.label top).trans (body.trans (condition.trans tested))
    exact round.loop resolves top jump bottom
      ⟨body.ordered.trans condition.ordered, Nat.lt_succ_self middle⟩ branch (resolves _ _ bottom)
  | block body ih => exact ih spans
  | nil =>
    obtain rfl := spans
    exact .refl code _
  | cons one rest ihOne ihRest =>
    obtain ⟨middle, first, more⟩ := spans_append.mp spans
    exact (ihOne first).trans (ihRest more)

theorem structured_listing (p : Program) (stem : String) (halting : Bool) (first : Nat) :
    Structured (p.listing stem halting first) := by
  have resolves := resolves_listing p stem halting first
  have spans := spans_self [] (p.code stem first) (if halting then [.halt] else [])
  rw [List.nil_append, List.length_nil, Nat.zero_add] at spans
  obtain ⟨middle, declared, body⟩ := spans_append.mp spans
  have straight : (p.declarations.flatMap Declaration.code).all Instruction.isStraight = true := by
    simp [List.all_flatMap, Declaration.straight_code]
  have block := (block_of_straight declared straight).trans (block_statement resolves body)
  cases halting with
  | false => exact block.structured (by simp [Exit]) (by simp)
  | true => exact block.structured (by simp [Exit]) (by simp)

end Machine

/-- In the code of a compile every instruction can be reached, and from every instruction the end.
Jumps on false go forward, and behind each jump back stands a label for leaving the loop, to which
a jump on false inside of the loop goes. -/
theorem compiled_structured {session : Session} {source : Source} {compiled : Compiled}
    (accepted : (session.compile source).1.outcome = .ok compiled) :
    Machine.Structured compiled.code.toList := by
  obtain ⟨p, _, listed⟩ := Session.exists_listing accepted
  rw [listed]
  exact Machine.structured_listing p _ _ _

theorem countdown_structured : ∃ compiled : Compiled,
    (({} : Session).compile (.ofTokens Program.countdown.tokens)).1.outcome = .ok compiled ∧
    compiled.code.toList[0]? = some (.label ⟨"", 0⟩) ∧
    compiled.code.toList[3]? = some (.goFalse ⟨"", 1⟩) ∧
    compiled.code.toList[22]? = some (.goto ⟨"", 0⟩) ∧
    compiled.code.toList[23]? = some (.label ⟨"", 1⟩) ∧
    Machine.Structured compiled.code.toList := by
  have settled : Program.countdown.body.Undeclaring := trivial
  have accepts : ({} : Session).Accepts (.ofTokens Program.countdown.tokens) :=
    (Session.accepts_iff_of_reads Program.reads_countdown settled).mpr (by decide)
  obtain ⟨compiled, accepted⟩ := accepts
  have listed := Session.code_of_reads Program.reads_countdown accepted
  refine ⟨compiled, accepted, ?_, ?_, ?_, ?_, compiled_structured accepted⟩ <;> rw [listed] <;> rfl

end OnePass
