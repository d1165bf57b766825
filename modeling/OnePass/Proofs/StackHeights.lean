import Mathlib
import OnePass.Proofs.Acceptance
import OnePass.Proofs.LabelUse
import OnePass.Proofs.Simulation

/-! How high the operand stack is at each place of the code. An expression puts one value on top of
whatever is there, and an instruction of a program leaves nothing behind. All jumps are made and met
at the bottom, so the height at a place is the same whichever way a run has come there. -/
namespace OnePass

namespace Instruction

/-- By how much an instruction changes the height of the stack. -/
def effect : Instruction → Int
  | .push _ => 1
  | .binary _ => -1
  | .store => -2
  | .print => -1
  | .goFalse _ => -1
  | _ => 0

/-- How many values an instruction takes off the stack. -/
def takes : Instruction → Nat
  | .load => 1
  | .store => 2
  | .binary _ => 2
  | .not => 1
  | .print => 1
  | .goFalse _ => 1
  | _ => 0

/-- How many values an instruction puts on the stack. -/
def gives : Instruction → Nat
  | .push _ => 1
  | .load => 1
  | .binary _ => 1
  | .not => 1
  | _ => 0

/-- The height behind an instruction that is done at a height. -/
def lift (instruction : Instruction) (height : Nat) : Nat :=
  height - instruction.takes + instruction.gives

/-- The heights at which code may have an instruction: its operands are there, and nothing lies
below those of a jump. -/
def Stands (height : Nat) : Instruction → Prop
  | .label _ => height = 0
  | .goto _ => height = 0
  | .goFalse _ => height = 1
  | .halt => height = 0
  | instruction => instruction.takes ≤ height

theorem Stands.takes_le {instruction : Instruction} {height : Nat}
    (stands : instruction.Stands height) : instruction.takes ≤ height := by
  cases instruction <;> simp only [Stands, takes] at stands ⊢ <;> omega

theorem Stands.lift_eq {instruction : Instruction} {height : Nat}
    (stands : instruction.Stands height) :
    (instruction.lift height : Int) = height + instruction.effect := by
  have enough := stands.takes_le
  cases instruction <;> simp only [takes, gives, lift, effect] at enough ⊢ <;> omega

end Instruction

/-- Straight along code, from one height to another. -/
def Climbs : Nat → List Instruction → Nat → Prop
  | height, [], top => height = top
  | height, instruction :: rest, top =>
    instruction.Stands height ∧ Climbs (instruction.lift height) rest top

namespace Climbs

variable {bottom middle top : Nat} {code : List Instruction}

theorem append {first second : List Instruction} (left : Climbs bottom first middle)
    (right : Climbs middle second top) : Climbs bottom (first ++ second) top := by
  induction first generalizing bottom with
  | nil =>
    obtain rfl := left
    exact right
  | cons instruction rest ih => exact ⟨left.1, ih left.2⟩

/-- The height in front of an index. -/
def heightAt (bottom : Nat) (code : List Instruction) (index : Nat) : Nat :=
  (code.take index).foldl (fun height instruction => instruction.lift height) bottom

theorem heightAt_succ (bottom : Nat) {code : List Instruction} {index : Nat}
    {instruction : Instruction} (here : code[index]? = some instruction) :
    heightAt bottom code (index + 1) = instruction.lift (heightAt bottom code index) := by
  rw [heightAt, List.take_add_one, here, List.foldl_append]
  rfl

theorem heightAt_length (climbs : Climbs bottom code top) :
    heightAt bottom code code.length = top := by
  induction code generalizing bottom with
  | nil => exact climbs
  | cons instruction rest ih => exact ih climbs.2

theorem stands (climbs : Climbs bottom code top) {index : Nat} {instruction : Instruction}
    (here : code[index]? = some instruction) :
    instruction.Stands (heightAt bottom code index) := by
  induction code generalizing bottom index with
  | nil => cases here
  | cons first rest ih =>
    cases index with
    | zero =>
      obtain rfl : first = instruction := Option.some.inj here
      exact climbs.1
    | succ index => exact ih climbs.2 here

end Climbs

theorem Expr.climbs {grade : Grade} (e : Expr grade) (height : Nat) :
    Climbs height e.code (height + 1) := by
  induction e generalizing height with
  | truth value => cases value <;> exact ⟨Nat.zero_le _, rfl⟩
  | name text => exact ⟨Nat.zero_le _, Nat.le_add_left _ _, rfl⟩
  | element text index ih =>
    have added : Climbs (height + 2) [.binary .add, .load] (height + 1) :=
      ⟨Nat.le_add_left _ _, Nat.le_add_left _ _, rfl⟩
    exact ⟨Nat.zero_le _, (ih (height + 1)).append added⟩
  | not operand ih => exact (ih height).append ⟨Nat.le_add_left _ _, rfl⟩
  | group inner ih => exact ih height
  | bare tier operand ih => exact ih height
  | join tier op belongs chains left right ihLeft ihRight =>
    have joined : Climbs (height + 2) [.binary op] (height + 1) := ⟨Nat.le_add_left _ _, rfl⟩
    exact (ihLeft height).append ((ihRight (height + 1)).append joined)
  | compare op belongs left right ihLeft ihRight =>
    have joined : Climbs (height + 2) [.binary op] (height + 1) := ⟨Nat.le_add_left _ _, rfl⟩
    exact (ihLeft height).append ((ihRight (height + 1)).append joined)
  | _ => exact ⟨Nat.zero_le _, rfl⟩

theorem Expr.climbs_store (value : Expression) : Climbs 1 (value.code ++ [.store]) 0 :=
  (value.climbs 1).append ⟨Nat.le_refl _, rfl⟩

theorem Declarator.climbs (type : Scalar) (d : Declarator) : Climbs 0 (d.code type) 0 := by
  cases d with
  | plain name => rfl
  | initialized name value => exact ⟨Nat.zero_le _, value.climbs_store⟩
  | array name size positive => exact ⟨Nat.zero_le _, rfl⟩

theorem Declarator.climbs_all (type : Scalar) (ds : List Declarator) :
    Climbs 0 (ds.flatMap (code type)) 0 := by
  induction ds with
  | nil => rfl
  | cons d ds ih => exact (d.climbs type).append ih

theorem Declaration.climbs_all (ds : List Declaration) : Climbs 0 (ds.flatMap code) 0 := by
  induction ds with
  | nil => rfl
  | cons d ds ih => exact ((Declarator.climbs_all d.type (d.first :: d.others))).append ih

/-- A condition leaves its value for the jump that takes it, so that both ways out of the jump
begin at the bottom. -/
theorem Climbs.branch (condition : Expression) (target : Label) {rest : List Instruction}
    (further : Climbs 0 rest 0) : Climbs 0 (condition.code ++ .goFalse target :: rest) 0 :=
  (condition.climbs 0).append ⟨rfl, further⟩

theorem Statement.climbs {extent : Extent} (st : Statement extent) (stem : String) (first : Nat) :
    Climbs 0 (st.code stem first) 0 := by
  induction st generalizing first with
  | declare d => exact Declarator.climbs_all d.type (d.first :: d.others)
  | assign name value => exact ⟨Nat.zero_le _, value.climbs_store⟩
  | update name index value =>
    exact ⟨Nat.zero_le _, (index.climbs 1).append ⟨Nat.le_refl _, value.climbs_store⟩⟩
  | print value => exact (value.climbs 0).append ⟨Nat.le_refl _, rfl⟩
  | ifThen condition body ih =>
    exact .branch condition _ ((ih _).append ⟨rfl, rfl⟩)
  | ifElse condition yes no ihYes ihNo =>
    exact .branch condition _ ((ihYes _).append ⟨rfl, rfl, (ihNo _).append ⟨rfl, rfl⟩⟩)
  | whileDo condition body ih =>
    exact ⟨rfl, .branch condition _ ((ih _).append ⟨rfl, rfl, rfl⟩)⟩
  | doWhile body condition ih =>
    exact ⟨rfl, (ih _).append (.branch condition _ ⟨rfl, rfl, rfl⟩)⟩
  | block body ih => exact ih first
  | nil => rfl
  | cons one rest ihOne ihRest => exact (ihOne _).append (ihRest _)

theorem Program.climbs (p : Program) (stem : String) (halting : Bool) (first : Nat) :
    Climbs 0 (p.listing stem halting first) 0 := by
  have ended : Climbs 0 (if halting then [.halt] else []) 0 := by
    cases halting with
    | false => rfl
    | true => exact ⟨rfl, rfl⟩
  exact ((Declaration.climbs_all p.declarations).append (p.body.climbs stem first)).append ended

namespace Machine

/-- Control can go from an index, at which an instruction is, to another index. -/
def Flows (code : List Instruction) (index : Nat) (instruction : Instruction) (next : Nat) : Prop :=
  code[index]? = some instruction ∧
    match instruction with
    | .goto target => resolve code target = some next
    | .goFalse target => next = index + 1 ∨ resolve code target = some next
    | .halt => False
    | _ => next = index + 1

/-- Control can come from the start of the code to an index, and the stack then has a height. -/
inductive Comes (code : List Instruction) : Nat → Int → Prop where
  | start : Comes code 0 0
  | step {index next : Nat} {height : Int} {instruction : Instruction} :
    Comes code index height → Flows code index instruction next →
      Comes code next (height + instruction.effect)

/-- Heights of the stack at the indexes of code: each instruction has its operands, control always
goes to the height that the instruction gives, and nothing is on the stack at the start, at labels,
at jumps, at a halt and at the end. -/
structure Heights (code : List Instruction) (height : Nat → Nat) : Prop where
  flow : ∀ index instruction next, Flows code index instruction next →
    (height next : Int) = height index + instruction.effect
  enough : ∀ index instruction, code[index]? = some instruction →
    instruction.takes ≤ height index
  start : height 0 = 0
  label : ∀ index label, code[index]? = some (.label label) → height index = 0
  goto : ∀ index target, code[index]? = some (.goto target) → height index = 0
  halt : ∀ index, code[index]? = some .halt → height index = 0
  stop : height code.length = 0

theorem exists_label_of_resolve {code : List Instruction} {target : Label} {index : Nat}
    (found : resolve code target = some index) : ∃ label, code[index]? = some (.label label) := by
  obtain ⟨inside, defines, _⟩ := List.findIdx?_eq_some_iff_getElem.mp found
  cases here : code[index] with
  | label label => exact ⟨label, by rw [List.getElem?_eq_getElem inside, here]⟩
  | _ => simp [here, Instruction.defines] at defines

theorem heights_of_climbs {code : List Instruction} (climbs : Climbs 0 code 0) :
    Heights code (Climbs.heightAt 0 code) := by
  have label : ∀ index label, code[index]? = some (.label label) →
      Climbs.heightAt 0 code index = 0 := fun index label here => climbs.stands here
  have jump : ∀ target next, resolve code target = some next →
      Climbs.heightAt 0 code next = 0 := by
    intro target next found
    obtain ⟨defined, there⟩ := exists_label_of_resolve found
    exact label next defined there
  refine ⟨?_, fun index instruction here => (climbs.stands here).takes_le, rfl, label,
    fun index target here => climbs.stands here, fun index here => climbs.stands here,
    climbs.heightAt_length⟩
  intro index instruction next flows
  obtain ⟨here, flows⟩ := flows
  have stands := climbs.stands here
  -- Behind an instruction the height is the one it gives; at the end of a jump both are zero.
  have behind : (Climbs.heightAt 0 code (index + 1) : Int) =
      Climbs.heightAt 0 code index + instruction.effect := by
    rw [Climbs.heightAt_succ 0 here]
    exact stands.lift_eq
  cases instruction with
  | goto target =>
    rw [jump target next flows, stands]
    rfl
  | goFalse target =>
    rcases flows with rfl | found
    · exact behind
    · rw [jump target next found, stands]
      rfl
  | halt => exact flows.elim
  | _ =>
    obtain rfl : next = index + 1 := flows
    exact behind

theorem Heights.eq_of_comes {code : List Instruction} {height : Nat → Nat}
    (heights : Heights code height) {index : Nat} {reached : Int}
    (comes : Comes code index reached) :
    reached = height index := by
  induction comes with
  | start => rw [heights.start]; rfl
  | step _ flows ih => rw [ih, heights.flow _ _ _ flows]

variable {Value Address : Type} [DecidableEq Address] {I : Interpretation Value Address}
variable {code : List Instruction} {c d : Config Value Address}

theorem flows_of_perform {instruction : Instruction} (here : code[c.index]? = some instruction)
    (done : perform I code instruction c = some d) :
    Flows code c.index instruction d.index ∧
      (d.stack.length : Int) = c.stack.length + instruction.effect := by
  revert here done
  fun_cases perform I code instruction c <;> intro here done
  case case9 =>
    obtain ⟨next, found, rfl⟩ := Option.map_eq_some_iff.mp done
    exact ⟨⟨here, found⟩, by simp [Instruction.effect]⟩
  case case10 =>
    obtain rfl := Option.some.inj done
    exact ⟨⟨here, Or.inl rfl⟩, by simp [Instruction.effect]⟩
  case case11 =>
    obtain ⟨next, found, rfl⟩ := Option.map_eq_some_iff.mp done
    exact ⟨⟨here, Or.inr found⟩, by simp [Instruction.effect]⟩
  case case12 => cases done
  all_goals
    obtain rfl := Option.some.inj done
    refine ⟨⟨here, rfl⟩, ?_⟩
    simp only [Instruction.effect, List.length_cons]
    omega

theorem flows_of_step (stepped : step I code c = some d) :
    ∃ instruction, Flows code c.index instruction d.index ∧
      (d.stack.length : Int) = c.stack.length + instruction.effect := by
  rw [step] at stepped
  cases here : code[c.index]? with
  | none =>
    simp only [here] at stepped
    cases stepped
  | some instruction =>
    simp only [here] at stepped
    exact ⟨instruction, flows_of_perform here stepped⟩

theorem comes_of_leads (comes : Comes code c.index c.stack.length) (leads : Leads I code c d) :
    Comes code d.index d.stack.length := by
  obtain ⟨count, reached⟩ := leads
  induction count generalizing c with
  | zero =>
    obtain rfl := Option.some.inj reached
    exact comes
  | succ count ih =>
    obtain ⟨next, stepped, reached⟩ := Option.bind_eq_some_iff.mp reached
    obtain ⟨instruction, flows, height⟩ := flows_of_step stepped
    exact ih (height ▸ comes.step flows) reached

theorem resolves_target {target : Label} (defined : target ∈ definedLabels code) :
    ∃ index, resolve code target = some index := by
  obtain ⟨instruction, member, named⟩ := List.mem_filterMap.mp defined
  have defines : instruction.defines target = true := by
    cases instruction with
    | label label =>
      obtain rfl : label = target := Option.some.inj named
      simp [Instruction.defines]
    | _ => cases named
  rw [← Option.isSome_iff_exists, resolve, List.findIdx?_isSome]
  exact List.any_eq_true.mpr ⟨instruction, member, defines⟩

end Machine

theorem Session.target_defined {session : Session} {source : Source} {compiled : Compiled}
    (accepted : (session.compile source).1.outcome = .ok compiled) {target : Label}
    (jumped : target ∈ jumpTargets compiled.code.toList) :
    target ∈ definedLabels compiled.code.toList := by
  obtain ⟨input, last, _, done, rfl⟩ := Session.exists_program accepted
  have defined := Compilation.count_segment (Compilation.program_pays .definition done)
    (List.nil_append _).symm target
  have targeted := Compilation.count_segment (Compilation.program_pays .target done)
    (List.nil_append _).symm target
  exact List.count_pos_iff.mp (defined.trans targeted.symm ▸ List.count_pos_iff.mpr jumped)

/-- The code of a compile has a height of the stack for each of its indexes, at which a run has
whatever its way was. Every jump goes somewhere. -/
theorem compiled_heights {session : Session} {tokens : List Located} {compiled : Compiled}
    (accepted : (session.compile (.ofTokens tokens)).1.outcome = .ok compiled) :
    ∃ height : Nat → Nat, Machine.Heights compiled.code.toList height ∧
      (∀ index reached, Machine.Comes compiled.code.toList index reached →
        reached = height index) ∧
      (∀ target ∈ jumpTargets compiled.code.toList, ∃ index,
        Machine.resolve compiled.code.toList target = some index) ∧
      ∀ {Value Address : Type} [DecidableEq Address] (I : Interpretation Value Address)
        (store : Store Value Address) (c : Machine.Config Value Address),
        Machine.Leads I compiled.code.toList ⟨0, [], store⟩ c →
          c.stack.length = height c.index ∧
            ∀ instruction, compiled.code.toList[c.index]? = some instruction →
              instruction.takes ≤ c.stack.length := by
  obtain ⟨p, reads⟩ := Session.exists_reads ⟨compiled, accepted⟩
  have climbs := p.climbs session.options.stem session.options.halting session.firstLabel
  rw [← Session.code_of_reads reads accepted] at climbs
  have heights := Machine.heights_of_climbs climbs
  refine ⟨_, heights, fun index reached comes => heights.eq_of_comes comes,
    fun target jumped => Machine.resolves_target (Session.target_defined accepted jumped), ?_⟩
  intro Value Address _ I store c leads
  have comes := Machine.comes_of_leads (c := ⟨0, [], store⟩) .start leads
  have height : c.stack.length = Climbs.heightAt 0 compiled.code.toList c.index :=
    Int.ofNat_inj.mp (heights.eq_of_comes comes)
  exact ⟨height, fun instruction here => height ▸ heights.enough c.index instruction here⟩

theorem countdown_heights : ∃ (compiled : Compiled) (height : Nat → Nat),
    (({} : Session).compile (.ofTokens Program.countdown.tokens)).1.outcome = .ok compiled ∧
    Machine.Heights compiled.code.toList height ∧
    (∀ index reached, Machine.Comes compiled.code.toList index reached → reached = height index) ∧
    (jumpTargets compiled.code.toList).length = 4 ∧
    ∀ target ∈ jumpTargets compiled.code.toList, ∃ index,
      Machine.resolve compiled.code.toList target = some index := by
  have settled : Program.countdown.body.Undeclaring := trivial
  have accepts : ({} : Session).Accepts (.ofTokens Program.countdown.tokens) :=
    (Session.accepts_iff_of_reads Program.reads_countdown settled).mpr (by decide)
  obtain ⟨compiled, accepted⟩ := accepts
  obtain ⟨height, heights, alone, resolved, _⟩ := compiled_heights accepted
  refine ⟨compiled, height, accepted, heights, alone, ?_, resolved⟩
  rw [Session.code_of_reads Program.reads_countdown accepted]
  rfl

end OnePass
