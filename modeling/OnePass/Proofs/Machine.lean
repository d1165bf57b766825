import Mathlib
import OnePass.Code.Instruction

/-! The stack machine. What values are, what the operators do with them and where names lie in
memory is left open. -/
namespace OnePass

structure Interpretation (Value Address : Type) where
  integer : Int → Value
  real : Binary64 → Value
  /-- Where a name lies, or the first element of an array. -/
  base : String → Value
  /-- The cell of memory that a value is the address of. -/
  cell : Value → Address
  binary : BinaryOp → Value → Value → Value
  not : Value → Value
  truth : Value → Bool

structure Store (Value Address : Type) where
  memory : Address → Value
  printed : List Value

variable {Value Address : Type}

def Interpretation.operand (I : Interpretation Value Address) : Operand → Value
  | .integer value => I.integer value
  | .real value => I.real value
  | .name spelled => I.base spelled

namespace Store

def write [DecidableEq Address] (s : Store Value Address) (cell : Address) (value : Value) :
    Store Value Address :=
  { s with memory := Function.update s.memory cell value }

def print (s : Store Value Address) (value : Value) : Store Value Address :=
  { s with printed := s.printed ++ [value] }

end Store

def Instruction.defines (target : Label) : Instruction → Bool
  | .label defined => defined.text = target.text
  | _ => false

namespace Machine

structure Config (Value Address : Type) where
  index : Nat
  stack : List Value
  store : Store Value Address

/-- Where a jump goes: labels are found by their text. -/
def resolve (code : List Instruction) (target : Label) : Option Nat :=
  code.findIdx? (·.defines target)

variable [DecidableEq Address] (I : Interpretation Value Address) (code : List Instruction)

/-- Does one instruction. There is no next configuration behind a halt, without the operands of
the instruction, or without the label of a jump. -/
def perform : Instruction → Config Value Address → Option (Config Value Address)
  | .push operand, ⟨index, stack, store⟩ => some ⟨index + 1, I.operand operand :: stack, store⟩
  | .load, ⟨index, address :: stack, store⟩ =>
    some ⟨index + 1, store.memory (I.cell address) :: stack, store⟩
  | .store, ⟨index, value :: address :: stack, store⟩ =>
    some ⟨index + 1, stack, store.write (I.cell address) value⟩
  | .binary op, ⟨index, right :: left :: stack, store⟩ =>
    some ⟨index + 1, I.binary op left right :: stack, store⟩
  | .not, ⟨index, value :: stack, store⟩ => some ⟨index + 1, I.not value :: stack, store⟩
  | .print, ⟨index, value :: stack, store⟩ => some ⟨index + 1, stack, store.print value⟩
  | .array .., ⟨index, stack, store⟩ => some ⟨index + 1, stack, store⟩
  | .label _, ⟨index, stack, store⟩ => some ⟨index + 1, stack, store⟩
  | .goto target, ⟨_, stack, store⟩ =>
    (resolve code target).map fun index => ⟨index, stack, store⟩
  | .goFalse target, ⟨index, value :: stack, store⟩ =>
    if I.truth value then some ⟨index + 1, stack, store⟩
    else (resolve code target).map fun index => ⟨index, stack, store⟩
  | _, _ => none

def step (c : Config Value Address) : Option (Config Value Address) :=
  match code[c.index]? with
  | some instruction => perform I code instruction c
  | none => none

def after : Nat → Config Value Address → Option (Config Value Address)
  | 0, c => some c
  | count + 1, c => (step I code c).bind (after count)

def Leads (c d : Config Value Address) : Prop := ∃ count, after I code count c = some d

/-- Where a run is over: at a halt if the code ends with one, else behind the last instruction. -/
def Finished (halting : Bool) (index : Nat) : Prop :=
  if halting then code[index]? = some .halt else index = code.length

variable {I code}
variable {c d e final : Config Value Address}

theorem after_add (m n : Nat) (c : Config Value Address) :
    after I code (m + n) c = (after I code m c).bind (after I code n) := by
  induction m generalizing c with
  | zero => simp [after]
  | succ m ih =>
    rw [Nat.succ_add, after, after]
    cases step I code c with
    | none => rfl
    | some d => exact ih d

namespace Leads

theorem refl (c : Config Value Address) : Leads I code c c := ⟨0, rfl⟩

theorem trans (first : Leads I code c d) (second : Leads I code d e) : Leads I code c e := by
  obtain ⟨m, reached⟩ := first
  obtain ⟨n, further⟩ := second
  refine ⟨m + n, ?_⟩
  rw [after_add, reached]
  exact further

theorem of_step (stepped : step I code c = some d) : Leads I code c d := by
  refine ⟨1, ?_⟩
  rw [after, stepped]
  rfl

theorem of_perform {index : Nat} {stack : List Value} {store : Store Value Address}
    {instruction : Instruction} (here : code[index]? = some instruction)
    (done : perform I code instruction ⟨index, stack, store⟩ = some d) :
    Leads I code ⟨index, stack, store⟩ d := by
  apply of_step
  rw [step, here]
  exact done

end Leads

/-- There is one run only: what lies on the way to an end leads to that end. -/
theorem after_of_step {count : Nat} (ends : step I code final = none)
    (reached : after I code count c = some final) (stepped : step I code c = some d) :
    ∃ fewer < count, after I code fewer d = some final := by
  cases count with
  | zero =>
    obtain rfl := Option.some.inj reached
    rw [ends] at stepped
    cases stepped
  | succ count =>
    rw [after, stepped] at reached
    exact ⟨count, Nat.lt_succ_self count, reached⟩

theorem after_of_leads {count : Nat} (ends : step I code final = none)
    (reached : after I code count c = some final) (leads : Leads I code c d) :
    ∃ fewer ≤ count, after I code fewer d = some final := by
  obtain ⟨length, leads⟩ := leads
  induction length generalizing c count with
  | zero =>
    obtain rfl := Option.some.inj leads
    exact ⟨count, Nat.le_refl count, reached⟩
  | succ length ih =>
    obtain ⟨next, stepped, leads⟩ := Option.bind_eq_some_iff.mp leads
    obtain ⟨fewer, less, further⟩ := after_of_step ends reached stepped
    obtain ⟨least, lesser, last⟩ := ih further leads
    exact ⟨least, by omega, last⟩

end Machine

end OnePass
