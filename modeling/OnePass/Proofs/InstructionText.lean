import Mathlib
import OnePass.Proofs.Delivery
import OnePass.Proofs.Labels
import OnePass.Proofs.NumberText

/-! The lines of code. The text of an instruction is its opcode and, behind a blank, its operands.
In the code of a program text a line tells its instruction, with one exception: `inf` is the text of
infinity, and it is a name. -/
namespace OnePass

theorem Lexeme.not_isDigit_of_startsName {c : Char} (starts : startsName c = true) :
    c.isDigit = false := by
  by_contra digit
  rw [Bool.not_eq_false, Char.isDigit_iff_toNat] at digit
  have bound : c.toNat ≤ 57 := digit.2
  simp only [startsName, Bool.or_eq_true, Bool.and_eq_true, decide_eq_true_eq, Char.le_def,
    UInt32.le_iff_toNat_le] at starts
  rcases starts with (⟨low, _⟩ | ⟨low, _⟩) | rfl
  · change 97 ≤ c.toNat at low
    omega
  · change 65 ≤ c.toNat at low
    omega
  · change 95 ≤ 57 at bound
    omega

namespace Operand

def token : Operand → Token
  | integer value => .integer value
  | real value => .real value
  | name spelled => .name spelled

/-- The kind of operand that a text stands for. -/
def kindOf (text : List Char) : Kind :=
  if text.all Char.isDigit then .integer
  else if text.head?.any Char.isDigit then .real
  else .name

theorem kindOf_text {operand : Operand} (legible : operand.token.Legible)
    (finite : operand ≠ .real .infinity) : kindOf operand.text.toList = operand.token.kind := by
  cases operand with
  | integer value =>
    obtain ⟨n, rfl⟩ := Int.eq_ofNat_of_zero_le legible
    have text : (Operand.integer n).text.toList = Nat.toDigits 10 n := Nat.toList_repr
    have digits : (Nat.toDigits 10 n).all Char.isDigit = true :=
      List.all_eq_true.mpr (allDigits_toDigits n)
    rw [kindOf, text, if_pos digits]
    rfl
  | real value =>
    rcases legible with below | rfl
    · obtain ⟨d, text, _⟩ := Binary64.exists_text below
      obtain ⟨c, rest, chars, begins, other⟩ := d.text_begins Binary64.layout
      have shape : (Operand.real value).text.toList = c :: rest := by rw [Operand.text, text, chars]
      have mixed : ¬ (c :: rest).all Char.isDigit = true := by
        intro all
        exact other fun d member => List.all_eq_true.mp all d (List.mem_cons_of_mem c member)
      rw [kindOf, shape, if_neg mixed, List.head?_cons, Option.any_some, if_pos begins]
      rfl
    · exact absurd rfl finite
  | name spelled =>
    obtain ⟨c, rest, chars, starts, _⟩ := legible
    have letter := Lexeme.not_isDigit_of_startsName starts
    have shape : (Operand.name spelled).text.toList = c :: rest := chars
    rw [kindOf, shape, List.all_cons, letter, Bool.false_and, if_neg Bool.false_ne_true,
      List.head?_cons, Option.any_some, letter, if_neg Bool.false_ne_true]
    rfl

theorem eq_of_text {one other : Operand} (first : one.token.Legible) (second : other.token.Legible)
    (finite : one ≠ .real .infinity) (finite' : other ≠ .real .infinity)
    (same : one.text = other.text) : one = other := by
  have kinds : one.token.kind = other.token.kind := by
    rw [← kindOf_text first finite, same, kindOf_text second finite']
  cases one <;> cases other <;> try cases kinds
  case integer.integer value value' => exact congrArg integer (Int.repr_injective same)
  case real.real value value' =>
    rcases first with first | rfl
    · rcases second with second | rfl
      · exact congrArg real (Binary64.eq_of_text first second same)
      · exact absurd rfl finite'
    · exact absurd rfl finite
  case name.name spelled spelled' => exact congrArg name same

theorem text_infinity : (real .infinity).text = (name "inf").text := by decide +kernel

/-- The only text that two operands share is that of infinity. -/
theorem eq_or_inf_of_text {one other : Operand} (first : one.token.Legible)
    (second : other.token.Legible) (same : one.text = other.text) :
    one = other ∨ one = .name "inf" ∧ other = .real .infinity ∨
      one = .real .infinity ∧ other = .name "inf" := by
  have spelled : (name "inf").token.Legible := ⟨'i', ['n', 'f'], rfl, rfl, List.all_eq_true.mp rfl⟩
  have plain : name "inf" ≠ real .infinity := by decide
  by_cases infinite : one = .real .infinity
  · by_cases infinite' : other = .real .infinity
    · exact Or.inl (infinite.trans infinite'.symm)
    · rw [infinite, text_infinity] at same
      exact Or.inr (Or.inr ⟨infinite, (eq_of_text spelled second plain infinite' same).symm⟩)
  · by_cases infinite' : other = .real .infinity
    · rw [infinite', text_infinity] at same
      exact Or.inr (Or.inl ⟨eq_of_text first spelled infinite plain same, infinite'⟩)
    · exact Or.inl (eq_of_text first second infinite infinite' same)

end Operand

namespace Instruction

def opcode : Instruction → String
  | push _ => "push"
  | load => "load"
  | store => "store"
  | binary op => op.text
  | not => "!"
  | print => "print"
  | array _ _ _ => "array"
  | label _ => "label"
  | goto _ => "goto"
  | goFalse _ => "gofalse"
  | halt => "halt"

/-- What stands behind the opcode. -/
def operands? : Instruction → Option String
  | push operand => some operand.text
  | array name element size => some (name ++ " " ++ element.text ++ " " ++ toString size)
  | label defined => some (defined.text ++ ":")
  | goto target => some ("label " ++ target.text)
  | goFalse target => some ("label " ++ target.text)
  | _ => none

theorem toList_text (instruction : Instruction) : instruction.text.toList =
    instruction.opcode.toList ++
      instruction.operands?.elim [] fun operands => ' ' :: operands.toList := by
  cases instruction with
  | push operand => simp [text, opcode, operands?]
  | array name element size => simp [text, opcode, operands?]
  | label defined => simp [text, opcode, operands?]
  | goto target => simp [text, opcode, operands?]
  | goFalse target => simp [text, opcode, operands?]
  | _ => simp [text, opcode, operands?]

theorem blank_notMem_opcode (instruction : Instruction) : ' ' ∉ instruction.opcode.toList := by
  cases instruction with
  | binary op => cases op <;> decide
  | _ => simp [opcode]

theorem words_eq_of_text {a b : Instruction} (same : a.text = b.text) :
    a.opcode = b.opcode ∧ a.operands? = b.operands? := by
  have chars := congrArg String.toList same
  rw [toList_text, toList_text] at chars
  cases first : a.operands? with
  | none =>
    cases second : b.operands? with
    | none =>
      rw [first, second, Option.elim_none, List.append_nil, List.append_nil] at chars
      exact ⟨String.toList_inj.mp chars, rfl⟩
    | some operands =>
      rw [first, second, Option.elim_none, List.append_nil] at chars
      exact absurd (chars ▸ by simp) a.blank_notMem_opcode
  | some operands =>
    cases second : b.operands? with
    | none =>
      rw [first, second, Option.elim_none, List.append_nil] at chars
      exact absurd (chars ▸ by simp) b.blank_notMem_opcode
    | some operands' =>
      rw [first, second] at chars
      obtain ⟨opcode, behind⟩ :=
        eq_of_append_cons a.blank_notMem_opcode b.blank_notMem_opcode chars
      exact ⟨String.toList_inj.mp opcode, congrArg some (String.toList_inj.mp behind)⟩

/-- The instructions without operands. -/
def bare : List Instruction :=
  [load, store, not, print, halt, binary .add, binary .subtract, binary .multiply, binary .divide,
    binary .remainder, binary .less, binary .lessEqual, binary .greater, binary .greaterEqual,
    binary .equal, binary .notEqual, binary .and, binary .or]

theorem mem_bare {instruction : Instruction} (alone : instruction.operands? = none) :
    instruction ∈ bare := by
  cases instruction with
  | binary op => cases op <;> decide
  | load | store | not | print | halt => decide
  | _ => cases alone

theorem eq_of_opcode_bare : ∀ a ∈ bare, ∀ b ∈ bare, a.opcode = b.opcode → a = b := by
  decide +kernel

/-- What the code of a program text consists of: legible operands and names, and labels of one
stem. -/
def Legible (stem : String) : Instruction → Prop
  | push operand => operand.token.Legible
  | array name _ _ => (Token.name name).Legible
  | label defined => defined.stem = stem
  | goto target => target.stem = stem
  | goFalse target => target.stem = stem
  | _ => True

end Instruction

theorem Token.blank_notMem_name {text : String} (legible : (name text).Legible) :
    ' ' ∉ text.toList := by
  obtain ⟨c, rest, chars, starts, continues⟩ := legible
  rw [chars, List.mem_cons]
  rintro (rfl | member)
  · cases starts
  · exact absurd (continues ' ' member) (by decide)

theorem Scalar.eq_of_text {one other : Scalar} (same : one.text = other.text) : one = other := by
  cases one <;> cases other <;> first | rfl | exact absurd same (by decide)

namespace Instruction

variable {stem : String}

theorem eq_of_array {name name' : String} {element element' : Scalar} {size size' : Nat}
    (first : (Token.name name).Legible) (second : (Token.name name').Legible)
    (same : name ++ " " ++ element.text ++ " " ++ toString size =
      name' ++ " " ++ element'.text ++ " " ++ toString size') :
    array name element size = array name' element' size' := by
  have words (spelled : String) (scalar : Scalar) (count : Nat) :
      (spelled ++ " " ++ scalar.text ++ " " ++ toString count).toList =
        spelled.toList ++ ' ' :: (scalar.text.toList ++ ' ' :: (toString count).toList) := by
    simp
  have unbroken (scalar : Scalar) : ' ' ∉ scalar.text.toList := by cases scalar <;> decide
  have chars := congrArg String.toList same
  rw [words, words] at chars
  obtain ⟨names, behind⟩ := eq_of_append_cons (Token.blank_notMem_name first)
    (Token.blank_notMem_name second) chars
  obtain ⟨elements, sizes⟩ := eq_of_append_cons (unbroken element) (unbroken element') behind
  rw [String.toList_inj.mp names, Scalar.eq_of_text (String.toList_inj.mp elements),
    Nat.repr_injective (String.toList_inj.mp sizes)]

theorem text_infinity :
    (push (.real .infinity)).text = (push (.name "inf")).text := by
  rw [text, text, Operand.text_infinity]

/-- Legible instructions of the same text are the same, or they are the two that push `inf`. -/
theorem eq_or_inf_of_text {a b : Instruction} (first : a.Legible stem) (second : b.Legible stem)
    (same : a.text = b.text) : a = b ∨ a = .push (.name "inf") ∧ b = .push (.real .infinity) ∨
      a = .push (.real .infinity) ∧ b = .push (.name "inf") := by
  obtain ⟨opcode, operands⟩ := words_eq_of_text same
  by_cases alone : a.operands? = none
  · exact Or.inl (eq_of_opcode_bare a (mem_bare alone) b (mem_bare (operands ▸ alone)) opcode)
  -- Of the instructions with operands, no two forms have one opcode.
  cases a <;> cases b <;>
    first
    | exact absurd rfl alone
    | (simp [operands?] at operands; done)
    | (simp [Instruction.opcode] at opcode; done)
    | skip
  case push.push operand operand' =>
    simp only [push.injEq]
    exact Operand.eq_or_inf_of_text first second (Option.some.inj operands)
  case array.array => exact Or.inl (eq_of_array first second (Option.some.inj operands))
  case label.label defined defined' =>
    have text := (String.append_left_inj ":").mp (Option.some.inj operands)
    exact Or.inl (congrArg label (Label.eq_of_text (first.trans second.symm) text))
  case goto.goto target target' =>
    have text := (String.append_right_inj "label ").mp (Option.some.inj operands)
    exact Or.inl (congrArg goto (Label.eq_of_text (first.trans second.symm) text))
  case goFalse.goFalse target target' =>
    have text := (String.append_right_inj "label ").mp (Option.some.inj operands)
    exact Or.inl (congrArg goFalse (Label.eq_of_text (first.trans second.symm) text))

end Instruction

end OnePass
