import Mathlib
import OnePass.Proofs.Syntax

/-! The code of a syntax tree, by recursion on the tree. Operands come in the order of the
source and an operator behind its right operand. The labels of an instruction have the
numbers from a given one on, in the order in which its parts ask for them. -/
namespace OnePass

@[simp] def Expr.code : {grade : Grade} → Expr grade → List Instruction
  | _, integer value => [.push (.integer value)]
  | _, real value => [.push (.real value)]
  | _, truth true => [.push (.integer 1)]
  | _, truth false => [.push (.integer 0)]
  | _, name text => [.push (.name text), .load]
  | _, element text index => .push (.name text) :: (index.code ++ [.binary .add, .load])
  | _, not operand => operand.code ++ [.not]
  | _, group inner => inner.code
  | _, bare _ operand => operand.code
  | _, join _ op _ _ left right => left.code ++ (right.code ++ [.binary op])
  | _, compare op _ left right => left.code ++ (right.code ++ [.binary op])

/-- Only initial values and arrays leave code. -/
def Declarator.code (type : Scalar) : Declarator → List Instruction
  | plain _ => []
  | initialized name value => .push (.name name) :: (value.code ++ [.store])
  | array name size _ => [.array name type size]

def Declaration.code (d : Declaration) : List Instruction :=
  d.first.code d.type ++ d.others.flatMap (Declarator.code d.type)

namespace Statement

@[simp] def labelCount : {extent : Extent} → Statement extent → Nat
  | _, ifThen _ body => 1 + body.labelCount
  | _, ifElse _ yes no => 2 + yes.labelCount + no.labelCount
  | _, whileDo _ body => 2 + body.labelCount
  | _, doWhile body _ => 2 + body.labelCount
  | _, block body => body.labelCount
  | _, cons first rest => first.labelCount + rest.labelCount
  | _, _ => 0

/-- The code of an instruction whose labels begin with the number `first`. The second label of
an `if` with an `else`, and that of a `do`, is asked for behind the labels of the body. -/
@[simp] def code (stem : String) :
    {extent : Extent} → Statement extent → (first : Nat) → List Instruction
  | _, declare declaration, _ => declaration.code
  | _, assign name value, _ => .push (.name name) :: (value.code ++ [.store])
  | _, update name index value, _ =>
    .push (.name name) :: (index.code ++ .binary .add :: (value.code ++ [.store]))
  | _, print value, _ => value.code ++ [.print]
  | _, ifThen condition body, first =>
    condition.code ++ .goFalse ⟨stem, first⟩ :: (body.code stem (first + 1) ++
      [.label ⟨stem, first⟩])
  | _, ifElse condition yes no, first =>
    let bottom := first + 1 + yes.labelCount
    condition.code ++ .goFalse ⟨stem, first⟩ :: (yes.code stem (first + 1) ++
      .goto ⟨stem, bottom⟩ :: .label ⟨stem, first⟩ :: (no.code stem (bottom + 1) ++
        [.label ⟨stem, bottom⟩]))
  | _, whileDo condition body, first =>
    .label ⟨stem, first⟩ :: (condition.code ++ .goFalse ⟨stem, first + 1⟩ ::
      (body.code stem (first + 2) ++ [.goto ⟨stem, first⟩, .label ⟨stem, first + 1⟩]))
  | _, doWhile body condition, first =>
    let bottom := first + 1 + body.labelCount
    .label ⟨stem, first⟩ :: (body.code stem (first + 1) ++ (condition.code ++
      [.goFalse ⟨stem, bottom⟩, .goto ⟨stem, first⟩, .label ⟨stem, bottom⟩]))
  | _, block body, first => body.code stem first
  | _, nil, _ => []
  | _, cons one rest, first => one.code stem first ++ rest.code stem (first + one.labelCount)

end Statement

namespace Program

def labelCount (p : Program) : Nat := p.body.labelCount

def code (stem : String) (p : Program) (first : Nat) : List Instruction :=
  p.declarations.flatMap Declaration.code ++ p.body.code stem first

/-- The whole code of a program, at whose end a halt may be asked for. -/
def listing (stem : String) (halting : Bool) (p : Program) (first : Nat) : List Instruction :=
  p.code stem first ++ if halting then [.halt] else []

end Program

end OnePass
