import Mathlib
import OnePass.Proofs.Machine
import OnePass.Proofs.Syntax

/-! What a tree means: the value of an expression, and the stores that an instruction leads from
and to. Both operands of every operator are evaluated. -/
namespace OnePass

variable {Value Address : Type} (I : Interpretation Value Address)

/-- The address of an element: its index added to the base of the array. -/
def Interpretation.element (name : String) (index : Value) : Value :=
  I.binary .add (I.base name) index

def Expr.value (memory : Address → Value) : {grade : Grade} → Expr grade → Value
  | _, integer value => I.integer value
  | _, real value => I.real value
  | _, truth true => I.integer 1
  | _, truth false => I.integer 0
  | _, name text => memory (I.cell (I.base text))
  | _, element text index => memory (I.cell (I.element text (index.value memory)))
  | _, not operand => I.not (operand.value memory)
  | _, group inner => inner.value memory
  | _, bare _ operand => operand.value memory
  | _, join _ op _ _ left right => I.binary op (left.value memory) (right.value memory)
  | _, compare op _ left right => I.binary op (left.value memory) (right.value memory)

def Expr.holds (s : Store Value Address) (condition : Expression) : Bool :=
  I.truth (condition.value I s.memory)

variable [DecidableEq Address]

/-- Only an initial value changes the store. -/
def Declarator.run (s : Store Value Address) : Declarator → Store Value Address
  | plain _ => s
  | initialized name value => s.write (I.cell (I.base name)) (value.value I s.memory)
  | array _ _ _ => s

def Declaration.run (s : Store Value Address) (d : Declaration) : Store Value Address :=
  (d.first :: d.others).foldl (Declarator.run I) s

namespace Statement

inductive Executes : {extent : Extent} → Statement extent → Store Value Address →
    Store Value Address → Prop where
  | declare (d : Declaration) (s : Store Value Address) : Executes (.declare d) s (d.run I s)
  | assign (name : String) (value : Expression) (s : Store Value Address) :
    Executes (.assign name value) s (s.write (I.cell (I.base name)) (value.value I s.memory))
  | update (name : String) (index : Index) (value : Expression) (s : Store Value Address) :
    Executes (.update name index value) s
      (s.write (I.cell (I.element name (index.value I s.memory))) (value.value I s.memory))
  | print (value : Expression) (s : Store Value Address) :
    Executes (.print value) s (s.print (value.value I s.memory))
  | ifThen_true {condition : Expression} {body : Statement .one} {s t : Store Value Address} :
    condition.holds I s = true → Executes body s t → Executes (.ifThen condition body) s t
  | ifThen_false {condition : Expression} {body : Statement .one} {s : Store Value Address} :
    condition.holds I s = false → Executes (.ifThen condition body) s s
  | ifElse_true {condition : Expression} {yes no : Statement .one} {s t : Store Value Address} :
    condition.holds I s = true → Executes yes s t → Executes (.ifElse condition yes no) s t
  | ifElse_false {condition : Expression} {yes no : Statement .one} {s t : Store Value Address} :
    condition.holds I s = false → Executes no s t → Executes (.ifElse condition yes no) s t
  | while_true {condition : Expression} {body : Statement .one} {s t u : Store Value Address} :
    condition.holds I s = true → Executes body s t → Executes (.whileDo condition body) t u →
      Executes (.whileDo condition body) s u
  | while_false {condition : Expression} {body : Statement .one} {s : Store Value Address} :
    condition.holds I s = false → Executes (.whileDo condition body) s s
  | do_true {condition : Expression} {body : Statement .one} {s t u : Store Value Address} :
    Executes body s t → condition.holds I t = true → Executes (.doWhile body condition) t u →
      Executes (.doWhile body condition) s u
  | do_false {condition : Expression} {body : Statement .one} {s t : Store Value Address} :
    Executes body s t → condition.holds I t = false → Executes (.doWhile body condition) s t
  | block {body : Statement .many} {s t : Store Value Address} :
    Executes body s t → Executes (.block body) s t
  | nil (s : Store Value Address) : Executes .nil s s
  | cons {first : Statement .one} {rest : Statement .many} {s t u : Store Value Address} :
    Executes first s t → Executes rest t u → Executes (.cons first rest) s u

end Statement

def Program.Executes (p : Program) (s t : Store Value Address) : Prop :=
  p.body.Executes I (p.declarations.foldl (Declaration.run I) s) t

end OnePass
