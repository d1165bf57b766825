import Mathlib
import OnePass.Compilation.Task

/-! Syntax trees of the language and the tokens that spell them. A tree holds every bracket
and every tier it passes through, so that a tree is a derivation in the grammar. -/
namespace OnePass

def BinaryOp.mark : BinaryOp → Mark
  | add => .plus
  | subtract => .minus
  | multiply => .star
  | divide => .slash
  | remainder => .percent
  | less => .less
  | lessEqual => .lessEqual
  | greater => .greater
  | greaterEqual => .greaterEqual
  | equal => .equal
  | notEqual => .notEqual
  | and => .and
  | or => .or

def BinaryOp.tier : BinaryOp → Tier
  | add | subtract => .sum
  | multiply | divide | remainder => .product
  | less | lessEqual | greater | greaterEqual | equal | notEqual => .comparison
  | and => .conjunction
  | or => .disjunction

theorem Tier.chains_iff {tier : Tier} : tier.chains = true ↔ tier ≠ .comparison := by
  cases tier <;> decide

/-- What holds an expression together: the operators of a tier, or nothing but itself. -/
inductive Grade where
  | single
  | joined (tier : Tier)
  deriving DecidableEq, Repr

def Tier.inner : Tier → Grade
  | disjunction => .joined .conjunction
  | conjunction => .joined .comparison
  | comparison => .joined .sum
  | sum => .joined .product
  | product => .single

/-- Expressions by grade. Operators of one tier lean to the left, and a comparison has one operator
at most: in every other tier they may follow one another. -/
inductive Expr : Grade → Type where
  | integer (value : Int) : Expr .single
  | real (value : Binary64) : Expr .single
  | truth (value : Bool) : Expr .single
  | name (text : String) : Expr .single
  | element (text : String) (index : Expr (.joined .sum)) : Expr .single
  | not (operand : Expr .single) : Expr .single
  | group (inner : Expr (.joined .disjunction)) : Expr .single
  | bare (tier : Tier) (operand : Expr tier.inner) : Expr (.joined tier)
  | join (tier : Tier) (op : BinaryOp) (belongs : op.tier = tier) (chains : tier ≠ .comparison)
      (left : Expr (.joined tier)) (right : Expr tier.inner) : Expr (.joined tier)
  | compare (op : BinaryOp) (belongs : op.tier = .comparison)
      (left right : Expr (.joined .sum)) : Expr (.joined .comparison)

/-- What conditions, initial values, right sides and arguments of `print` are. -/
abbrev Expression := Expr (.joined .disjunction)

abbrev Index := Expr (.joined .sum)

inductive Declarator where
  | plain (name : String)
  | initialized (name : String) (value : Expression)
  | array (name : String) (size : Nat) (positive : 0 < size)

structure Declaration where
  type : Scalar
  first : Declarator
  others : List Declarator

/-- Whether a tree is one instruction or a run of them. -/
inductive Extent where
  | one
  | many
  deriving DecidableEq, Repr

inductive Statement : Extent → Type where
  | declare (declaration : Declaration) : Statement .one
  | assign (name : String) (value : Expression) : Statement .one
  | update (name : String) (index : Index) (value : Expression) : Statement .one
  | print (value : Expression) : Statement .one
  | ifThen (condition : Expression) (body : Statement .one) : Statement .one
  | ifElse (condition : Expression) (yes no : Statement .one) : Statement .one
  | whileDo (condition : Expression) (body : Statement .one) : Statement .one
  | doWhile (body : Statement .one) (condition : Expression) : Statement .one
  | block (body : Statement .many) : Statement .one
  | nil : Statement .many
  | cons (first : Statement .one) (rest : Statement .many) : Statement .many

structure Program where
  declarations : List Declaration
  body : Statement .many

/-! The tokens of a tree. -/

namespace Expr

def spelling : {grade : Grade} → Expr grade → List Token
  | _, integer value => [.integer value]
  | _, real value => [.real value]
  | _, truth true => [.mark .true]
  | _, truth false => [.mark .false]
  | _, name text => [.name text]
  | _, element text index =>
    .name text :: .mark .openBracket :: (index.spelling ++ [.mark .closeBracket])
  | _, not operand => .mark .not :: operand.spelling
  | _, group inner => .mark .openParen :: (inner.spelling ++ [.mark .closeParen])
  | _, bare _ operand => operand.spelling
  | _, join _ op _ _ left right => left.spelling ++ .mark op.mark :: right.spelling
  | _, compare op _ left right => left.spelling ++ .mark op.mark :: right.spelling

def enclosed (e : Expression) : List Token :=
  .mark .openParen :: (e.spelling ++ [.mark .closeParen])

end Expr

def Declarator.spelling : Declarator → List Token
  | plain name => [.name name]
  | initialized name value => .name name :: .mark .assign :: value.spelling
  | array name size _ =>
    [.name name, .mark .openBracket, .integer size, .mark .closeBracket]

def Declarator.furtherSpelling (others : List Declarator) : List Token :=
  others.flatMap fun declarator => .mark .comma :: declarator.spelling

def Scalar.mark : Scalar → Mark
  | int => .int
  | float => .float
  | boolean => .boolean

def Declaration.spelling (d : Declaration) : List Token :=
  .mark d.type.mark :: (d.first.spelling ++ (Declarator.furtherSpelling d.others ++
    [.mark .semicolon]))

namespace Statement

def spelling : {extent : Extent} → Statement extent → List Token
  | _, declare declaration => declaration.spelling
  | _, assign name value =>
    .name name :: .mark .assign :: (value.spelling ++ [.mark .semicolon])
  | _, update name index value =>
    .name name :: .mark .openBracket :: (index.spelling ++ .mark .closeBracket ::
      .mark .assign :: (value.spelling ++ [.mark .semicolon]))
  | _, print value => .mark .print :: (value.enclosed ++ [.mark .semicolon])
  | _, ifThen condition body => .mark .if :: (condition.enclosed ++ body.spelling)
  | _, ifElse condition yes no =>
    .mark .if :: (condition.enclosed ++ (yes.spelling ++ .mark .else :: no.spelling))
  | _, whileDo condition body => .mark .while :: (condition.enclosed ++ body.spelling)
  | _, doWhile body condition =>
    .mark .do :: (body.spelling ++ .mark .while :: (condition.enclosed ++ [.mark .semicolon]))
  | _, block body => .mark .openBrace :: (body.spelling ++ [.mark .closeBrace])
  | _, nil => []
  | _, cons first rest => first.spelling ++ rest.spelling

/-- Whether an `else` behind the instruction would belong to it. -/
def isOpen : {extent : Extent} → Statement extent → Bool
  | _, ifThen _ _ => true
  | _, ifElse _ _ no => no.isOpen
  | _, whileDo _ body => body.isOpen
  | _, _ => false

/-- Each `else` belongs to the nearest `if` in front of it that has none. -/
def ElseNearest : {extent : Extent} → Statement extent → Prop
  | _, ifThen _ body => body.ElseNearest
  | _, ifElse _ yes no => yes.isOpen = false ∧ yes.ElseNearest ∧ no.ElseNearest
  | _, whileDo _ body => body.ElseNearest
  | _, doWhile body _ => body.ElseNearest
  | _, block body => body.ElseNearest
  | _, cons first rest => first.ElseNearest ∧ rest.ElseNearest
  | _, _ => True

end Statement

namespace Program

def spelling (p : Program) : List Token :=
  .mark .void :: .mark .main :: .mark .openBrace ::
    (p.declarations.flatMap Declaration.spelling ++ (p.body.spelling ++ [.mark .closeBrace]))

end Program

/-- The tokens in front of the first end of input. -/
def sentence (tokens : List Located) : List Token :=
  (tokens.map (·.token)).takeWhile (· ≠ .finish)

/-- A tree that tokens can be read as: it spells them, and each `else` belongs to the
nearest `if`. -/
structure Program.Reads (p : Program) (tokens : List Located) : Prop where
  spelled : p.spelling = sentence tokens
  nearest : p.body.ElseNearest

end OnePass
