import OnePass.Compilation.State

/-! The grammar as tasks. A task stands for a phrase that is still to be read and for the
code that comes of it; what is left to do is a list of tasks. Performing a task looks at
one token, passes at most that one, and replaces the task by the tasks for its parts. -/
namespace OnePass

/-- The tiers of binary operators, from the loosest to the tightest. -/
inductive Tier where
  | disjunction | conjunction | comparison | sum | product
  deriving DecidableEq, Repr

namespace Tier

def operator? : Tier → Token → Option BinaryOp
  | disjunction, .mark .or => some .or
  | conjunction, .mark .and => some .and
  | comparison, .mark .less => some .less
  | comparison, .mark .lessEqual => some .lessEqual
  | comparison, .mark .greater => some .greater
  | comparison, .mark .greaterEqual => some .greaterEqual
  | comparison, .mark .equal => some .equal
  | comparison, .mark .notEqual => some .notEqual
  | sum, .mark .plus => some .add
  | sum, .mark .minus => some .subtract
  | product, .mark .star => some .multiply
  | product, .mark .slash => some .divide
  | product, .mark .percent => some .remainder
  | _, _ => none

/-- Whether operators of the tier follow one another. Comparisons do not. -/
def chains : Tier → Bool
  | comparison => false
  | _ => true

end Tier

inductive Task where
  | expect (kind : Kind)
  | emit (instruction : Instruction)
  | nested (inner : Task)
  | leave
  | declarations
  | declaration
  | declarator (type : Scalar)
  | declarators (type : Scalar)
  /-- What follows the name in a declarator. -/
  | declared (type : Scalar) (name : String) (line : Nat)
  | arraySize (element : Scalar) (name : String) (line : Nat)
  | declareArray (element : Scalar) (name : String) (line size : Nat)
  | instructions
  | statement
  /-- What follows the condition of an `if`. -/
  | branch
  /-- What follows the first branch of an `if`, at whose end the label stands. -/
  | otherwise (skip : Label)
  /-- What follows the condition of a `while`, in front of which the label stands. -/
  | loopBody (top : Label)
  /-- What follows the condition of a `do`, in front of which the label stands. -/
  | loopTest (top : Label)
  | level (tier : Tier)
  | chain (tier : Tier)
  | operand
  | index
  deriving DecidableEq, Repr

namespace Task

def operandOf : Tier → Task
  | .disjunction => level .conjunction
  | .conjunction => level .comparison
  | .comparison => level .sum
  | .sum => level .product
  | .product => operand

def expression : Task := nested (level .disjunction)

def instruction : Task := nested statement

def pass (m : Mark) : Task := expect (.mark m)

def condition : List Task := [pass .openParen, expression, pass .closeParen]

def program (halting : Bool) : List Task :=
  [pass .void, pass .main, pass .openBrace, declarations, instructions, pass .closeBrace,
   expect .finish] ++ if halting then [emit .halt] else []

def beginsDeclaration : Token → Bool
  | .mark .int => true
  | .mark .float => true
  | .mark .boolean => true
  | _ => false

def beginsInstruction : Token → Bool
  | .name _ => true
  | .mark .print => true
  | .mark .if => true
  | .mark .while => true
  | .mark .do => true
  | .mark .openBrace => true
  | token => beginsDeclaration token

open Compilation

def declaratorList (type : Scalar) : List Task :=
  [declarator type, declarators type, pass .semicolon]

def onDeclaration : Token → Compilation (List Task)
  | .mark .int => do
    advance
    return declaratorList .int
  | .mark .float => do
    advance
    return declaratorList .float
  | .mark .boolean => do
    advance
    return declaratorList .boolean
  | _ => unexpected "type"

def onDeclarator (type : Scalar) (line : Nat) : Token → Compilation (List Task)
  | .name name => do
    advance
    return [declared type name line]
  | _ => unexpected Kind.name.description

def onDeclarators (type : Scalar) : Token → Compilation (List Task)
  | .mark .comma => do
    advance
    return [declarator type, declarators type]
  | _ => return []

/-- A name becomes known before its initial value is read, but that of an array only when
its size has been read. -/
def onDeclared (type : Scalar) (name : String) (line : Nat) : Token → Compilation (List Task)
  | .mark .openBracket => do
    advance
    return [arraySize type name line]
  | .mark .assign => do
    Compilation.declare name (.scalar type) line
    advance
    Compilation.emit (.push (.name name))
    return [expression, emit .store]
  | _ => do
    Compilation.declare name (.scalar type) line
    return []

/-- The size is passed before it is looked at. -/
def onArraySize (element : Scalar) (name : String) (line sizeLine : Nat) :
    Token → Compilation (List Task)
  | .integer size => do
    advance
    if 0 < size then return [pass .closeBracket, declareArray element name line size.toNat]
    else throw (.unexpected sizeLine "positive array size" (Token.integer size).description)
  | _ => unexpected Kind.integer.description

def onStatement (line : Nat) : Token → Compilation (List Task)
  | .name name => do
    advance
    pushName name line
    return [index, pass .assign, expression, emit .store, pass .semicolon]
  | .mark .int => return [declaration]
  | .mark .float => return [declaration]
  | .mark .boolean => return [declaration]
  | .mark .print => do
    advance
    return condition ++ [pass .semicolon, emit .print]
  | .mark .if => do
    advance
    return condition ++ [branch]
  | .mark .while => do
    advance
    let top ← fresh
    Compilation.emit (.label top)
    return condition ++ [loopBody top]
  | .mark .do => do
    advance
    let top ← fresh
    Compilation.emit (.label top)
    return [instruction, pass .while] ++ condition ++ [pass .semicolon, loopTest top]
  | .mark .openBrace => do
    advance
    return [instructions, pass .closeBrace]
  | _ => unexpected "instruction"

/-- An `else` belongs to the nearest `if` that has none. -/
def onOtherwise (skip : Label) : Token → Compilation (List Task)
  | .mark .else => do
    let bottom ← fresh
    Compilation.emit (.goto bottom)
    Compilation.emit (.label skip)
    advance
    return [instruction, emit (.label bottom)]
  | _ => do
    Compilation.emit (.label skip)
    return []

def onChain (tier : Tier) (token : Token) : Compilation (List Task) :=
  match tier.operator? token with
  | some op => do
    advance
    return [operandOf tier, emit (.binary op)] ++ if tier.chains then [chain tier] else []
  | none => return []

def onOperand (line : Nat) : Token → Compilation (List Task)
  | .mark .not => do
    advance
    return [nested operand, emit .not]
  | .mark .openParen => do
    advance
    return [expression, pass .closeParen]
  | .mark .true => do
    advance
    Compilation.emit (.push (.integer 1))
    return []
  | .mark .false => do
    advance
    Compilation.emit (.push (.integer 0))
    return []
  | .integer value => do
    advance
    Compilation.emit (.push (.integer value))
    return []
  | .real value => do
    advance
    Compilation.emit (.push (.real value))
    return []
  | .name name => do
    advance
    pushName name line
    return [index, emit .load]
  | _ => unexpected "'(', literal or identifier"

/-- An index is not a level of its own. -/
def onIndex : Token → Compilation (List Task)
  | .mark .openBracket => do
    advance
    return [level .sum, pass .closeBracket, emit (.binary .add)]
  | _ => return []

/-- Does the part of a task that the lookahead decides, and gives the tasks that are left
of it. -/
def perform (task : Task) : Compilation (List Task) := do
  let s ← get
  let token := s.lookahead.token
  match task with
  | expect kind =>
    Compilation.expect kind
    return []
  | emit instruction =>
    Compilation.emit instruction
    return []
  | nested inner =>
    enter
    return [inner, leave]
  | leave =>
    Compilation.leave
    return []
  | declarations =>
    return if beginsDeclaration token then [declaration, declarations] else []
  | declaration => onDeclaration token
  | declarator type => onDeclarator type s.lookahead.place.line token
  | declarators type => onDeclarators type token
  | declared type name line => onDeclared type name line token
  | arraySize element name line => onArraySize element name line s.line token
  | declareArray element name line size =>
    Compilation.declare name (.array element size) line
    Compilation.emit (.array name element size)
    return []
  | instructions =>
    return if beginsInstruction token then [instruction, instructions] else []
  | statement => onStatement s.lookahead.place.line token
  | branch =>
    let skip ← fresh
    Compilation.emit (.goFalse skip)
    return [instruction, otherwise skip]
  | otherwise skip => onOtherwise skip token
  | loopBody top =>
    let bottom ← fresh
    Compilation.emit (.goFalse bottom)
    return [instruction, emit (.goto top), emit (.label bottom)]
  | loopTest top =>
    let bottom ← fresh
    Compilation.emit (.goFalse bottom)
    Compilation.emit (.goto top)
    Compilation.emit (.label bottom)
    return []
  | level tier => return [operandOf tier, chain tier]
  | chain tier => onChain tier token
  | operand => onOperand s.lookahead.place.line token
  | index => onIndex token

end Task

end OnePass
