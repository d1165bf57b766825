import OnePass.Binary64.Text
import OnePass.Code.Label
import OnePass.DataType

/-! The instructions of the stack machine and their text. -/
namespace OnePass

inductive BinaryOp where
  | add | subtract | multiply | divide | remainder
  | less | lessEqual | greater | greaterEqual | equal | notEqual
  | and | or
  deriving DecidableEq, Repr, Inhabited

def BinaryOp.text : BinaryOp → String
  | add => "+"
  | subtract => "-"
  | multiply => "*"
  | divide => "/"
  | remainder => "%"
  | less => "<"
  | lessEqual => "<="
  | greater => ">"
  | greaterEqual => ">="
  | equal => "=="
  | notEqual => "!="
  | and => "&&"
  | or => "||"

/-- What a push puts on the stack: a value, or the address of a name. -/
inductive Operand where
  | integer (value : Int)
  | real (value : Binary64)
  | name (spelled : String)
  deriving DecidableEq, Repr, Inhabited

def Operand.text : Operand → String
  | integer value => toString value
  | real value => value.text
  | name spelled => spelled

inductive Instruction where
  | push (operand : Operand)
  /-- Replaces an address by the value stored there. -/
  | load
  /-- Takes a value and the address below it, and stores the one at the other. -/
  | store
  | binary (op : BinaryOp)
  | not
  | print
  /-- Reserves the elements of an array. -/
  | array (name : String) (element : Scalar) (size : Nat)
  | label (defined : Label)
  | goto (target : Label)
  /-- Takes a value, and jumps if it is false. -/
  | goFalse (target : Label)
  | halt
  deriving DecidableEq, Repr, Inhabited

def Instruction.text : Instruction → String
  | push operand => "push " ++ operand.text
  | load => "load"
  | store => "store"
  | binary op => op.text
  | not => "!"
  | print => "print"
  | array name element size => "array " ++ name ++ " " ++ element.text ++ " " ++ toString size
  | label defined => "label " ++ defined.text ++ ":"
  | goto target => "goto label " ++ target.text
  | goFalse target => "gofalse label " ++ target.text
  | halt => "halt"

/-- The pieces in which the text is written: fixed words, and the operands between them. -/
def Instruction.pieces : Instruction → List String
  | push operand => ["push ", operand.text]
  | array name element size => ["array ", name, " ", element.text, " ", toString size]
  | label defined => ["label ", defined.text, ":"]
  | goto target => ["goto label ", target.text]
  | goFalse target => ["gofalse label ", target.text]
  | bare => [bare.text]

end OnePass
