/-! What can be wrong with a program, and how that is said. -/
namespace OnePass

inductive Diagnostic where
  | unexpected (line : Nat) (expected found : String)
  | redeclared (line : Nat) (name : String)
  | undeclared (line : Nat) (name : String)
  /-- Text that forms no token. -/
  | lexical (line column : Nat) (message : String)
  /-- Instructions and expressions inside one another past the limit. -/
  | tooDeep (line limit : Nat)
  deriving DecidableEq, Repr, Inhabited

namespace Diagnostic

def line : Diagnostic → Nat
  | unexpected line _ _ => line
  | redeclared line _ => line
  | undeclared line _ => line
  | lexical line _ _ => line
  | tooDeep line _ => line

def message : Diagnostic → String
  | unexpected line expected found =>
    "Error at line " ++ toString line ++ ": " ++ expected ++ " expected, found " ++ found
  | redeclared line name =>
    "Error at line " ++ toString line ++ ": identifier '" ++ name ++ "' is already declared"
  | undeclared line name =>
    "Error at line " ++ toString line ++ ": identifier '" ++ name ++ "' is not declared"
  | lexical line column message =>
    "Lexer error at line " ++ toString line ++ ", column " ++ toString column ++ ": " ++ message
  | tooDeep line limit =>
    "Error at line " ++ toString line ++ ": nesting deeper than " ++ toString limit ++ " levels"

def isSyntactic : Diagnostic → Bool
  | unexpected .. => true
  | _ => false

def isSemantic : Diagnostic → Bool
  | redeclared .. => true
  | undeclared .. => true
  | _ => false

end Diagnostic

end OnePass
