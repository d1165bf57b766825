/-! The types of declared names. -/
namespace OnePass

inductive Scalar where
  | int | float | boolean
  deriving DecidableEq, Repr, Inhabited

def Scalar.text : Scalar → String
  | int => "int"
  | float => "float"
  | boolean => "boolean"

inductive DataType where
  | scalar (type : Scalar)
  | array (element : Scalar) (size : Nat)
  deriving DecidableEq, Repr, Inhabited

def DataType.text : DataType → String
  | scalar type => type.text
  | array element size => "array(" ++ element.text ++ ", " ++ toString size ++ ")"

end OnePass
