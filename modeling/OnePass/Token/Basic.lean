import OnePass.Binary64.Text
import OnePass.Position
import OnePass.Token.Mark

/-! Tokens, their kinds and the words that messages use for them. -/
namespace OnePass

inductive Token where
  | integer (value : Int)
  | real (value : Binary64)
  | name (text : String)
  | mark (mark : Mark)
  | finish
  deriving DecidableEq, Repr, Inhabited

/-- A token without its payload, which is what the grammar looks at. -/
inductive Kind where
  | integer
  | real
  | name
  | mark (mark : Mark)
  | finish
  deriving DecidableEq, Repr, Inhabited

def Kind.description : Kind → String
  | integer => "integer literal"
  | real => "real literal"
  | name => "identifier"
  | mark m => "'" ++ m.spelling ++ "'"
  | finish => "end of input"

namespace Token

def kind : Token → Kind
  | integer _ => .integer
  | real _ => .real
  | name _ => .name
  | mark m => .mark m
  | finish => .finish

/-- The words for a token in a message: its kind, and what it carries. -/
def description : Token → String
  | integer value => Kind.integer.description ++ " " ++ toString value
  | real value => Kind.real.description ++ " " ++ value.text
  | name text => Kind.name.description ++ " '" ++ text ++ "'"
  | mark m => (Kind.mark m).description
  | finish => Kind.finish.description

@[simp] theorem kind_eq_finish_iff (t : Token) : t.kind = .finish ↔ t = .finish := by
  cases t <;> simp [kind]

end Token

structure Located where
  token : Token
  place : Position := {}
  deriving DecidableEq, Repr, Inhabited

namespace Located

def kind (t : Located) : Kind := t.token.kind

/-- One for a token that stands for part of the input, zero for the end of input. -/
def weight (t : Located) : Nat := if t.token = .finish then 0 else 1

end Located

end OnePass
