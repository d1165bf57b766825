/-! Marks: the words and signs of the language that have one fixed spelling. -/
namespace OnePass

inductive Mark where
  | void | main | int | float | boolean
  | if | else | while | do | print | true | false
  | plus | minus | star | slash | percent
  | equal | notEqual | less | lessEqual | greater | greaterEqual
  | and | or | not | assign
  | openParen | closeParen | openBrace | closeBrace | openBracket | closeBracket
  | semicolon | comma
  deriving DecidableEq, Repr, Inhabited

namespace Mark

def spelling : Mark → String
  | void => "void"
  | main => "main"
  | int => "int"
  | float => "float"
  | boolean => "boolean"
  | .if => "if"
  | .else => "else"
  | .while => "while"
  | .do => "do"
  | print => "print"
  | .true => "true"
  | .false => "false"
  | plus => "+"
  | minus => "-"
  | star => "*"
  | slash => "/"
  | percent => "%"
  | equal => "=="
  | notEqual => "!="
  | less => "<"
  | lessEqual => "<="
  | greater => ">"
  | greaterEqual => ">="
  | and => "&&"
  | or => "||"
  | not => "!"
  | assign => "="
  | openParen => "("
  | closeParen => ")"
  | openBrace => "\x7b"
  | closeBrace => "\x7d"
  | openBracket => "["
  | closeBracket => "]"
  | semicolon => ";"
  | comma => ","

def keywords : List Mark :=
  [void, main, int, float, boolean, .if, .else, .while, .do, print, .true, .false]

/-- The marks spelled with signs. Those of two characters stand first, so the first one
that a text begins with is the longest. -/
def signs : List Mark :=
  [equal, notEqual, lessEqual, greaterEqual, and, or,
   plus, minus, star, slash, percent, less, greater, not, assign,
   openParen, closeParen, openBrace, closeBrace, openBracket, closeBracket, semicolon, comma]

def ofWord? (word : String) : Option Mark := keywords.find? (·.spelling == word)

/-- The longest sign that a text begins with. -/
def leading? (text : List Char) : Option Mark :=
  signs.find? (·.spelling.toList.isPrefixOf text)

theorem spelling_ne_nil (m : Mark) : m.spelling.toList ≠ [] := by cases m <;> decide

theorem leading?_isPrefix {text : List Char} {m : Mark} (found : leading? text = some m) :
    m.spelling.toList <+: text := by
  have matched := List.find?_some found
  simpa using matched

end Mark

end OnePass
