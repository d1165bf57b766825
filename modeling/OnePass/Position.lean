/-! Places in a source text: lines and columns, both counted from one, in characters. -/
namespace OnePass

structure Position where
  line : Nat := 1
  column : Nat := 1
  deriving DecidableEq, Repr, Inhabited

namespace Position

/-- The place after one more character: a newline opens the next line. -/
def step (place : Position) (c : Char) : Position :=
  if c = '\n' then ⟨place.line + 1, 1⟩ else ⟨place.line, place.column + 1⟩

def after (place : Position) (text : List Char) : Position := text.foldl step place

@[simp] theorem after_nil (place : Position) : place.after [] = place := rfl

@[simp] theorem after_cons (place : Position) (c : Char) (text : List Char) :
    place.after (c :: text) = (place.step c).after text := rfl

end Position

end OnePass
