/-! Jump targets. Labels are numbered in the order in which they are made, and their text
is the number behind a stem that all labels of a program share. -/
namespace OnePass

structure Label where
  stem : String
  number : Nat
  deriving DecidableEq, Repr, Inhabited

def Label.text (label : Label) : String := label.stem ++ toString label.number

/-- A supply of labels that never gives the same one twice. -/
structure LabelSupply where
  stem : String := ""
  /-- The number of the next label. Numbers have no bound here; a counter of one word gives the same
  labels as long as it stays below `2 ^ 64`. -/
  next : Nat := 0
  deriving DecidableEq, Repr, Inhabited

def LabelSupply.fresh (supply : LabelSupply) : Label × LabelSupply :=
  (⟨supply.stem, supply.next⟩, ⟨supply.stem, supply.next + 1⟩)

end OnePass
