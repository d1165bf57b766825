import OnePass.Binary64.Shortest

/-! The text of a number: its shortest digits, positional in a middle range of sizes and
with an exponent outside it. -/
namespace OnePass.Binary64

/-- How digits are laid out. Places count from the digit before the point. -/
structure Layout where
  lowest : Int
  highest : Int
  notANumber : String
  unbounded : String

/-- Numbers from `0.0001` up to, but without, `1e16` are positional and keep a digit after
the point; the others have a bare exponent and a point only between digits. -/
def layout : Layout where
  lowest := -4
  highest := 15
  notANumber := "NaN"
  unbounded := "inf"

/-- Digits around a point, at least one on each side, for a leading digit at `place`. -/
def positional (digits : List Char) (place : Int) : List Char :=
  if place < 0 then
    '0' :: '.' :: (List.replicate (-place - 1).toNat '0' ++ digits)
  else
    let before := place.toNat + 1
    let whole := digits.take before ++ List.replicate (before - digits.length) '0'
    let fraction := digits.drop before
    whole ++ '.' :: (if fraction.isEmpty then ['0'] else fraction)

/-- One digit, the others after a point, and the place of the first as exponent. -/
def scientific (digits : List Char) (place : Int) : List Char :=
  let fraction := digits.drop 1
  digits.take 1 ++ (if fraction.isEmpty then [] else '.' :: fraction) ++
    'e' :: (toString place).toList

def Decimal.text (l : Layout) (d : Decimal) : String :=
  let digits := Nat.toDigits 10 d.digits
  let place : Int := (d.place + digits.length - 1 : Nat) - (Decimal.finest : Int)
  if l.lowest ≤ place ∧ place ≤ l.highest then String.ofList (positional digits place)
  else String.ofList (scientific digits place)

/-- The text of a number. Zero keeps its sign, a value that is no number has none. -/
def text (x : Binary64) : String :=
  let magnitude :=
    if x.isFinite then
      if x.units = 0 then "0.0" else x.shortest.text layout
    else layout.unbounded
  if x.isNaN then layout.notANumber
  else if x.isNegative then "-" ++ magnitude
  else magnitude

end OnePass.Binary64
