import OnePass.Binary64.Basic

/-! The fewest decimal digits that read back as a given number. The decimals that read as
a finite number fill an interval around it; the first grid of one, two, … seventeen
significant digits with a point in that interval gives the digits. All tests are exact:
decimals are whole multiples of `10 ^ (-340)`, the finest grid that is ever needed. -/
namespace OnePass.Binary64

/-- The decimal `digits * 10 ^ (place - 340)`. -/
structure Decimal where
  digits : Nat
  place : Nat
  deriving DecidableEq, Repr, Inhabited

namespace Decimal

/-- Powers of ten between one and the finest grid. -/
def finest : Nat := 340

/-- The decimal in multiples of the finest grid. -/
def steps (d : Decimal) : Nat := d.digits * Nat.pow 10 d.place

/-- Moves trailing zeros of the digits into the place, at most `fuel` of them. -/
def stripZeros : Nat → Decimal → Decimal
  | 0, d => d
  | fuel + 1, d =>
    if d.digits % 10 = 0 then stripZeros fuel ⟨d.digits / 10, d.place + 1⟩ else d

end Decimal

/-- Decimals and units on one scale: four times a number of units times `10 ^ 340`, so
that the middle between two neighbouring numbers is whole, also below a power of two. -/
def unitsOnScale (n : Nat) : Nat := 4 * n * Nat.pow 10 Decimal.finest

def Decimal.onScale (d : Decimal) : Nat := 4 * d.steps * unitsPerOne

/-- Four times the distance in units to the middle between the number and the next larger one. -/
def gapAbove (x : Binary64) : Nat := 2 * Nat.pow 2 x.shift

/-- Four times the distance in units to the middle between the number and the next smaller
one, which is half as far below the least significand of a binade. -/
def gapBelow (x : Binary64) : Nat :=
  if x.significand = Nat.pow 2 52 ∧ 0 < x.shift then Nat.pow 2 x.shift else 2 * Nat.pow 2 x.shift

/-- Whether a positive decimal reads as the magnitude of a finite number. The middles belong to the
neighbour with the even significand. -/
def readsAs (x : Binary64) (d : Decimal) : Bool :=
  let value := unitsOnScale x.units
  let low := value - x.gapBelow * Nat.pow 10 Decimal.finest
  let high := value + x.gapAbove * Nat.pow 10 Decimal.finest
  if x.significand % 2 = 0 then low ≤ d.onScale && d.onScale ≤ high
  else low < d.onScale && d.onScale < high

/-- The magnitude in whole multiples of the finest grid, rounded down. -/
def stepsBelow (x : Binary64) : Nat := x.units * Nat.pow 10 Decimal.finest / unitsPerOne

def leadingPlace (x : Binary64) : Nat := (Nat.toDigits 10 x.stepsBelow).length - 1

/-- The nearest decimal with its last digit at `place` that reads back. If both neighbours
on the grid do and are equally near, the larger one is taken. -/
def onGrid? (x : Binary64) (place : Nat) : Option Decimal :=
  let below : Decimal := ⟨x.stepsBelow / Nat.pow 10 place, place⟩
  let above : Decimal := ⟨below.digits + 1, place⟩
  let value := unitsOnScale x.units
  match x.readsAs below, x.readsAs above with
  | true, true =>
    if value - below.onScale < above.onScale - value then some below else some above
  | true, false => some below
  | false, true => some above
  | false, false => none

/-- The shortest decimal that reads as the magnitude of a finite number other than zero.
Seventeen digits always suffice, so the last default is not reached. -/
def shortest (x : Binary64) : Decimal :=
  let leading := x.leadingPlace
  let found := (List.range 17).findSome? fun further => x.onGrid? (leading - further)
  (found.getD ⟨x.stepsBelow, 0⟩).stripZeros leading

end OnePass.Binary64
