/-! Binary floating point numbers of 64 bits as words. A finite number is a whole
multiple of the smallest positive one, `2 ^ (-1074)`, so its magnitude is kept as the
natural number of these units and every comparison of magnitudes is exact. -/
namespace OnePass

/-- A 64-bit floating point number, given by its interchange word. -/
structure Binary64 where
  bits : UInt64
  deriving DecidableEq, Repr, Inhabited

namespace Binary64

/-- One unit is `1 / unitsPerOne`. -/
def unitsPerOne : Nat := Nat.pow 2 1074

/-- The first number of units too large for a finite word. -/
def unitsLimit : Nat := Nat.pow 2 2098

def isNegative (x : Binary64) : Bool := x.bits.toNat / Nat.pow 2 63 == 1

def exponentField (x : Binary64) : Nat := x.bits.toNat / Nat.pow 2 52 % Nat.pow 2 11

def fractionField (x : Binary64) : Nat := x.bits.toNat % Nat.pow 2 52

def isFinite (x : Binary64) : Bool := x.exponentField != 2047

def isNaN (x : Binary64) : Bool := x.exponentField == 2047 && x.fractionField != 0

/-- The binary places by which the significand is shifted up from one unit. -/
def shift (x : Binary64) : Nat := x.exponentField - 1

/-- The significand with its leading one, which the word leaves out unless the
exponent field is zero. -/
def significand (x : Binary64) : Nat :=
  if x.exponentField = 0 then x.fractionField else Nat.pow 2 52 + x.fractionField

def units (x : Binary64) : Nat := x.significand * Nat.pow 2 x.shift

def infinity : Binary64 := ⟨0x7ff0000000000000⟩

/-- The shift a significand of 53 bits needs to hold `n` units. -/
def shiftFor (n : Nat) : Nat := n.log2 - 52

/-- The word of the positive number with `n` units. A number of units that needs more
than 53 significant bits is cut off; one at or past the limit gives infinity. The
leading bit of a full significand carries into the exponent field. -/
def ofUnits (n : Nat) : Binary64 :=
  if n < unitsLimit then
    ⟨UInt64.ofNat (shiftFor n * Nat.pow 2 52 + n / Nat.pow 2 (shiftFor n))⟩
  else infinity

end Binary64

end OnePass
