import OnePass.Binary64.Basic

/-! Correctly rounded reading of decimals: the number nearest to the exact value, of two
equally near ones the one with the even significand, and infinity past the largest. -/
namespace OnePass.Binary64

/-- The whole number nearest to `num / den`; a half goes to the even neighbour. -/
def roundQuotient (num den : Nat) : Nat :=
  let floor := num / den
  let twice := 2 * (num % den)
  if twice < den then floor
  else if den < twice then floor + 1
  else floor + floor % 2

/-- The multiple of a power of two nearest to `num / den` that has at most 53 significant
bits. Rounding up may carry into a 54th bit, which leaves a power of two. -/
def roundUnits (num den : Nat) : Nat :=
  let shift := shiftFor (num / den)
  roundQuotient num (den * Nat.pow 2 shift) * Nat.pow 2 shift

/-- The number nearest to `digits / 10 ^ places`. -/
def ofDecimal (digits places : Nat) : Binary64 :=
  ofUnits (roundUnits (digits * unitsPerOne) (Nat.pow 10 places))

end OnePass.Binary64
