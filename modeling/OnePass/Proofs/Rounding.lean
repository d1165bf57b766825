import Mathlib
import OnePass.Binary64.Reading
import OnePass.Binary64.Shortest

/-! Reading a number back. The decimals of the interval around a number are read as that number,
and the shortest digits of a number lie in its interval, so that different numbers have different
shortest digits. -/
namespace OnePass.Binary64

variable {x : Binary64} {num den m s : Nat}

/-! A number below infinity is given by its significand and shift, and these by its units. -/

theorem significand_lt (x : Binary64) : x.significand < 2 ^ 53 := by
  have fraction : x.fractionField < 2 ^ 52 := Nat.mod_lt _ (by decide)
  unfold significand
  simp only [Nat.pow_eq]
  split <;> omega

theorem le_significand (x : Binary64) (shifted : 0 < x.shift) : 2 ^ 52 ≤ x.significand := by
  unfold shift at shifted
  unfold significand
  rw [if_neg (by omega)]
  exact Nat.le_add_right _ _

theorem toNat_infinity : infinity.bits.toNat = 2047 * 2 ^ 52 := rfl

theorem exponentField_of_below (below : x.bits < infinity.bits) :
    x.exponentField = x.bits.toNat / 2 ^ 52 ∧ x.exponentField ≤ 2046 := by
  have bound := UInt64.lt_iff_toNat_lt.mp below
  rw [toNat_infinity] at bound
  have quotient : x.bits.toNat / 2 ^ 52 < 2047 := (Nat.div_lt_iff_lt_mul (by decide)).mpr bound
  have whole : x.exponentField = x.bits.toNat / 2 ^ 52 := by
    unfold exponentField
    simp only [Nat.pow_eq]
    exact Nat.mod_eq_of_lt (by omega)
  exact ⟨whole, by omega⟩

theorem toNat_bits (below : x.bits < infinity.bits) :
    x.bits.toNat = x.shift * 2 ^ 52 + x.significand := by
  obtain ⟨exponent, _⟩ := exponentField_of_below below
  have fraction : x.fractionField = x.bits.toNat % 2 ^ 52 := rfl
  unfold shift significand
  simp only [Nat.pow_eq]
  split <;> omega

theorem shift_le (below : x.bits < infinity.bits) : x.shift ≤ 2045 := by
  have bound := (exponentField_of_below below).2
  unfold shift
  omega

theorem shiftFor_eq {n : Nat} (low : s = 0 ∨ 2 ^ (52 + s) ≤ n) (high : n < 2 ^ (53 + s)) :
    shiftFor n = s := by
  unfold shiftFor
  rcases Nat.eq_zero_or_pos n with rfl | positive
  · rcases low with rfl | low
    · rfl
    · have := Nat.two_pow_pos (52 + s)
      omega
  · have upper : n.log2 < 53 + s := (Nat.log2_lt positive.ne').mpr high
    rcases low with rfl | low
    · omega
    · have lower : 52 + s ≤ n.log2 := (Nat.le_log2 positive.ne').mpr low
      omega

theorem unitsLimit_eq : unitsLimit = 2 ^ 2098 := Nat.pow_eq

theorem ofUnits_of_significand (narrow : m < 2 ^ 53) (full : s = 0 ∨ 2 ^ 52 ≤ m)
    (small : s ≤ 2045) :
    ofUnits (m * 2 ^ s) = ⟨UInt64.ofNat (s * 2 ^ 52 + m)⟩ := by
  have power : 0 < 2 ^ s := Nat.two_pow_pos s
  have high : m * 2 ^ s < 2 ^ (53 + s) := by
    rw [pow_add]
    exact Nat.mul_lt_mul_of_pos_right narrow power
  have low : s = 0 ∨ 2 ^ (52 + s) ≤ m * 2 ^ s := by
    refine full.imp_right fun full => ?_
    rw [pow_add]
    exact Nat.mul_le_mul_right _ full
  have within : m * 2 ^ s < unitsLimit := by
    rw [unitsLimit_eq]
    exact high.trans_le (Nat.pow_le_pow_right (by decide) (by omega))
  unfold ofUnits
  rw [if_pos within, shiftFor_eq low high]
  simp only [Nat.pow_eq, Nat.mul_div_cancel _ power]

theorem ofUnits_units (below : x.bits < infinity.bits) : ofUnits x.units = x := by
  have full : x.shift = 0 ∨ 2 ^ 52 ≤ x.significand := by
    rcases Nat.eq_zero_or_pos x.shift with zero | shifted
    · exact Or.inl zero
    · exact Or.inr (x.le_significand shifted)
  unfold units
  simp only [Nat.pow_eq]
  rw [ofUnits_of_significand x.significand_lt full (shift_le below), ← toNat_bits below,
    UInt64.ofNat_toNat]

theorem div_shiftFor_lt (n : Nat) : n / 2 ^ shiftFor n < 2 ^ 53 := by
  have size : n < 2 ^ (n.log2 + 1) := Nat.lt_log2_self
  rw [Nat.div_lt_iff_lt_mul (Nat.two_pow_pos _), ← pow_add]
  refine size.trans_le (Nat.pow_le_pow_right (by decide) ?_)
  unfold shiftFor
  omega

/-- Every number of units gives a number below infinity, or infinity. -/
theorem ofUnits_below (n : Nat) : (ofUnits n).bits < infinity.bits ∨ ofUnits n = infinity := by
  unfold ofUnits
  split
  · rename_i within
    rw [unitsLimit_eq] at within
    have small : shiftFor n ≤ 2045 := by
      have bound : n.log2 < 2098 := by
        rcases Nat.eq_zero_or_pos n with rfl | positive
        · decide
        · exact (Nat.log2_lt positive.ne').mpr within
      unfold shiftFor
      omega
    have narrow := div_shiftFor_lt n
    left
    rw [UInt64.lt_iff_toNat_lt, toNat_infinity, UInt64.toNat_ofNat_of_lt'] <;>
      simp only [Nat.pow_eq, UInt64.size] <;> omega
  · exact Or.inr rfl

/-! Rounding. -/

/-- No whole number is nearer to the fraction, and if another is as near, this one is even. -/
structure Nearest (num den m : Nat) : Prop where
  low : 2 * (m * den) ≤ 2 * num + den
  high : 2 * num ≤ 2 * (m * den) + den
  even : 2 * (m * den) = 2 * num + den ∨ 2 * num = 2 * (m * den) + den → m % 2 = 0

theorem Nearest.roundQuotient_eq (positive : 0 < den) (nearest : Nearest num den m) :
    roundQuotient num den = m := by
  have split := Nat.div_add_mod num den
  have small := Nat.mod_lt num positive
  obtain ⟨low, high, even⟩ := nearest
  unfold roundQuotient
  dsimp only
  generalize num % den = rest at *
  generalize num / den = floor at *
  have near : m = floor ∨ m = floor + 1 := by
    have atLeast : floor ≤ m := by
      by_contra fewer
      have gap := Nat.mul_le_mul_right den (show m + 1 ≤ floor by omega)
      rw [Nat.add_mul, Nat.mul_comm floor] at gap
      omega
    have atMost : m ≤ floor + 1 := by
      by_contra more
      have gap := Nat.mul_le_mul_right den (show floor + 2 ≤ m by omega)
      rw [Nat.add_mul, Nat.mul_comm floor] at gap
      omega
    omega
  rcases near with rfl | rfl
  · rw [Nat.mul_comm den] at split
    split_ifs <;> omega
  · rw [Nat.mul_comm den] at split
    rw [Nat.add_mul] at low high even
    split_ifs <;> omega

/-- The fraction lies in the interval of a number, whose ends belong to it if the significand is
even. -/
structure Covers (x : Binary64) (num den : Nat) : Prop where
  low : 4 * (x.units * den) ≤ 4 * num + x.gapBelow * den
  high : 4 * num ≤ 4 * (x.units * den) + x.gapAbove * den
  even : 4 * (x.units * den) = 4 * num + x.gapBelow * den ∨
    4 * num = 4 * (x.units * den) + x.gapAbove * den → x.significand % 2 = 0

theorem units_eq (x : Binary64) : x.units = x.significand * 2 ^ x.shift := rfl

theorem roundUnits_of_nearest (positive : 0 < den) (low : s = 0 ∨ 2 ^ 52 * (2 ^ s * den) ≤ num)
    (high : num < 2 ^ 53 * (2 ^ s * den)) (nearest : Nearest num (2 ^ s * den) m) :
    roundUnits num den = m * 2 ^ s := by
  have shift : shiftFor (num / den) = s := by
    refine shiftFor_eq (low.imp_right fun low => ?_) ?_
    · rw [Nat.le_div_iff_mul_le positive, pow_add, Nat.mul_assoc]
      exact low
    · rw [Nat.div_lt_iff_lt_mul positive, pow_add, Nat.mul_assoc]
      exact high
  unfold roundUnits
  dsimp only
  rw [shift, Nat.pow_eq, Nat.mul_comm den, nearest.roundQuotient_eq (by positivity)]

/-- Below a power of two the numbers are twice as dense. A fraction that is rounded up to one from
there has the shift of the numbers below. -/
theorem Covers.roundUnits_of_binade (positive : 0 < den) (covers : x.Covers num den)
    (least : x.significand = 2 ^ 52) (shifted : 0 < x.shift) (under : num < x.units * den) :
    roundUnits num den = x.units := by
  obtain ⟨s, shift⟩ : ∃ s, x.shift = s + 1 := ⟨x.shift - 1, by omega⟩
  obtain ⟨step, grid⟩ : ∃ step, 2 ^ s * den = step := ⟨_, rfl⟩
  have units : x.units = 2 ^ 53 * 2 ^ s := by
    rw [units_eq, least, shift]
    ring
  have value : x.units * den = 2 ^ 53 * step := by
    rw [units, Nat.mul_assoc, grid]
  have gap : x.gapBelow * den = 2 * step := by
    have half : x.gapBelow = 2 ^ x.shift := if_pos ⟨least, shifted⟩
    rw [half, shift, ← grid]
    ring
  have low := covers.low
  rw [value] at low under
  rw [gap] at low
  rw [units]
  refine roundUnits_of_nearest positive (Or.inr ?_) ?_ ⟨?_, ?_, ?_⟩ <;> rw [grid] <;> omega

theorem Covers.roundUnits_eq (positive : 0 < den) (covers : x.Covers num den) :
    roundUnits num den = x.units := by
  by_cases binade : x.significand = 2 ^ 52 ∧ 0 < x.shift ∧ num < x.units * den
  · exact covers.roundUnits_of_binade positive binade.1 binade.2.1 binade.2.2
  -- Otherwise the fraction has the shift of the number and is rounded on the number's own grid.
  obtain ⟨step, grid⟩ : ∃ step, 2 ^ x.shift * den = step := ⟨_, rfl⟩
  have size : 0 < step := by
    rw [← grid]
    positivity
  have value : x.units * den = x.significand * step := by
    rw [units_eq, Nat.mul_assoc, grid]
  have above : x.gapAbove * den = 2 * step := by
    rw [← grid, ← Nat.mul_assoc]
    rfl
  have below : x.gapBelow * den = 2 * step ∨
      x.gapBelow * den = step ∧ x.significand = 2 ^ 52 := by
    unfold gapBelow
    split
    · rename_i least
      exact Or.inr ⟨grid, least.1⟩
    · exact Or.inl above
  obtain ⟨low, high, even⟩ := covers
  rw [value] at low high even binade
  rw [above] at high even
  have narrow : x.significand * step ≤ (2 ^ 53 - 1) * step :=
    Nat.mul_le_mul_right _ (Nat.le_sub_one_of_lt x.significand_lt)
  refine roundUnits_of_nearest positive ?_ ?_ ⟨?_, ?_, ?_⟩
  · rcases Nat.eq_zero_or_pos x.shift with zero | shifted
    · exact Or.inl zero
    right
    rw [grid]
    rcases (x.le_significand shifted).eq_or_lt with least | more
    · rw [← least] at binade
      omega
    · have full : (2 ^ 52 + 1) * step ≤ x.significand * step := Nat.mul_le_mul_right _ more
      omega
  all_goals rw [grid]; omega

/-! The shortest digits. -/

theorem finest_pos : 0 < Nat.pow 10 Decimal.finest := Nat.pow_pos (by decide)

theorem covers_of_readsAs {d : Decimal} (reads : x.readsAs d = true) :
    x.Covers (d.steps * unitsPerOne) (Nat.pow 10 Decimal.finest) := by
  unfold readsAs unitsOnScale Decimal.onScale at reads
  -- The powers stay unevaluated.
  generalize Nat.pow 10 Decimal.finest = scale at *
  generalize unitsPerOne = one at *
  simp only [Nat.mul_assoc] at reads
  split at reads
  · rename_i even
    rw [Bool.and_eq_true, decide_eq_true_eq, decide_eq_true_eq] at reads
    exact ⟨by omega, by omega, fun _ => even⟩
  · rw [Bool.and_eq_true, decide_eq_true_eq, decide_eq_true_eq] at reads
    exact ⟨by omega, by omega, by omega⟩

theorem ofDecimal_of_readsAs {d : Decimal} (below : x.bits < infinity.bits)
    (reads : x.readsAs d = true) : ofDecimal d.steps Decimal.finest = x := by
  rw [ofDecimal, (covers_of_readsAs reads).roundUnits_eq finest_pos, ofUnits_units below]

theorem readsAs_of_onGrid? {place : Nat} {d : Decimal} (found : x.onGrid? place = some d) :
    x.readsAs d = true := by
  unfold onGrid? at found
  dsimp only at found
  split at found
  · rename_i lower upper
    split at found
    · exact Option.some.inj found ▸ lower
    · exact Option.some.inj found ▸ upper
  · rename_i lower _
    exact Option.some.inj found ▸ lower
  · rename_i _ upper
    exact Option.some.inj found ▸ upper
  · cases found

/-- The finest grid is finer than the interval of any number. -/
theorem four_units_lt_finest : 4 * unitsPerOne < Nat.pow 10 Decimal.finest := by decide +kernel

theorem gapBelow_pos (x : Binary64) : 0 < x.gapBelow := by
  unfold gapBelow
  simp only [Nat.pow_eq]
  split <;> positivity

theorem units_pos (odd : x.significand % 2 ≠ 0) : 0 < x.units := by
  rw [units_eq]
  exact Nat.mul_pos (by omega) (Nat.two_pow_pos _)

theorem readsAs_stepsBelow (x : Binary64) : x.readsAs ⟨x.stepsBelow, 0⟩ = true := by
  have fine := four_units_lt_finest
  have scale : 0 < unitsPerOne := Nat.pow_pos (by decide)
  have steps : Decimal.steps ⟨x.stepsBelow, 0⟩ = x.stepsBelow := Nat.mul_one _
  have above : 0 < x.gapAbove := Nat.mul_pos (by decide) (Nat.two_pow_pos _)
  unfold readsAs unitsOnScale Decimal.onScale
  rw [steps]
  unfold stepsBelow
  generalize Nat.pow 10 Decimal.finest = finest at *
  generalize unitsPerOne = one at *
  have rounded := Nat.div_add_mod (x.units * finest) one
  have rest := Nat.mod_lt (x.units * finest) scale
  have low := Nat.mul_le_mul_right finest x.gapBelow_pos
  have high := Nat.mul_le_mul_right finest above
  rw [Nat.mul_comm one] at rounded
  simp only [Nat.mul_assoc]
  split
  · rw [Bool.and_eq_true, decide_eq_true_eq, decide_eq_true_eq]
    omega
  · rename_i odd
    have value := Nat.mul_le_mul_right finest (units_pos odd)
    rw [Bool.and_eq_true, decide_eq_true_eq, decide_eq_true_eq]
    omega

theorem Decimal.steps_stripZeros (fuel : Nat) (d : Decimal) :
    (stripZeros fuel d).steps = d.steps := by
  induction fuel generalizing d with
  | zero => rfl
  | succ fuel ih =>
    unfold stripZeros
    split
    · rename_i round
      have tens : d.digits / 10 * 10 = d.digits := Nat.div_mul_cancel (Nat.dvd_of_mod_eq_zero round)
      rw [ih]
      unfold steps
      simp only [Nat.pow_eq]
      rw [pow_succ', ← Nat.mul_assoc, tens]
    · rfl

/-- The shortest digits of a number are read as that number. -/
theorem ofDecimal_shortest (below : x.bits < infinity.bits) :
    ofDecimal x.shortest.steps Decimal.finest = x := by
  unfold shortest
  dsimp only
  rw [Decimal.steps_stripZeros]
  cases found : (List.range 17).findSome? fun further => x.onGrid? (x.leadingPlace - further) with
  | none => exact ofDecimal_of_readsAs below x.readsAs_stepsBelow
  | some d =>
    obtain ⟨further, _, onGrid⟩ := List.exists_of_findSome?_eq_some found
    exact ofDecimal_of_readsAs below (readsAs_of_onGrid? onGrid)

theorem ofDecimal_zero : ofDecimal 0 Decimal.finest = ⟨0⟩ :=
  ofDecimal_of_readsAs (d := ⟨0, 0⟩) (by decide) (by decide +kernel)

theorem eq_zero_of_units (below : x.bits < infinity.bits) (zero : x.units = 0) : x = ⟨0⟩ := by
  have units : (⟨0⟩ : Binary64).units = 0 := by decide
  rw [← ofUnits_units below, zero, ← units]
  exact ofUnits_units (by decide)

end OnePass.Binary64
