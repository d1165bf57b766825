import Mathlib
import OnePass.Proofs.Rounding

/-! Reading a decimal is correct rounding: of all numbers the one nearest to the exact value, and of
two equally near ones the one with the even significand. Infinity stands in this for the power of
two behind the largest number, so that a decimal from half way there on is read as infinity. -/
namespace OnePass.Binary64

/-- The exact value of a number that is not negative, and of infinity the power of two that its
word would have as a number. -/
def value (x : Binary64) : ℚ := x.units / unitsPerOne

structure Rounds (exact : ℚ) (x : Binary64) : Prop where
  within : x.bits ≤ infinity.bits
  nearest : ∀ y : Binary64, y.bits ≤ infinity.bits → |x.value - exact| ≤ |y.value - exact|
  even : ∀ y : Binary64, y.bits ≤ infinity.bits → y ≠ x →
    |x.value - exact| = |y.value - exact| → x.significand % 2 = 0

/-! The numbers in order. -/

/-- The words of the numbers up to infinity count them. -/
def nth (n : Nat) : Binary64 := ⟨UInt64.ofNat n⟩

def top : Nat := 2047 * 2 ^ 52

theorem le_infinity_iff {x : Binary64} : x.bits ≤ infinity.bits ↔ x.bits.toNat ≤ top := by
  rw [UInt64.le_iff_toNat_le, toNat_infinity]
  rfl

theorem toNat_nth {n : Nat} (small : n ≤ top) : (nth n).bits.toNat = n := by
  unfold top at small
  exact UInt64.toNat_ofNat_of_lt' (by unfold UInt64.size; omega)

theorem nth_toNat (x : Binary64) : nth x.bits.toNat = x := by
  unfold nth
  rw [UInt64.ofNat_toNat]

/-- A word is read off its shift and significand. -/
theorem nth_fields {n m s : Nat} (small : n ≤ top) (parts : n = s * 2 ^ 52 + m)
    (narrow : m < 2 ^ 53)
    (full : s = 0 ∨ 2 ^ 52 ≤ m) : (nth n).shift = s ∧ (nth n).significand = m := by
  have word := toNat_nth small
  have exponent : (nth n).exponentField = n / 2 ^ 52 := by
    unfold exponentField top at *
    rw [word]
    simp only [Nat.pow_eq]
    omega
  have fraction : (nth n).fractionField = n % 2 ^ 52 := by
    unfold fractionField
    rw [word]
    simp only [Nat.pow_eq]
  unfold shift significand
  rw [exponent, fraction]
  simp only [Nat.pow_eq]
  split <;> omega

theorem exists_fields {n : Nat} (small : n ≤ top) :
    n = (nth n).shift * 2 ^ 52 + (nth n).significand ∧
      ((nth n).shift = 0 ∨ 2 ^ 52 ≤ (nth n).significand) := by
  rcases Nat.lt_or_ge n (2 ^ 52) with low | high
  · obtain ⟨shift, significand⟩ := nth_fields (n := n) (m := n) (s := 0) small (by omega) (by omega)
      (Or.inl rfl)
    rw [shift, significand]
    omega
  · obtain ⟨shift, significand⟩ := nth_fields (n := n) (m := 2 ^ 52 + n % 2 ^ 52)
      (s := n / 2 ^ 52 - 1) small (by omega) (by omega) (Or.inr (by omega))
    rw [shift, significand]
    omega

theorem significand_mod (n : Nat) (small : n ≤ top) : (nth n).significand % 2 = n % 2 := by
  have parts := (exists_fields small).1
  omega

/-- From one number to the next it is one step at the shift of the first. -/
theorem units_succ {n : Nat} (small : n < top) :
    (nth (n + 1)).units = (nth n).units + 2 ^ (nth n).shift ∧
      (nth (n + 1)).gapBelow = 2 * 2 ^ (nth n).shift := by
  obtain ⟨parts, full⟩ := exists_fields small.le
  have narrow := (nth n).significand_lt
  unfold gapBelow
  simp only [units_eq, Nat.pow_eq]
  generalize (nth n).shift = s at *
  generalize (nth n).significand = m at *
  rcases Nat.lt_or_ge (m + 1) (2 ^ 53) with inside | carried
  · obtain ⟨shift, significand⟩ := nth_fields (n := n + 1) (m := m + 1) (s := s) small (by omega)
      inside (by omega)
    rw [shift, significand, if_neg (by omega)]
    exact ⟨by ring, rfl⟩
  · obtain ⟨shift, significand⟩ := nth_fields (n := n + 1) (m := 2 ^ 52) (s := s + 1) small
      (by omega) (by omega) (Or.inr le_rfl)
    obtain rfl : m = 2 ^ 53 - 1 := by omega
    rw [shift, significand, if_pos ⟨rfl, by omega⟩]
    exact ⟨by ring, by ring⟩

theorem units_lt {n k : Nat} (less : n < k) (small : k ≤ top) : (nth n).units < (nth k).units := by
  induction k, less using Nat.le_induction with
  | base =>
    rw [(units_succ (Nat.lt_of_succ_le small)).1]
    exact Nat.lt_add_of_pos_right (Nat.two_pow_pos _)
  | succ k _ ih =>
    have step := (units_succ (Nat.lt_of_succ_le small)).1
    have power := Nat.two_pow_pos (nth k).shift
    have before := ih (by omega)
    omega

/-! Distances, in multiples of the unit over the denominator. -/

def gap (num den : Nat) (x : Binary64) : Nat := ((x.units * den : Nat) - (num : Int)).natAbs

variable {num den : Nat} {x y : Binary64}

theorem unitsPerOne_pos : 0 < unitsPerOne := by
  unfold unitsPerOne
  exact Nat.two_pow_pos _

theorem distance_eq (positive : 0 < den) (x : Binary64) :
    |x.value - num / den / unitsPerOne| = gap num den x / (den * unitsPerOne) := by
  have one : (0 : ℚ) < unitsPerOne := Nat.cast_pos.mpr unitsPerOne_pos
  have den' : (0 : ℚ) < den := Nat.cast_pos.mpr positive
  have difference : x.value - num / den / unitsPerOne =
      (((x.units * den : Nat) - (num : Int) : Int) : ℚ) / (den * unitsPerOne) := by
    unfold value
    push_cast
    field_simp
  rw [difference, abs_div, abs_of_pos (mul_pos den' one), gap, ← Int.cast_abs, Int.abs_eq_natAbs,
    Int.cast_natCast]

/-- Rounding in whole numbers. -/
theorem rounds_iff_gap (positive : 0 < den) :
    Rounds (num / den / unitsPerOne) x ↔ x.bits ≤ infinity.bits ∧
      (∀ n ≤ top, gap num den x ≤ gap num den (nth n)) ∧
      ∀ n ≤ top, nth n ≠ x → gap num den x = gap num den (nth n) → x.significand % 2 = 0 := by
  have scale : (0 : ℚ) < den * unitsPerOne :=
    mul_pos (Nat.cast_pos.mpr positive) (Nat.cast_pos.mpr unitsPerOne_pos)
  have le (y : Binary64) :
      |x.value - num / den / unitsPerOne| ≤ |y.value - num / den / unitsPerOne| ↔
      gap num den x ≤ gap num den y := by
    rw [distance_eq positive, distance_eq positive, div_le_div_iff_of_pos_right scale, Nat.cast_le]
  have eq (y : Binary64) :
      |x.value - num / den / unitsPerOne| = |y.value - num / den / unitsPerOne| ↔
      gap num den x = gap num den y := by
    rw [distance_eq positive, distance_eq positive, div_left_inj' scale.ne', Nat.cast_inj]
  have below {n : Nat} (small : n ≤ top) : (nth n).bits ≤ infinity.bits :=
    le_infinity_iff.mpr ((toNat_nth small).trans_le small)
  constructor
  · intro rounds
    refine ⟨rounds.within, fun n small => (le _).mp (rounds.nearest _ (below small)), ?_⟩
    intro n small other tie
    exact rounds.even _ (below small) other ((eq _).mpr tie)
  · rintro ⟨within, nearest, even⟩
    refine ⟨within, fun y small => ?_, fun y small other tie => ?_⟩
    · rw [le, ← nth_toNat y]
      exact nearest _ (le_infinity_iff.mp small)
    · rw [← nth_toNat y] at other tie
      exact even _ (le_infinity_iff.mp small) other ((eq _).mp tie)

/-- Of two equally near numbers none lies between, so that one of them is even. -/
theorem significand_ne_of_tie {n k : Nat} (less : n < k) (small : k ≤ top) (positive : 0 < den)
    (nearest : ∀ i ≤ top, gap num den (nth n) ≤ gap num den (nth i))
    (tie : gap num den (nth n) = gap num den (nth k)) :
    (nth n).significand % 2 ≠ (nth k).significand % 2 := by
  have next : k = n + 1 := by
    by_contra further
    have between := nearest (n + 1) (by omega)
    have lower := Nat.mul_lt_mul_of_pos_right (units_lt (Nat.lt_add_one n) (by omega)) positive
    have upper := Nat.mul_lt_mul_of_pos_right
      (units_lt (n := n + 1) (k := k) (by omega) small) positive
    unfold gap at between tie
    omega
  rw [significand_mod n (by omega), significand_mod k small]
  omega

theorem exists_rounds (num : Nat) (positive : 0 < den) :
    ∃ x, Rounds (num / den / unitsPerOne) x := by
  -- an odd significand makes a number count as farther than an even one that is equally near
  let cost (n : Nat) : Nat := 2 * gap num den (nth n) + (nth n).significand % 2
  obtain ⟨n, small, least⟩ := (measure cost).wf.has_min {n | n ≤ top} ⟨0, Nat.zero_le top⟩
  have cheapest : ∀ k ≤ top, cost n ≤ cost k := fun k inside => Nat.not_lt.mp (least k inside)
  have nearest : ∀ k ≤ top, gap num den (nth n) ≤ gap num den (nth k) := by
    intro k inside
    have less := cheapest k inside
    dsimp only [cost] at less
    omega
  refine ⟨nth n, (rounds_iff_gap positive).mpr
    ⟨le_infinity_iff.mpr ((toNat_nth small).trans_le small), nearest, ?_⟩⟩
  intro k inside other tie
  have parity := cheapest k inside
  dsimp only [cost] at parity
  have apart : (nth n).significand % 2 ≠ (nth k).significand % 2 := by
    rcases Nat.lt_trichotomy n k with less | same | more
    · exact significand_ne_of_tie less inside positive nearest tie
    · exact absurd (congrArg nth same.symm) other
    · have near : ∀ i ≤ top, gap num den (nth k) ≤ gap num den (nth i) := tie ▸ nearest
      exact (significand_ne_of_tie more small positive near tie.symm).symm
  omega

theorem units_succ_mul {n : Nat} (small : n < top) (den : Nat) :
    (nth (n + 1)).units * den = (nth n).units * den + 2 ^ (nth n).shift * den ∧
      (nth (n + 1)).gapBelow * den = 2 * (2 ^ (nth n).shift * den) := by
  obtain ⟨units, below⟩ := units_succ small
  rw [units, below]
  exact ⟨by ring, by ring⟩

/-- A number below infinity covers what is rounded to it. -/
theorem covers_of_gap {n : Nat} (small : n < top)
    (nearest : ∀ k ≤ top, gap num den (nth n) ≤ gap num den (nth k))
    (even : ∀ k ≤ top, nth k ≠ nth n → gap num den (nth n) = gap num den (nth k) →
      (nth n).significand % 2 = 0) (positive : 0 < den) : (nth n).Covers num den := by
  have injective {k : Nat} (inside : k ≤ top) (other : k ≠ n) : nth k ≠ nth n := by
    intro same
    have words := congrArg (fun x => x.bits.toNat) same
    simp only [toNat_nth inside, toNat_nth small.le] at words
    exact other words
  have above : (nth n).gapAbove * den = 2 * (2 ^ (nth n).shift * den) := by
    unfold gapAbove
    simp only [Nat.pow_eq]
    ring
  have step : 0 < 2 ^ (nth n).shift * den := Nat.mul_pos (Nat.two_pow_pos _) positive
  have next := (units_succ_mul small den).1
  have upper := nearest (n + 1) small
  have upperTie := even (n + 1) small (injective small (by omega))
  unfold gap at upper upperTie
  rcases Nat.eq_zero_or_pos n with rfl | more
  · have origin : (nth 0).units * den = 0 := by
      have zero : (nth 0).units = 0 := by decide
      rw [zero, Nat.zero_mul]
    have least : (nth 0).significand % 2 = 0 := by decide
    exact ⟨by omega, by omega, fun _ => least⟩
  · obtain ⟨k, rfl⟩ : ∃ k, n = k + 1 := ⟨n - 1, by omega⟩
    obtain ⟨before, below⟩ := units_succ_mul (show k < top by omega) den
    have step' : 0 < 2 ^ (nth k).shift * den := Nat.mul_pos (Nat.two_pow_pos _) positive
    have lower := nearest k (by omega)
    have lowerTie := even k (by omega) (injective (by omega) (by omega))
    unfold gap at lower lowerTie
    refine ⟨by omega, by omega, fun tie => ?_⟩
    rcases tie with low | high
    · exact lowerTie (by omega)
    · exact upperTie (by omega)

theorem le_roundQuotient (num den : Nat) : num / den ≤ roundQuotient num den := by
  unfold roundQuotient
  dsimp only
  split_ifs <;> omega

/-- The units of a fraction have as many binary places as the fraction has, or more. -/
theorem le_roundUnits (positive : 0 < num / den) : 2 ^ (num / den).log2 ≤ roundUnits num den := by
  unfold roundUnits
  dsimp only
  simp only [Nat.pow_eq]
  have size : 2 ^ (num / den).log2 ≤ num / den := Nat.log2_self_le positive.ne'
  rcases Nat.lt_or_ge (num / den).log2 52 with short | long
  · have unshifted : shiftFor (num / den) = 0 := by
      unfold shiftFor
      omega
    rw [unshifted, pow_zero, Nat.mul_one, Nat.mul_one]
    exact size.trans (le_roundQuotient num den)
  · have places : (num / den).log2 = 52 + shiftFor (num / den) := by
      unfold shiftFor
      omega
    generalize shiftFor (num / den) = s at *
    have floor : 2 ^ 52 ≤ num / (den * 2 ^ s) := by
      rw [← Nat.div_div_eq_div_mul, Nat.le_div_iff_mul_le (Nat.two_pow_pos s), ← pow_add, ← places]
      exact size
    rw [places, pow_add]
    exact Nat.mul_le_mul_right _ (floor.trans (le_roundQuotient _ _))

/-- From half a step below infinity on, the units are too many for a number. -/
theorem unitsLimit_le_roundUnits (positive : 0 < den)
    (large : 2 * (2 ^ 53 * (2 ^ 2045 * den)) ≤ 2 * num + 2 ^ 2045 * den) :
    unitsLimit ≤ roundUnits num den := by
  obtain ⟨step, grid⟩ : ∃ step, 2 ^ 2045 * den = step := ⟨_, rfl⟩
  rw [grid] at large
  rcases Nat.lt_or_ge num (2 ^ 53 * step) with under | beyond
  · have nearest : Nearest num (2 ^ 2045 * den) (2 ^ 53) := by
      rw [grid]
      exact ⟨large, by omega, fun _ => by decide⟩
    have rounded := roundUnits_of_nearest (s := 2045) positive (Or.inr (by rw [grid]; omega))
      (by rwa [grid]) nearest
    rw [rounded, unitsLimit_eq, ← pow_add]
  · have quotient : 2 ^ 2098 ≤ num / den := by
      rw [Nat.le_div_iff_mul_le positive]
      have split : 2 ^ 2098 * den = 2 ^ 53 * step := by
        rw [← grid, ← Nat.mul_assoc, ← pow_add]
      rwa [split]
    have some : 0 < num / den := (Nat.two_pow_pos _).trans_le quotient
    have places : 2098 ≤ (num / den).log2 := (Nat.le_log2 some.ne').mpr quotient
    rw [unitsLimit_eq]
    exact (Nat.pow_le_pow_right (by decide) places).trans (le_roundUnits some)

theorem Rounds.eq_ofUnits (positive : 0 < den) (rounds : Rounds (num / den / unitsPerOne) x) :
    x = ofUnits (roundUnits num den) := by
  obtain ⟨within, nearest, even⟩ := (rounds_iff_gap positive).mp rounds
  have small := le_infinity_iff.mp within
  have word := nth_toNat x
  generalize x.bits.toNat = n at small word
  subst word
  rcases Nat.lt_or_eq_of_le small with less | rfl
  · have below : (nth n).bits < infinity.bits := by
      rw [UInt64.lt_iff_toNat_lt, toNat_nth small, toNat_infinity]
      exact less
    rw [(covers_of_gap less nearest even positive).roundUnits_eq positive, ofUnits_units below]
  · -- the largest number is the last one in front of infinity
    obtain ⟨last, behind⟩ : ∃ last, top = last + 1 := ⟨top - 1, rfl⟩
    obtain ⟨shift, significand⟩ := nth_fields (n := last) (m := 2 ^ 53 - 1) (s := 2045) (by omega)
      (by unfold top at behind; omega) (by decide) (Or.inr (by decide))
    have largest : (nth last).units * den = (2 ^ 53 - 1) * (2 ^ 2045 * den) := by
      rw [units_eq, shift, significand, Nat.mul_assoc]
    have step := (units_succ_mul (show last < top by omega) den).1
    have size : 0 < 2 ^ 2045 * den := Nat.mul_pos (Nat.two_pow_pos _) positive
    have least := nearest last (by omega)
    rw [shift] at step
    rw [behind] at least
    unfold gap at least
    have large : 2 * (2 ^ 53 * (2 ^ 2045 * den)) ≤ 2 * num + 2 ^ 2045 * den := by
      generalize 2 ^ 2045 * den = half at *
      omega
    rw [ofUnits, if_neg (Nat.not_lt.mpr (unitsLimit_le_roundUnits positive large))]
    rfl

/-- A decimal is read as the number that it is rounded to. -/
theorem rounds_iff (digits places : Nat) (x : Binary64) :
    Rounds (digits / 10 ^ places) x ↔ x = ofDecimal digits places := by
  have positive : 0 < 10 ^ places := Nat.pow_pos (by decide)
  have exact : (digits / 10 ^ places : ℚ) =
      (digits * unitsPerOne : Nat) / (10 ^ places : Nat) / unitsPerOne := by
    have one : (unitsPerOne : ℚ) ≠ 0 := Nat.cast_ne_zero.mpr unitsPerOne_pos.ne'
    push_cast
    field_simp
  have read {y : Binary64} (rounds : Rounds (digits / 10 ^ places) y) :
      y = ofDecimal digits places := by
    rw [exact] at rounds
    rw [ofDecimal, Nat.pow_eq]
    exact rounds.eq_ofUnits positive
  constructor
  · exact read
  · intro same
    obtain ⟨y, rounds⟩ := exists_rounds (digits * unitsPerOne) positive
    rw [← exact] at rounds
    have equal : x = y := same.trans (read rounds).symm
    rw [equal]
    exact rounds

end OnePass.Binary64
