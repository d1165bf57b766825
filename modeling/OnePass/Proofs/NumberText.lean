import Mathlib
import OnePass.Binary64.Text
import OnePass.Proofs.Rounding

/-! The text of numbers that are not negative. It tells the decimal that it is made from, so that
different numbers have different texts. A number below infinity begins with a digit and has
something else than digits in it, unlike a whole number. -/
namespace OnePass

/-- Texts are cut in one way only at the first place where a character stands. -/
theorem eq_of_append_cons {c : Char} {front front' back back' : List Char} (missing : c ∉ front)
    (missing' : c ∉ front') (same : front ++ c :: back = front' ++ c :: back') :
    front = front' ∧ back = back' := by
  induction front generalizing front' with
  | nil =>
    cases front' with
    | nil => exact ⟨rfl, (List.cons.inj same).2⟩
    | cons head tail => exact absurd ((List.cons.inj same).1 ▸ List.mem_cons_self) missing'
  | cons head tail ih =>
    cases front' with
    | nil => exact absurd ((List.cons.inj same).1 ▸ List.mem_cons_self) missing
    | cons head' tail' =>
      obtain ⟨rfl, behind⟩ := List.cons.inj same
      obtain ⟨rfl, rfl⟩ := ih (fun member => missing (List.mem_cons_of_mem _ member))
        (fun member => missing' (List.mem_cons_of_mem _ member)) behind
      exact ⟨rfl, rfl⟩

def AllDigits (text : List Char) : Prop := ∀ c ∈ text, c.isDigit = true

theorem AllDigits.notMem {text : List Char} (digits : AllDigits text) {c : Char}
    (other : c.isDigit = false) : c ∉ text := by
  intro member
  rw [digits c member] at other
  cases other

theorem AllDigits.append {first second : List Char} (one : AllDigits first)
    (two : AllDigits second) : AllDigits (first ++ second) :=
  List.forall_mem_append.mpr ⟨one, two⟩

theorem allDigits_toDigits (n : Nat) : AllDigits (Nat.toDigits 10 n) :=
  fun _ member => Nat.isDigit_of_mem_toDigits (by decide) (by decide) member

theorem allDigits_zeros (count : Nat) : AllDigits (List.replicate count '0') := by
  intro c member
  rw [List.eq_of_mem_replicate member]
  rfl

namespace Binary64

namespace Decimal

/-- Digits around a point that say what a decimal is. -/
structure Pointed (d : Decimal) (whole fraction : List Char) : Prop where
  digits : AllDigits whole ∧ AllDigits fraction
  filled : whole ≠ [] ∧ fraction ≠ []
  value : Nat.ofDigitChars 10 (whole ++ fraction) 0 * 10 ^ finest = d.steps * 10 ^ fraction.length

/-- The place of the first digit. -/
def leading (d : Decimal) : Int :=
  (d.place + (Nat.toDigits 10 d.digits).length - 1 : Nat) - (finest : Int)

theorem leading_of_large {d : Decimal} {text : List Char}
    (written : Nat.toDigits 10 d.digits = text) (large : finest < d.place + text.length) :
    ¬ d.leading < 0 ∧ d.leading.toNat + 1 = d.place + text.length - finest := by
  unfold leading
  rw [written]
  omega

/-- The digits of a decimal below one stand behind the point. -/
theorem pointed_below {d : Decimal} {text : List Char} (written : Nat.toDigits 10 d.digits = text)
    (small : d.place + text.length ≤ finest) :
    positional text d.leading =
        ['0'] ++ '.' :: (List.replicate (finest - (d.place + text.length)) '0' ++ text) ∧
      d.Pointed ['0'] (List.replicate (finest - (d.place + text.length)) '0' ++ text) := by
  have filled : 0 < text.length := written ▸ Nat.length_toDigits_pos
  have digits : AllDigits text := written ▸ allDigits_toDigits d.digits
  have value : Nat.ofDigitChars 10 text 0 = d.digits := written ▸ Nat.ofDigitChars_ten_toDigits
  have negative : d.leading < 0 := by
    unfold leading
    rw [written]
    omega
  have count : (-d.leading - 1).toNat = finest - (d.place + text.length) := by
    unfold leading
    rw [written]
    omega
  refine ⟨?_, ⟨allDigits_zeros 1, (allDigits_zeros _).append digits⟩, ⟨by simp, ?_⟩, ?_⟩
  · rw [positional, if_pos negative, count]
    rfl
  · intro empty
    exact Nat.toDigits_ne_nil (written.trans (List.append_eq_nil_iff.mp empty).2)
  · have length : finest = d.place + (finest - (d.place + text.length) + text.length) := by omega
    have leadingZero : Nat.ofDigitChars 10 ['0'] 0 = 0 := rfl
    rw [Nat.ofDigitChars_append, Nat.ofDigitChars_append, leadingZero,
      Nat.ofDigitChars_replicate_zero, Nat.mul_zero, value, List.length_append,
      List.length_replicate, steps, Nat.pow_eq, Nat.mul_assoc, ← pow_add, ← length]

/-- The point stands inside the digits of a decimal that is neither below one nor whole. -/
theorem pointed_inside {d : Decimal} {text : List Char} (written : Nat.toDigits 10 d.digits = text)
    (large : finest < d.place + text.length) (inside : d.place < finest) :
    positional text d.leading = text.take (d.place + text.length - finest) ++
        '.' :: text.drop (d.place + text.length - finest) ∧
      d.Pointed (text.take (d.place + text.length - finest))
        (text.drop (d.place + text.length - finest)) := by
  have digits : AllDigits text := written ▸ allDigits_toDigits d.digits
  have value : Nat.ofDigitChars 10 text 0 = d.digits := written ▸ Nat.ofDigitChars_ten_toDigits
  obtain ⟨nonnegative, before⟩ := leading_of_large written large
  have behind : text.drop (d.place + text.length - finest) ≠ [] := by
    rw [Ne, List.drop_eq_nil_iff]
    omega
  have front : text.take (d.place + text.length - finest) ≠ [] := by
    intro empty
    rcases List.take_eq_nil_iff.mp empty with none | blank
    · omega
    · exact Nat.toDigits_ne_nil (written.trans blank)
  refine ⟨?_, ⟨fun c member => digits c (List.mem_of_mem_take member),
    fun c member => digits c (List.mem_of_mem_drop member)⟩, ⟨front, behind⟩, ?_⟩
  · have unpadded : d.place + text.length - finest - text.length = 0 := by omega
    rw [positional, if_neg nonnegative]
    dsimp only
    rw [before, unpadded, List.replicate_zero, List.append_nil,
      List.isEmpty_eq_false_iff.mpr behind, if_neg Bool.false_ne_true]
  · have length : finest = d.place + (text.length - (d.place + text.length - finest)) := by omega
    rw [List.take_append_drop, value, List.length_drop, steps, Nat.pow_eq, Nat.mul_assoc, ← pow_add,
      ← length]

/-- Behind a whole decimal stands one zero. -/
theorem pointed_whole {d : Decimal} {text : List Char} (written : Nat.toDigits 10 d.digits = text)
    (whole : finest ≤ d.place) :
    positional text d.leading =
        (text ++ List.replicate (d.place - finest) '0') ++ '.' :: ['0'] ∧
      d.Pointed (text ++ List.replicate (d.place - finest) '0') ['0'] := by
  have filled : 0 < text.length := written ▸ Nat.length_toDigits_pos
  have digits : AllDigits text := written ▸ allDigits_toDigits d.digits
  have value : Nat.ofDigitChars 10 text 0 = d.digits := written ▸ Nat.ofDigitChars_ten_toDigits
  obtain ⟨nonnegative, before⟩ := leading_of_large written (by omega)
  refine ⟨?_, ⟨digits.append (allDigits_zeros _), allDigits_zeros 1⟩, ⟨?_, by simp⟩, ?_⟩
  · have all : text.length ≤ d.place + text.length - finest := by omega
    have padding : d.place + text.length - finest - text.length = d.place - finest := by omega
    rw [positional, if_neg nonnegative]
    dsimp only
    rw [before, List.take_of_length_le all, List.drop_of_length_le all, padding]
    rfl
  · intro empty
    exact Nat.toDigits_ne_nil (written.trans (List.append_eq_nil_iff.mp empty).1)
  · have length : d.place = d.place - finest + finest := by omega
    have lastZero (n : Nat) : Nat.ofDigitChars 10 ['0'] n = 10 * n := rfl
    rw [Nat.ofDigitChars_append, Nat.ofDigitChars_append, lastZero,
      Nat.ofDigitChars_replicate_zero, value, steps, Nat.pow_eq]
    nth_rewrite 2 [length]
    rw [pow_add, List.length_singleton]
    ring

theorem exists_pointed (d : Decimal) : ∃ whole fraction,
    positional (Nat.toDigits 10 d.digits) d.leading = whole ++ '.' :: fraction ∧
      d.Pointed whole fraction := by
  by_cases small : d.place + (Nat.toDigits 10 d.digits).length ≤ finest
  · exact ⟨_, _, pointed_below rfl small⟩
  by_cases inside : d.place < finest
  · exact ⟨_, _, pointed_inside rfl (by omega) inside⟩
  · exact ⟨_, _, pointed_whole rfl (by omega)⟩

/-- Digits with an exponent: in front of the `e` stand the digits, and behind it their place. -/
structure Scaled (d : Decimal) (front back : List Char) : Prop where
  unmarked : 'e' ∉ front
  digits : front.filter Char.isDigit = Nat.toDigits 10 d.digits
  place : back = (toString d.leading).toList
  begins : ∃ c rest, front = c :: rest ∧ c.isDigit = true

theorem exists_scaled (d : Decimal) : ∃ front back,
    scientific (Nat.toDigits 10 d.digits) d.leading = front ++ 'e' :: back ∧
      d.Scaled front back := by
  have all := allDigits_toDigits d.digits
  obtain ⟨c, rest, written⟩ :=
    List.exists_cons_of_ne_nil (Nat.toDigits_ne_nil (n := d.digits) (b := 10))
  have begins : c.isDigit = true := all c (written ▸ List.mem_cons_self)
  have others : AllDigits rest :=
    fun other member => all other (written ▸ List.mem_cons_of_mem c member)
  have same : rest.filter Char.isDigit = rest := List.filter_eq_self.mpr others
  have front : ('e' ∉ [c] ++ if rest.isEmpty then [] else '.' :: rest) ∧
      ([c] ++ if rest.isEmpty then [] else '.' :: rest).filter Char.isDigit = c :: rest := by
    have unmarked : 'e' ∉ rest := others.notMem rfl
    have plain : 'e' ≠ c := fun marked => by simp [← marked] at begins
    cases rest with
    | nil => simp [plain, begins]
    | cons second tail =>
      rw [List.isEmpty_cons, if_neg Bool.false_ne_true]
      refine ⟨by simpa [plain] using unmarked, ?_⟩
      rw [List.singleton_append, List.filter_cons_of_pos begins,
        List.filter_cons_of_neg (by decide), same]
  refine ⟨_, _, rfl, ?_, ?_, rfl, ?_⟩ <;> rw [written]
  · exact front.1
  · exact front.2
  · exact ⟨c, _, rfl, begins⟩

theorem toList_text (l : Layout) (d : Decimal) : (d.text l).toList =
    if l.lowest ≤ d.leading ∧ d.leading ≤ l.highest then
      positional (Nat.toDigits 10 d.digits) d.leading
    else scientific (Nat.toDigits 10 d.digits) d.leading := by
  unfold text
  dsimp only
  split <;> rename_i range
  · rw [String.toList_ofList]
    exact (if_pos range).symm
  · rw [String.toList_ofList]
    exact (if_neg range).symm

theorem text_cases (l : Layout) (d : Decimal) :
    (∃ whole fraction, (d.text l).toList = whole ++ '.' :: fraction ∧ d.Pointed whole fraction) ∨
      ∃ front back, (d.text l).toList = front ++ 'e' :: back ∧ d.Scaled front back := by
  rw [toList_text]
  split
  · exact Or.inl d.exists_pointed
  · exact Or.inr d.exists_scaled

theorem Pointed.notMem {d : Decimal} {whole fraction : List Char}
    (pointed : d.Pointed whole fraction) {c : Char} (other : c.isDigit = false) (unpointed : c ≠ '.') :
    c ∉ whole ++ '.' :: fraction := by
  simp [pointed.digits.1.notMem other, pointed.digits.2.notMem other, unpointed]

theorem Pointed.steps_eq {d d' : Decimal} {whole fraction : List Char}
    (one : d.Pointed whole fraction) (two : d'.Pointed whole fraction) : d.steps = d'.steps :=
  Nat.eq_of_mul_eq_mul_right (Nat.pow_pos (by decide)) (one.value.symm.trans two.value)

theorem Scaled.steps_eq {d d' : Decimal} {front back : List Char}
    (one : d.Scaled front back) (two : d'.Scaled front back) : d.steps = d'.steps := by
  have written : Nat.toDigits 10 d.digits = Nat.toDigits 10 d'.digits :=
    one.digits.symm.trans two.digits
  have digits : d.digits = d'.digits := by
    rw [← Nat.ofDigitChars_ten_toDigits (n := d.digits), written, Nat.ofDigitChars_ten_toDigits]
  have leading : d.leading = d'.leading :=
    Int.repr_injective (String.toList_inj.mp (one.place.symm.trans two.place))
  have place : d.place = d'.place := by
    have filled : 0 < (Nat.toDigits 10 d'.digits).length := Nat.length_toDigits_pos
    unfold Decimal.leading at leading
    rw [written] at leading
    omega
  rw [steps, steps, digits, place]

/-- The text of a decimal begins with a digit, and not all behind it are digits. -/
theorem text_begins (l : Layout) (d : Decimal) :
    ∃ c rest, (d.text l).toList = c :: rest ∧ c.isDigit = true ∧ ¬ AllDigits rest := by
  rcases d.text_cases l with ⟨whole, fraction, text, pointed⟩ | ⟨front, back, text, scaled⟩
  · obtain ⟨c, rest, rfl⟩ := List.exists_cons_of_ne_nil pointed.filled.1
    refine ⟨c, _, text, pointed.digits.1 c List.mem_cons_self, fun all => ?_⟩
    exact all.notMem (c := '.') rfl (by simp)
  · obtain ⟨c, rest, rfl, begins⟩ := scaled.begins
    exact ⟨c, _, text, begins, fun all => all.notMem (c := 'e') rfl (by simp)⟩

/-- The text of a decimal tells its value. -/
theorem steps_eq_of_text (l : Layout) {d d' : Decimal} (same : d.text l = d'.text l) :
    d.steps = d'.steps := by
  have chars : (d.text l).toList = (d'.text l).toList := congrArg String.toList same
  rcases d.text_cases l with ⟨whole, fraction, text, one⟩ | ⟨front, back, text, one⟩ <;>
  rcases d'.text_cases l with ⟨whole', fraction', text', two⟩ | ⟨front', back', text', two⟩ <;>
  rw [text, text'] at chars
  · obtain ⟨rfl, rfl⟩ := eq_of_append_cons (one.digits.1.notMem rfl) (two.digits.1.notMem rfl) chars
    exact one.steps_eq two
  · exact absurd (chars ▸ by simp) (one.notMem (c := 'e') rfl (by decide))
  · exact absurd (chars ▸ by simp) (two.notMem (c := 'e') rfl (by decide))
  · obtain ⟨rfl, rfl⟩ := eq_of_append_cons one.unmarked two.unmarked chars
    exact one.steps_eq two

end Decimal

theorem Decimal.text_zero : Decimal.text layout ⟨0, Decimal.finest⟩ = "0.0" := by decide +kernel

/-- The text of a number that is neither negative nor infinite is that of a decimal that is read
as this number. -/
theorem exists_text {x : Binary64} (below : x.bits < infinity.bits) :
    ∃ d : Decimal, x.text = d.text layout ∧ ofDecimal d.steps Decimal.finest = x := by
  have exponent := (exponentField_of_below below).2
  have finite : x.isFinite = true := by
    rw [isFinite, bne_iff_ne]
    omega
  have number : x.isNaN = false := by
    rw [isNaN, beq_eq_false_iff_ne.mpr (by omega), Bool.false_and]
  have sign : x.isNegative = false := by
    have bound := UInt64.lt_iff_toNat_lt.mp below
    rw [toNat_infinity] at bound
    have none : x.bits.toNat / 2 ^ 63 = 0 := Nat.div_eq_of_lt (by omega)
    rw [isNegative, Nat.pow_eq, none]
    rfl
  have text : x.text = if x.units = 0 then "0.0" else x.shortest.text layout := by
    rw [Binary64.text, number, sign, finite]
    simp only [if_true, Bool.false_eq_true, if_false]
  by_cases zero : x.units = 0
  · refine ⟨⟨0, Decimal.finest⟩, ?_, ?_⟩
    · rw [text, if_pos zero, Decimal.text_zero]
    · rw [eq_zero_of_units below zero, Decimal.steps, Nat.zero_mul, ofDecimal_zero]
  · exact ⟨x.shortest, by rw [text, if_neg zero], ofDecimal_shortest below⟩

theorem eq_of_text {x y : Binary64} (first : x.bits < infinity.bits)
    (second : y.bits < infinity.bits) (same : x.text = y.text) : x = y := by
  obtain ⟨d, text, value⟩ := exists_text first
  obtain ⟨d', text', value'⟩ := exists_text second
  rw [text, text'] at same
  rw [← value, Decimal.steps_eq_of_text layout same, value']

end Binary64

end OnePass
