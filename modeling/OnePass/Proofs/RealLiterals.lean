import Mathlib
import OnePass.Proofs.Layout
import OnePass.Proofs.Unambiguous

/-! Real numbers in the lines of code. What such a line pushes is a literal of the source, with a
point in it, if the number is zero or in the range of sizes that is written without an exponent. -/
namespace OnePass

namespace Binary64

/-! Rounding keeps the order. -/

theorem value_le_iff {x y : Binary64} : x.value ≤ y.value ↔ x.units ≤ y.units := by
  have one : (0 : ℚ) < unitsPerOne := Nat.cast_pos.mpr unitsPerOne_pos
  rw [value, value, div_le_div_iff_of_pos_right one, Nat.cast_le]

theorem units_ofDecimal_mono {fewer more : Nat} (ordered : fewer ≤ more) (places : Nat) :
    (ofDecimal fewer places).units ≤ (ofDecimal more places).units := by
  rcases Nat.eq_or_lt_of_le ordered with rfl | less
  · exact le_rfl
  have low := (rounds_iff fewer places _).mpr rfl
  have high := (rounds_iff more places _).mpr rfl
  have apart : (fewer / 10 ^ places : ℚ) < more / 10 ^ places :=
    div_lt_div_of_pos_right (Nat.cast_lt.mpr less) (by positivity)
  rw [← value_le_iff]
  by_contra crossed
  rw [not_le] at crossed
  -- the middle between the two numbers is not above the first decimal, nor below the second
  have first := sq_le_sq.mpr (low.nearest _ high.within)
  have second := sq_le_sq.mpr (high.nearest _ low.within)
  nlinarith [mul_pos (sub_pos.mpr crossed) (sub_pos.mpr apart)]

/-- Decimals of the same value are read as the same number. -/
theorem ofDecimal_congr {digits digits' places places' : Nat}
    (same : digits * 10 ^ places' = digits' * 10 ^ places) :
    ofDecimal digits places = ofDecimal digits' places' := by
  have exact : (digits / 10 ^ places : ℚ) = digits' / 10 ^ places' := by
    rw [div_eq_div_iff (by positivity) (by positivity)]
    exact_mod_cast same
  rw [← rounds_iff, ← exact, rounds_iff]

/-- A number behind another one and not behind the next is the next. -/
theorem eq_nth_of_units {x : Binary64} {n : Nat} (within : x.bits ≤ infinity.bits) (small : n < top)
    (above : (nth n).units < x.units) (most : x.units ≤ (nth (n + 1)).units) : x = nth (n + 1) := by
  rw [← nth_toNat x] at above most ⊢
  have inside := le_infinity_iff.mp within
  generalize x.bits.toNat = k at *
  have after : n < k := by
    by_contra before
    rcases Nat.eq_or_lt_of_le (Nat.le_of_not_lt before) with rfl | less
    · exact absurd above (lt_irrefl _)
    · exact absurd (units_lt less small.le) (by omega)
  have reached : k ≤ n + 1 := by
    by_contra further
    exact absurd (units_lt (Nat.lt_of_not_le further) inside) (by omega)
  rw [show k = n + 1 by omega]

/-! The ends of the range without an exponent. -/

/-- The last number below `0.0001`. -/
def beforeLeast : Nat := 0x3f1a36e2eb1c432c

/-- The last number below `1e16`. -/
def beforeLimit : Nat := 0x4341c37937e07fff

theorem edge_least : ofDecimal (10 ^ 336) Decimal.finest = nth (beforeLeast + 1) ∧
    (nth beforeLeast).units * 10000 < unitsPerOne ∧
    unitsPerOne ≤ (nth (beforeLeast + 1)).units * 10000 ∧
    (nth (beforeLeast + 1)).text = "0.0001" := by
  decide +kernel

theorem edge_limit : ofDecimal (10 ^ 356) Decimal.finest = nth (beforeLimit + 1) ∧
    (nth beforeLimit).units < 10 ^ 16 * unitsPerOne ∧
    10 ^ 16 * unitsPerOne ≤ (nth (beforeLimit + 1)).units ∧
    (nth (beforeLimit + 1)).text = "1e16" := by
  decide +kernel

namespace Decimal

/-- The first digit of a decimal stands below a place if the decimal does. -/
theorem length_le_iff {d : Decimal} (positive : 0 < d.digits) (n : Nat) :
    d.place + (Nat.toDigits 10 d.digits).length ≤ n ↔ d.steps < 10 ^ n := by
  have filled : 0 < (Nat.toDigits 10 d.digits).length := Nat.length_toDigits_pos
  have power : 0 < 10 ^ d.place := Nat.pow_pos (by decide)
  rw [steps, Nat.pow_eq]
  rcases Nat.lt_or_ge d.place n with inside | outside
  · obtain ⟨k, rfl⟩ : ∃ k, n = k + d.place := ⟨n - d.place, by omega⟩
    rw [pow_add, Nat.mul_lt_mul_right power,
      ← Nat.length_toDigits_le_iff (by decide) (show 0 < k by omega)]
    omega
  · have large : 10 ^ n ≤ d.digits * 10 ^ d.place :=
      (Nat.pow_le_pow_right (by decide) outside).trans (Nat.le_mul_of_pos_left _ positive)
    omega

theorem notMem_text_iff {d : Decimal} (positive : 0 < d.digits) :
    'e' ∉ (d.text layout).toList ↔ 10 ^ 336 ≤ d.steps ∧ d.steps < 10 ^ 356 := by
  have range : layout.lowest ≤ d.leading ∧ d.leading ≤ layout.highest ↔
      10 ^ 336 ≤ d.steps ∧ d.steps < 10 ^ 356 := by
    have filled : 0 < (Nat.toDigits 10 d.digits).length := Nat.length_toDigits_pos
    rw [← Nat.not_lt, ← length_le_iff positive, ← length_le_iff positive, leading]
    simp only [layout, finest]
    omega
  rw [toList_text, ← range]
  split
  · rename_i inside
    obtain ⟨whole, fraction, text, pointed⟩ := d.exists_pointed
    rw [text]
    exact iff_of_true (pointed.notMem rfl (by decide)) inside
  · rename_i outside
    obtain ⟨front, back, text, _⟩ := d.exists_scaled
    rw [text]
    exact iff_of_false (by simp) outside

end Decimal

variable {x : Binary64}

theorem le_value_iff : 1 / 10000 ≤ x.value ↔ unitsPerOne ≤ x.units * 10000 := by
  have one : (0 : ℚ) < unitsPerOne := Nat.cast_pos.mpr unitsPerOne_pos
  rw [value]
  generalize unitsPerOne = scale at one
  rw [div_le_div_iff₀ (by norm_num) one, one_mul]
  norm_cast

theorem value_lt_iff : x.value < 10 ^ 16 ↔ x.units < 10 ^ 16 * unitsPerOne := by
  have one : (0 : ℚ) < unitsPerOne := Nat.cast_pos.mpr unitsPerOne_pos
  rw [value]
  generalize unitsPerOne = scale at one
  rw [div_lt_iff₀ one]
  norm_cast

/-- From `1e16` on the numbers are too large. -/
theorem not_plain_of_le {n : Nat} (large : beforeLimit < n) (small : n ≤ top) :
    ¬ ((nth n).value = 0 ∨ (1 / 10000 ≤ (nth n).value ∧ (nth n).value < 10 ^ 16)) := by
  have reached : (nth (beforeLimit + 1)).units ≤ (nth n).units := by
    rcases Nat.eq_or_lt_of_le (Nat.succ_le_of_lt large) with rfl | less
    · exact le_rfl
    · exact (units_lt less small).le
  have most : ¬ (nth n).value < 10 ^ 16 := by
    rw [value_lt_iff]
    exact Nat.not_lt.mpr (edge_limit.2.2.1.trans reached)
  rintro (zero | ⟨_, below⟩)
  · exact most (by rw [zero]; norm_num)
  · exact most below

/-- Which numbers are written without an exponent. -/
theorem notMem_text_iff (below : x.bits < infinity.bits) :
    'e' ∉ x.text.toList ↔ x.value = 0 ∨ (1 / 10000 ≤ x.value ∧ x.value < 10 ^ 16) := by
  have one : (0 : ℚ) < unitsPerOne := Nat.cast_pos.mpr unitsPerOne_pos
  by_cases zero : x.units = 0
  · have nothing : x.value = 0 := by rw [value, zero, Nat.cast_zero, zero_div]
    rw [eq_zero_of_units below zero] at nothing ⊢
    exact iff_of_true (by decide) (.inl nothing)
  have something : x.value ≠ 0 := div_ne_zero (Nat.cast_ne_zero.mpr zero) one.ne'
  obtain ⟨d, text, read⟩ := exists_text below
  have positive : 0 < d.digits := by
    by_contra none
    rw [Decimal.steps, Nat.eq_zero_of_not_pos none, Nat.zero_mul, ofDecimal_zero] at read
    exact zero (by rw [← read]; decide)
  have plain := Decimal.notMem_text_iff positive
  rw [← text] at plain
  rw [or_iff_right something, le_value_iff, value_lt_iff]
  obtain ⟨least, beneath, reached, textLeast⟩ := edge_least
  obtain ⟨limit, inside, passed, textLimit⟩ := edge_limit
  constructor
  · intro missing
    obtain ⟨enough, most⟩ := plain.mp missing
    have low := units_ofDecimal_mono enough Decimal.finest
    have high := units_ofDecimal_mono most.le Decimal.finest
    rw [read, least] at low
    rw [read, limit] at high
    refine ⟨reached.trans (Nat.mul_le_mul_right _ low), ?_⟩
    by_contra large
    have edge := eq_nth_of_units (UInt64.le_of_lt below) (by decide)
      (inside.trans_le (Nat.le_of_not_lt large)) high
    rw [edge, textLimit] at missing
    exact missing (by decide)
  · rintro ⟨enough, most⟩
    rcases Nat.lt_or_ge d.steps (10 ^ 336) with small | large
    · have low := units_ofDecimal_mono small.le Decimal.finest
      rw [read, least] at low
      have edge := eq_nth_of_units (UInt64.le_of_lt below) (by decide)
        (Nat.lt_of_mul_lt_mul_right (beneath.trans_le enough)) low
      rw [edge, textLeast]
      decide
    · refine plain.mpr ⟨large, Nat.lt_of_not_le fun beyond => ?_⟩
      have high := units_ofDecimal_mono beyond Decimal.finest
      rw [read, limit] at high
      exact absurd (passed.trans high) (Nat.not_le.mpr most)

end Binary64

/-! Texts of one token. -/

namespace Trivia

/-- A character with which no trivia begin. -/
def Visible (c : Char) : Prop := isBlank c = false ∧ c ≠ '/'

theorem visible_of_continues {c : Char} (named : Lexeme.continuesName c = true) : Visible c := by
  refine ⟨Lexeme.isBlank_eq_false named, ?_⟩
  rintro rfl
  cases named

theorem visible_of_allDigits {text : List Char} (digits : AllDigits text) :
    ∀ c ∈ text, Visible c := by
  intro c member
  have digit : Lexeme.isDigit c = true := digits c member
  apply visible_of_continues
  rw [Lexeme.continuesName, digit, Bool.or_true]

theorem Run.eq_nil {run rest : List Char} (found : Run run rest)
    (visible : ∀ c ∈ run, Visible c) : run = [] := by
  cases found with
  | nil => rfl
  | @cons piece run _ whole _ =>
    generalize run ++ rest = behind at whole
    cases whole with
    | @blank c _ member =>
      have shown := (visible c (by simp)).1
      rw [isBlank_iff.mpr member] at shown
      cases shown
    | line | lastLine | block => exact absurd rfl (visible '/' (by simp)).2

end Trivia

/-- A text that is cut into one lexeme, and has no place where trivia can begin, is this lexeme. -/
theorem Tiles.denotes {text : List Char} {token : Token} (tiles : Tiles text [token])
    (visible : ∀ c ∈ text, Trivia.Visible c) : Lexeme.Denotes text token := by
  cases tiles with
  | @lexeme run part rest _ _ longest closed most denotes behind =>
    rw [List.forall_mem_append, List.forall_mem_append] at visible
    obtain rfl := longest.fits.eq_nil visible.1
    cases behind with
    | ends last =>
      obtain rfl := last.fits.eq_nil visible.2.2
      rwa [List.append_nil]

theorem visible_toString (place : Int) : ∀ c ∈ (toString place).toList, Trivia.Visible c := by
  change ∀ c ∈ place.repr.toList, _
  have digits (n : Nat) : ∀ c ∈ n.repr.toList, Trivia.Visible c := by
    rw [Nat.toList_repr]
    exact Trivia.visible_of_allDigits (allDigits_toDigits n)
  rw [Int.repr_eq_if]
  split
  · exact digits _
  · rw [String.toList_append]
    exact List.forall_mem_append.mpr ⟨List.forall_mem_singleton.mpr ⟨rfl, by decide⟩, digits _⟩

theorem Binary64.Decimal.visible_text (l : Layout) (d : Decimal) :
    ∀ c ∈ (d.text l).toList, Trivia.Visible c := by
  have point : Trivia.Visible '.' := ⟨rfl, by decide⟩
  rw [toList_text]
  split
  · obtain ⟨whole, fraction, text, pointed⟩ := d.exists_pointed
    rw [text, List.forall_mem_append, List.forall_mem_cons]
    exact ⟨Trivia.visible_of_allDigits pointed.digits.1, point,
      Trivia.visible_of_allDigits pointed.digits.2⟩
  · have digits := Trivia.visible_of_allDigits (allDigits_toDigits d.digits)
    simp only [scientific, List.forall_mem_append, List.forall_mem_cons]
    refine ⟨⟨fun c first => digits c (List.mem_of_mem_take first), ?_⟩, ⟨rfl, by decide⟩,
      visible_toString _⟩
    split
    · exact List.forall_mem_nil _
    · exact List.forall_mem_cons.mpr
        ⟨point, fun c further => digits c (List.mem_of_mem_drop further)⟩

/-- A line that pushes a number as the source has it: the operand has a point in it and is read as
that number alone. -/
def PushesLiteral (line : String) (x : Binary64) : Prop :=
  ∃ operand, line = "push " ++ operand ∧ '.' ∈ operand.toList ∧
    ∃ located, tokenize operand = .ok located ∧ located.map (·.token) = [.real x, .finish]

theorem exists_tiles_of_tokenize {text : String} {located : List Located} {token : Token}
    (read : tokenize text = .ok located) (spells : located.map (·.token) = [token, .finish]) :
    Tiles text.toList [token] := by
  unfold tokenize at read
  split at read
  · rename_i drained
    obtain rfl := Except.ok.inj read
    obtain ⟨tokens, tiles, again⟩ := Source.exists_tiles drained
    have same : [token] ++ [.finish] = tokens ++ [.finish] := spells.symm.trans again
    obtain rfl := List.append_cancel_right same
    exact tiles
  · cases read

theorem pushesLiteral_of_plain {x : Binary64} (below : x.bits < Binary64.infinity.bits)
    (plain : 'e' ∉ x.text.toList) : PushesLiteral (Instruction.push (.real x)).text x := by
  obtain ⟨d, text, read⟩ := Binary64.exists_text below
  rcases d.text_cases Binary64.layout with ⟨whole, fraction, chars, pointed⟩ |
    ⟨front, back, chars, _⟩
  · rw [← text] at chars
    have rounds := (Binary64.rounds_iff _ _ x).mpr
      (read.symm.trans (Binary64.ofDecimal_congr pointed.value).symm)
    have denotes : Lexeme.Denotes x.text.toList (.real x) := by
      rw [chars]
      exact .real ⟨pointed.filled.1, pointed.digits.1⟩ ⟨pointed.filled.2, pointed.digits.2⟩ rounds
    have tiles : Tiles (x.text.toList ++ []) [.real x] :=
      .of_gap .nil denotes nofun (.ends (Trivia.longest_iff.mpr ⟨.nil, rfl⟩))
    rw [List.append_nil] at tiles
    exact ⟨x.text, rfl, by rw [chars]; simp, tokenize_of_tiles tiles⟩
  · rw [text, chars] at plain
    exact absurd (by simp) plain

theorem plain_of_pushesLiteral {x : Binary64} (below : x.bits < Binary64.infinity.bits)
    (pushes : PushesLiteral (Instruction.push (.real x)).text x) : 'e' ∉ x.text.toList := by
  obtain ⟨operand, line, _, located, read, spells⟩ := pushes
  obtain rfl : x.text = operand := (String.append_right_inj "push ").mp line
  obtain ⟨d, text, _⟩ := Binary64.exists_text below
  have visible : ∀ c ∈ x.text.toList, Trivia.Visible c := text ▸ d.visible_text _
  have denotes := (exists_tiles_of_tokenize read spells).denotes visible
  generalize x.text.toList = chars at denotes
  cases denotes with
  | real whole fraction _ =>
    simp [whole.digits.notMem (c := 'e') rfl, fraction.digits.notMem (c := 'e') rfl]

/-- Of the real numbers that the code of a text pushes, zero and those from `0.0001` up to, but
without, `1e16` have lines that push a literal of the source. -/
theorem pushesLiteral_iff {text : String} {code : Listing} (compiled : compile text = .ok code)
    {x : Binary64} (emitted : Instruction.push (.real x) ∈ code.toList) :
    PushesLiteral (Instruction.push (.real x)).text x ↔
      x.value = 0 ∨ (1 / 10000 ≤ x.value ∧ x.value < 10 ^ 16) := by
  have legible : (Token.real x).Legible := legible_of_compile compiled _ emitted
  rcases legible with below | rfl
  · rw [← Binary64.notMem_text_iff below]
    exact ⟨plain_of_pushesLiteral below, pushesLiteral_of_plain below⟩
  · refine iff_of_false ?_ ?_
    · rintro ⟨operand, line, pointed, _⟩
      obtain rfl : Binary64.infinity.text = operand := (String.append_right_inj "push ").mp line
      have spelled : Binary64.infinity.text = "inf" := Operand.text_infinity
      rw [spelled] at pointed
      exact absurd pointed (by decide)
    · exact Binary64.not_plain_of_le (by decide) le_rfl

/-! A text with the numbers at both ends of the range. -/

def Program.pushing : Program where
  declarations := []
  body := .cons (.print (Expr.real (.ofDecimal 1 4)).alone)
    (.cons (.print (Expr.real (.ofDecimal (10 ^ 17) 1)).alone) .nil)

/-- `void main{print(0.0001);print(10000000000000000.0);}` -/
def Program.pushingText : List Char :=
  ['v', 'o', 'i', 'd', ' ', 'm', 'a', 'i', 'n', '\x7b', 'p', 'r', 'i', 'n', 't', '(', '0', '.', '0',
    '0', '0', '1', ')', ';', 'p', 'r', 'i', 'n', 't', '(', '1', '0', '0', '0', '0', '0', '0', '0',
    '0', '0', '0', '0', '0', '0', '0', '0', '0', '.', '0', ')', ';', '\x7d']

theorem Program.spells_pushing : Spells pushingText pushing.spelling := by
  have closed : Spells [')', ';', '\x7d']
      [.mark .closeParen, .mark .semicolon, .mark .closeBrace] :=
    .cons rfl rfl (.cons rfl rfl (.cons rfl rfl .nil))
  have zeros : Lexeme.first '1' ['0', '0', '0', '0', '0', '0', '0', '0', '0', '0', '0', '0', '0',
      '0', '0', '0', '.', '0', ')', ';', '\x7d'] =
      Lexeme.real ('1' :: List.replicate 16 '0') ['0'] := rfl
  have number : Lexeme.decimal (('1' :: List.replicate 16 '0') ++ ['0']) = 10 ^ 17 := by decide
  rw [Lexeme.real, number] at zeros
  have large : Spells ['p', 'r', 'i', 'n', 't', '(', '1', '0', '0', '0', '0', '0', '0', '0', '0',
      '0', '0', '0', '0', '0', '0', '0', '0', '.', '0', ')', ';', '\x7d']
      [.mark .print, .mark .openParen, .real (.ofDecimal (10 ^ 17) 1), .mark .closeParen,
        .mark .semicolon, .mark .closeBrace] :=
    .cons rfl rfl (.cons rfl rfl (.cons rfl zeros closed))
  have small : Spells (['p', 'r', 'i', 'n', 't', '(', '0', '.', '0', '0', '0', '1', ')', ';'] ++ _)
      (.mark .print :: .mark .openParen :: .real (.ofDecimal 1 4) :: .mark .closeParen ::
        .mark .semicolon :: _) :=
    .cons rfl rfl (.cons rfl rfl (.cons rfl rfl (.cons rfl rfl (.cons rfl rfl large))))
  have begun : Spells (['v', 'o', 'i', 'd', ' ', 'm', 'a', 'i', 'n', '\x7b'] ++ _)
      (.mark .void :: .mark .main :: .mark .openBrace :: _) :=
    .cons rfl rfl (.blank (.cons rfl rfl (.cons rfl rfl small)))
  exact begun

theorem exists_pushing : ∃ code, compile (String.ofList Program.pushingText) = .ok code ∧
    Instruction.push (.real (.nth (Binary64.beforeLeast + 1))) ∈ code.toList ∧
      Instruction.push (.real (.nth (Binary64.beforeLimit + 1))) ∈ code.toList := by
  obtain ⟨code, compiled, listed⟩ := Program.compile_of_spells Program.spells_pushing
    ⟨trivial, trivial, trivial⟩ trivial (by decide)
  have lines : Program.pushing.listing "" true 0 = [.push (.real (.ofDecimal 1 4)), .print,
      .push (.real (.ofDecimal (10 ^ 17) 1)), .print, .halt] := rfl
  have small : Binary64.ofDecimal 1 4 = .ofDecimal (10 ^ 336) Binary64.Decimal.finest :=
    Binary64.ofDecimal_congr (by rw [one_mul, ← pow_add, Binary64.Decimal.finest])
  have large : Binary64.ofDecimal (10 ^ 17) 1 = .ofDecimal (10 ^ 356) Binary64.Decimal.finest :=
    Binary64.ofDecimal_congr (by rw [← pow_add, ← pow_add, Binary64.Decimal.finest])
  rw [small, large, Binary64.edge_least.1, Binary64.edge_limit.1] at lines
  refine ⟨code, compiled, ?_⟩
  rw [listed, lines]
  exact ⟨.head _, .tail _ (.tail _ (.head _))⟩

theorem pushesLiteral_pushing : ∃ code, compile (String.ofList Program.pushingText) = .ok code ∧
    PushesLiteral "push 0.0001" (.nth (Binary64.beforeLeast + 1)) ∧
      ¬ PushesLiteral "push 1e16" (.nth (Binary64.beforeLimit + 1)) := by
  obtain ⟨code, compiled, small, large⟩ := exists_pushing
  have least := pushesLiteral_iff compiled small
  have limit := pushesLiteral_iff compiled large
  rw [Instruction.text, Operand.text, Binary64.edge_least.2.2.2, Binary64.le_value_iff,
    Binary64.value_lt_iff] at least
  rw [Instruction.text, Operand.text, Binary64.edge_limit.2.2.2] at limit
  have inside : (Binary64.nth (Binary64.beforeLeast + 1)).units < 10 ^ 16 * Binary64.unitsPerOne :=
    (Binary64.units_lt (by decide) (by decide)).trans Binary64.edge_limit.2.1
  exact ⟨code, compiled, least.mpr (.inr ⟨Binary64.edge_least.2.2.1, inside⟩),
    fun pushes => Binary64.not_plain_of_le (Nat.lt_add_one _) (by decide) (limit.mp pushes)⟩

theorem not_pushesLiteral : ¬ ∀ (text : String) (code : Listing), compile text = .ok code →
    ∀ x, Instruction.push (.real x) ∈ code.toList →
      PushesLiteral (Instruction.push (.real x)).text x := by
  intro claimed
  obtain ⟨code, compiled, _, large⟩ := exists_pushing
  have plain := plain_of_pushesLiteral (by decide) (claimed _ code compiled _ large)
  rw [Binary64.edge_limit.2.2.2] at plain
  exact plain (by decide)

end OnePass
