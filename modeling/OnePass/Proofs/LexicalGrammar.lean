import Mathlib
import OnePass.Proofs.CorrectRounding
import OnePass.Proofs.InstructionText

/-! The lexical grammar. A text is cut from left to right into trivia and lexemes, of which each
piece is as long as can be, and the tokens of the text are what its lexemes stand for. A text that
cannot be cut so has a lexical fault. -/
namespace OnePass

/-- A part that fits what follows it, and the longest one at its place. -/
structure Longest (admitted : List Char → List Char → Prop) (part rest : List Char) : Prop where
  fits : admitted part rest
  most : ∀ other behind, other ++ behind = part ++ rest → admitted other behind →
    other.length ≤ part.length

namespace Trivia

/-- One piece of trivia and what follows it. A line comment ends at a newline or with the text, a
block comment at the first mark that closes it. -/
inductive Piece : List Char → List Char → Prop where
  | blank {c rest} : c ∈ [' ', '\t', '\r', '\n'] → Piece [c] rest
  | line {body rest} : '\n' ∉ body → Piece ('/' :: '/' :: (body ++ ['\n'])) rest
  | lastLine {body} : '\n' ∉ body → Piece ('/' :: '/' :: body) []
  | block {body rest} : ¬ ['*', '/'] <:+: body → Piece ('/' :: '*' :: (body ++ ['*', '/'])) rest

/-- Pieces one behind the other, and what follows them. -/
inductive Run : List Char → List Char → Prop where
  | nil {rest} : Run [] rest
  | cons {piece run rest} : Piece piece (run ++ rest) → Run run rest → Run (piece ++ run) rest

theorem Run.singleton {piece rest : List Char} (whole : Piece piece rest) : Run piece rest := by
  have run : Run (piece ++ []) rest := .cons whole .nil
  rwa [List.append_nil] at run

theorem isBlank_iff {c : Char} : isBlank c = true ↔ c ∈ [' ', '\t', '\r', '\n'] := by
  simp [isBlank, or_assoc]

theorem lineWidth_of_notMem {body : List Char} (inside : '\n' ∉ body) :
    lineWidth body = body.length := by
  induction body with
  | nil => rfl
  | cons c body ih =>
    obtain ⟨other, inside⟩ := List.ne_and_not_mem_of_not_mem_cons inside
    rw [lineWidth, if_neg (Ne.symm other), ih inside, List.length_cons]

theorem lineWidth_newline {body : List Char} (inside : '\n' ∉ body) (rest : List Char) :
    lineWidth (body ++ '\n' :: rest) = body.length + 1 := by
  induction body with
  | nil => rfl
  | cons c body ih =>
    obtain ⟨other, inside⟩ := List.ne_and_not_mem_of_not_mem_cons inside
    rw [List.cons_append, lineWidth, if_neg (Ne.symm other), ih inside, List.length_cons]

theorem blockWidth?_closed {body : List Char} (unclosed : ¬ ['*', '/'] <:+: body)
    (rest : List Char) : blockWidth? (body ++ '*' :: '/' :: rest) = some (body.length + 2) := by
  induction body with
  | nil => rfl
  | cons c body ih =>
    obtain ⟨apart, inside⟩ := not_or.mp (mt List.infix_cons_iff.mpr unclosed)
    have later : ∀ behind, c = '*' → body ++ '*' :: '/' :: rest = '/' :: behind → False := by
      rintro behind rfl closes
      cases body with
      | nil => cases closes
      | cons d body =>
        obtain ⟨rfl, _⟩ := List.cons.inj closes
        exact apart ⟨body, rfl⟩
    rw [List.cons_append, blockWidth?.eq_3 _ _ later, ih inside]
    rfl

theorem exists_closed {text : List Char} {width : Nat} (closed : blockWidth? text = some width) :
    ∃ body rest, text = body ++ '*' :: '/' :: rest ∧ ¬ ['*', '/'] <:+: body ∧
      width = body.length + 2 := by
  fun_induction blockWidth? text generalizing width with
  | case1 => cases closed
  | case2 rest =>
    obtain rfl := Option.some.inj closed
    exact ⟨[], rest, rfl, by simp, rfl⟩
  | case3 c text later ih =>
    obtain ⟨inner, found, rfl⟩ := Option.map_eq_some_iff.1 closed
    obtain ⟨body, rest, rfl, unclosed, rfl⟩ := ih found
    refine ⟨c :: body, rest, rfl, fun infixed => ?_, rfl⟩
    rcases List.infix_cons_iff.mp infixed with ⟨behind, same⟩ | inside
    · obtain ⟨rfl, rfl⟩ := List.cons.inj same
      exact later _ rfl rfl
    · exact unclosed inside

theorem pieceWidth?_of_piece {piece rest : List Char} (found : Piece piece rest) :
    pieceWidth? (piece ++ rest) = some piece.length := by
  cases found with
  | @blank c _ member =>
    simp only [List.mem_cons, List.not_mem_nil, or_false] at member
    rcases member with rfl | rfl | rfl | rfl <;> rfl
  | @line body _ inside =>
    simp [pieceWidth?, lineWidth_newline inside]
  | @lastLine body inside =>
    simp [pieceWidth?, lineWidth_of_notMem inside]
  | @block body _ unclosed =>
    simp [pieceWidth?, blockWidth?_closed unclosed]

theorem exists_piece {text : List Char} {width : Nat} (found : pieceWidth? text = some width) :
    ∃ piece rest, text = piece ++ rest ∧ Piece piece rest ∧ width = piece.length := by
  revert found
  fun_cases pieceWidth? text <;> intro found
  case case1 body =>
    obtain rfl := Option.some.inj found
    by_cases ends : '\n' ∈ body
    · obtain ⟨front, rest, rfl, inside⟩ := List.eq_append_cons_of_mem ends
      exact ⟨_, rest, by simp, .line inside, by simp [lineWidth_newline inside]⟩
    · exact ⟨_, [], by simp, .lastLine ends, by simp [lineWidth_of_notMem ends]⟩
  case case2 body =>
    obtain ⟨inner, closed, rfl⟩ := Option.map_eq_some_iff.1 found
    obtain ⟨body, rest, rfl, unclosed, rfl⟩ := exists_closed closed
    exact ⟨_, rest, by simp, .block unclosed, by simp⟩
  case case3 c rest _ _ blank =>
    obtain rfl := Option.some.inj found
    exact ⟨[c], rest, rfl, .blank (isBlank_iff.mp blank), rfl⟩
  case case4 => cases found
  case case5 => cases found

theorem exists_run (text : List Char) :
    ∃ run rest, text = run ++ rest ∧ Run run rest ∧ pieceWidth? rest = none := by
  fun_induction width text with
  | case1 text absent => exact ⟨[], text, rfl, .nil, absent⟩
  | case2 text size found ih =>
    obtain ⟨piece, rest, rfl, whole, rfl⟩ := exists_piece found
    rw [List.drop_left] at ih
    obtain ⟨run, rest, rfl, further, absent⟩ := ih
    exact ⟨piece ++ run, rest, (List.append_assoc _ _ _).symm, .cons whole further, absent⟩

theorem Run.append {run other rest : List Char} (first : Run run (other ++ rest))
    (second : Run other rest) : Run (run ++ other) rest := by
  generalize behind : other ++ rest = text at first
  induction first with
  | nil => exact second
  | cons whole _ ih =>
    subst behind
    rw [List.append_assoc]
    rw [← List.append_assoc] at whole
    exact .cons whole (ih rfl)

theorem Run.width_append {run rest : List Char} (found : Run run rest) :
    width (run ++ rest) = run.length + width rest := by
  induction found with
  | nil => exact (Nat.zero_add _).symm
  | @cons piece run rest whole _ ih =>
    rw [List.append_assoc, width_of_piece (pieceWidth?_of_piece whole), List.drop_left, ih,
      List.length_append, Nat.add_assoc]

/-- A run of pieces is the longest one if no further piece follows. -/
theorem longest_iff {run rest : List Char} :
    Longest Run run rest ↔ Run run rest ∧ pieceWidth? rest = none := by
  constructor
  · rintro ⟨found, most⟩
    refine ⟨found, Option.eq_none_iff_forall_ne_some.mpr fun size further => ?_⟩
    obtain ⟨piece, rest, rfl, whole, rfl⟩ := exists_piece further
    have longer : Run (run ++ piece) rest := found.append (.singleton whole)
    have filled := pieceWidth?_bounds further
    have bound := most _ _ (List.append_assoc _ _ _) longer
    rw [List.length_append] at bound
    omega
  · rintro ⟨found, absent⟩
    refine ⟨found, fun other behind same fits => ?_⟩
    have width := fits.width_append
    rw [same, found.width_append, width_of_none absent] at width
    omega

theorem exists_longest (text : List Char) :
    ∃ run rest, text = run ++ rest ∧ Longest Run run rest := by
  obtain ⟨run, rest, same, found⟩ := exists_run text
  exact ⟨run, rest, same, longest_iff.mpr found⟩

end Trivia

namespace Mark

theorem signs_descending :
    signs.Pairwise fun one other => other.spelling.toList.length ≤ one.spelling.toList.length := by
  decide

theorem signs_nodup : (signs.map fun mark => mark.spelling.toList).Nodup := by decide

theorem ofWord?_keyword : ∀ mark ∈ keywords, ofWord? mark.spelling = some mark := by decide

theorem ofWord?_eq_some_iff {word : String} {mark : Mark} :
    ofWord? word = some mark ↔ mark ∈ keywords ∧ mark.spelling = word := by
  constructor
  · intro found
    exact ⟨List.mem_of_find?_eq_some found, by simpa using List.find?_some found⟩
  · rintro ⟨member, rfl⟩
    exact ofWord?_keyword mark member

/-- The sign that a text begins with is the longest one that it begins with. -/
theorem leading?_eq_some_iff {text : List Char} {mark : Mark} :
    leading? text = some mark ↔ mark ∈ signs ∧ mark.spelling.toList <+: text ∧
      ∀ other ∈ signs, other.spelling.toList <+: text →
        other.spelling.toList.length ≤ mark.spelling.toList.length := by
  have found {mark : Mark} (found : leading? text = some mark) : mark ∈ signs ∧
      mark.spelling.toList <+: text ∧ ∀ other ∈ signs, other.spelling.toList <+: text →
        other.spelling.toList.length ≤ mark.spelling.toList.length := by
    obtain ⟨_, before, behind, whole, missed⟩ := List.find?_eq_some_iff_append.mp found
    refine ⟨List.mem_of_find?_eq_some found, leading?_isPrefix found, fun other member begins => ?_⟩
    have descending := signs_descending
    rw [whole] at member descending
    rcases List.mem_append.mp member with early | late
    · have absent := missed other early
      rw [List.isPrefixOf_iff_prefix.mpr begins] at absent
      cases absent
    · rcases List.mem_cons.mp late with rfl | late
      · exact le_rfl
      · exact List.rel_of_pairwise_cons (List.pairwise_append.mp descending).2.1 late
  refine ⟨found, fun given => ?_⟩
  obtain ⟨member, begins, most⟩ := given
  have some : (leading? text).isSome := by
    rw [leading?, List.find?_isSome]
    exact ⟨mark, member, List.isPrefixOf_iff_prefix.mpr begins⟩
  obtain ⟨other, same⟩ := Option.isSome_iff_exists.mp some
  obtain ⟨member', begins', most'⟩ := found same
  have length := Nat.le_antisymm (most other member' begins') (most' mark member begins)
  have spelled := (List.prefix_of_prefix_length_le begins' begins length.le).eq_of_length length
  rw [same, List.inj_on_of_nodup_map signs_nodup member' member spelled]

end Mark

namespace Lexeme

/-! The vocabulary: every keyword and every sign as it is spelled, with its mark. -/

def reserved : List (String × Mark) :=
  [("void", .void), ("main", .main), ("int", .int), ("float", .float), ("boolean", .boolean),
    ("if", .if), ("else", .else), ("while", .while), ("do", .do), ("print", .print),
    ("true", .true), ("false", .false)]

def operators : List (String × Mark) :=
  [("+", .plus), ("-", .minus), ("*", .star), ("/", .slash), ("%", .percent),
    ("==", .equal), ("!=", .notEqual), ("<", .less), ("<=", .lessEqual), (">", .greater),
    (">=", .greaterEqual), ("&&", .and), ("||", .or), ("!", .not), ("=", .assign)]

def punctuation : List (String × Mark) :=
  [("(", .openParen), (")", .closeParen), ("\x7b", .openBrace), ("\x7d", .closeBrace),
    ("[", .openBracket), ("]", .closeBracket), (";", .semicolon), (",", .comma)]

/-- A keyword or a name. -/
inductive IsWord : List Char → Prop where
  | mk {c rest} : c.isAlpha = true ∨ c = '_' → (∀ d ∈ rest, d.isAlphanum = true ∨ d = '_') →
      IsWord (c :: rest)

structure IsNumeral (text : List Char) : Prop where
  filled : text ≠ []
  digits : AllDigits text

/-- What lexemes look like, whether they stand for a token or not. -/
inductive Shaped : List Char → Prop where
  | word {part} : IsWord part → Shaped part
  | digits {digits} : IsNumeral digits → Shaped digits
  | decimal {whole fraction} : IsNumeral whole → IsNumeral fraction →
      Shaped (whole ++ '.' :: fraction)
  | sign {spelled mark} : (spelled, mark) ∈ operators ++ punctuation → Shaped spelled.toList

/-- The token that a lexeme stands for. -/
inductive Denotes : List Char → Token → Prop where
  | keyword {spelled mark} : (spelled, mark) ∈ reserved → Denotes spelled.toList (.mark mark)
  | name {part} : IsWord part → (∀ entry ∈ reserved, entry.1.toList ≠ part) →
      Denotes part (.name (String.ofList part))
  | integer {digits} : IsNumeral digits → Nat.ofDigitChars 10 digits 0 ≤ 2 ^ 63 - 1 →
      Denotes digits (.integer (Nat.ofDigitChars 10 digits 0))
  | real {whole fraction value} : IsNumeral whole → IsNumeral fraction →
      Binary64.Rounds (Nat.ofDigitChars 10 (whole ++ fraction) 0 / 10 ^ fraction.length) value →
      Denotes (whole ++ '.' :: fraction) (.real value)
  | sign {spelled mark} : (spelled, mark) ∈ operators ++ punctuation →
      Denotes spelled.toList (.mark mark)

/-- Whether a text begins with the opening of a comment. -/
def OpensComment (text : List Char) : Prop := ['/', '/'] <+: text ∨ ['/', '*'] <+: text

/-- The longest lexeme at a place. -/
abbrev LongestShaped : List Char → List Char → Prop := Longest fun part _ => Shaped part

/-! The marks that are looked up have the spellings of the vocabulary, and there are no others. -/

theorem mem_reserved_iff {spelled : String} {mark : Mark} :
    (spelled, mark) ∈ reserved ↔ mark ∈ Mark.keywords ∧ mark.spelling = spelled := by
  have table : reserved = Mark.keywords.map fun mark => (mark.spelling, mark) := rfl
  rw [table]
  simp [and_comm]

theorem mem_signs_iff {spelled : String} {mark : Mark} :
    (spelled, mark) ∈ operators ++ punctuation ↔ mark ∈ Mark.signs ∧ mark.spelling = spelled := by
  have table : (operators ++ punctuation).Perm
      (Mark.signs.map fun mark => (mark.spelling, mark)) := by decide
  rw [table.mem_iff]
  simp [and_comm]

theorem startsName_iff {c : Char} : startsName c = true ↔ c.isAlpha = true ∨ c = '_' := by
  simp only [startsName, Char.isAlpha, Char.isUpper, Char.isLower, Char.le_def, ge_iff_le,
    Bool.or_eq_true, Bool.and_eq_true, decide_eq_true_eq]
  tauto

theorem continuesName_iff {c : Char} : continuesName c = true ↔ c.isAlphanum = true ∨ c = '_' := by
  have digit : isDigit c = c.isDigit := rfl
  rw [continuesName, Bool.or_eq_true, startsName_iff, digit, Char.isAlphanum, Bool.or_eq_true]
  tauto

theorem continues_of_starts {c : Char} (starts : startsName c = true) : continuesName c = true := by
  rw [continuesName, starts, Bool.true_or]

/-! The first character of a lexeme tells its kind. -/

theorem head_append {front rest : List Char} {c : Char} (filled : front ≠ [])
    (head : (front ++ rest).head? = some c) : c ∈ front := by
  rw [List.head?_append_of_ne_nil _ filled] at head
  exact List.mem_of_mem_head? head

theorem IsNumeral.inside {text : List Char} (numeral : IsNumeral text) :
    ∀ c ∈ text, isDigit c = true := numeral.digits

theorem IsNumeral.head {text rest : List Char} {c : Char} (numeral : IsNumeral text)
    (head : (text ++ rest).head? = some c) : isDigit c = true :=
  numeral.inside c (head_append numeral.filled head)

theorem isWord_cons {c : Char} {rest : List Char} : IsWord (c :: rest) ↔
    startsName c = true ∧ ∀ d ∈ rest, continuesName d = true := by
  rw [startsName_iff]
  simp only [continuesName_iff]
  constructor
  · rintro ⟨starts, continues⟩
    exact ⟨starts, continues⟩
  · rintro ⟨starts, continues⟩
    exact ⟨starts, continues⟩

theorem IsWord.head {part : List Char} {c : Char} (word : IsWord part)
    (head : part.head? = some c) : startsName c = true := by
  obtain ⟨rest, rfl⟩ := List.head?_eq_some_iff.mp head
  exact (isWord_cons.mp word).1

theorem IsWord.inside {part : List Char} (word : IsWord part) :
    ∀ d ∈ part, continuesName d = true := by
  cases part with
  | nil => nofun
  | cons c rest =>
    obtain ⟨starts, continues⟩ := isWord_cons.mp word
    exact List.forall_mem_cons.mpr ⟨continues_of_starts starts, continues⟩

/-- No sign has a character of a word or number in it. -/
theorem signs_apart : ∀ entry ∈ operators ++ punctuation, ∀ c ∈ entry.1.toList,
    isDigit c = false ∧ startsName c = false ∧ Trivia.isBlank c = false := by
  have all : ∀ entry ∈ operators ++ punctuation, (entry.1.toList.all fun c =>
      !isDigit c && !startsName c && !Trivia.isBlank c) = true := by decide
  intro entry member c inside
  have apart := List.all_eq_true.mp (all entry member) c inside
  simpa [and_assoc] using apart

theorem isWord_reserved {spelled : String} {mark : Mark} (member : (spelled, mark) ∈ reserved) :
    IsWord spelled.toList := by
  have filled : ∀ entry ∈ reserved, entry.1.toList ≠ [] := by decide
  have named : ∀ entry ∈ reserved, entry.1.toList.all startsName = true := by decide
  obtain ⟨c, rest, letters⟩ := List.exists_cons_of_ne_nil (filled _ member)
  have starts := List.all_eq_true.mp (named _ member)
  rw [letters] at starts ⊢
  exact isWord_cons.mpr ⟨starts c List.mem_cons_self, fun d inside =>
    continues_of_starts (starts d (List.mem_cons_of_mem c inside))⟩

section Signs

variable {spelled : String} {mark : Mark} {c : Char}

theorem sign_ne_nil (member : (spelled, mark) ∈ operators ++ punctuation) :
    spelled.toList ≠ [] := by
  have filled : ∀ entry ∈ operators ++ punctuation, entry.1.toList ≠ [] := by decide
  exact filled _ member

theorem not_isDigit_of_sign (member : (spelled, mark) ∈ operators ++ punctuation)
    (head : spelled.toList.head? = some c) : isDigit c = false :=
  (signs_apart _ member c (List.mem_of_mem_head? head)).1

theorem not_startsName_of_sign (member : (spelled, mark) ∈ operators ++ punctuation)
    (head : spelled.toList.head? = some c) : startsName c = false :=
  (signs_apart _ member c (List.mem_of_mem_head? head)).2.1

end Signs

theorem takeWhile_of_boundary {p : Char → Bool} {part rest : List Char}
    (inside : ∀ c ∈ part, p c = true) (stops : ∀ c, rest.head? = some c → p c = false) :
    (part ++ rest).takeWhile p = part := by
  rw [List.takeWhile_append_of_pos inside]
  cases rest with
  | nil => exact List.append_nil part
  | cons c rest => rw [List.takeWhile_cons_of_neg (by simp [stops c rfl]), List.append_nil]

theorem boundary_unique {p : Char → Bool} {part rest part' rest' : List Char}
    (inside : ∀ c ∈ part, p c = true) (stops : ∀ c, rest.head? = some c → p c = false)
    (inside' : ∀ c ∈ part', p c = true) (stops' : ∀ c, rest'.head? = some c → p c = false)
    (same : part ++ rest = part' ++ rest') : part = part' ∧ rest = rest' := by
  have equal : part = part' := by
    rw [← takeWhile_of_boundary inside stops, same, takeWhile_of_boundary inside' stops']
  exact ⟨equal, List.append_cancel_left (equal ▸ same)⟩

theorem length_le_takeWhile {p : Char → Bool} {part rest text : List Char}
    (inside : ∀ c ∈ part, p c = true) (whole : part ++ rest = text) :
    part.length ≤ (text.takeWhile p).length := by
  rw [← whole, List.takeWhile_append_of_pos inside, List.length_append]
  exact Nat.le_add_right _ _

/-- A text is cut where a kind of characters ends. -/
theorem exists_boundary (p : Char → Bool) (text : List Char) :
    ∃ part rest, text = part ++ rest ∧ (∀ c ∈ part, p c = true) ∧
      ∀ c, rest.head? = some c → p c = false := by
  refine ⟨text.takeWhile p, text.dropWhile p, List.takeWhile_append_dropWhile.symm,
    fun c => List.mem_takeWhile_imp, fun c head => ?_⟩
  have stops := List.head?_dropWhile_not p text
  rw [head] at stops
  simpa using stops

theorem Shaped.ne_nil {part : List Char} (shaped : Shaped part) : part ≠ [] := by
  cases shaped with
  | word word =>
    cases word
    exact List.cons_ne_nil _ _
  | digits numeral => exact numeral.filled
  | decimal whole => exact List.append_ne_nil_of_left_ne_nil whole.filled _
  | sign member => exact sign_ne_nil member

theorem Shaped.head?_eq {part rest text : List Char} {c : Char} (shaped : Shaped part)
    (same : part ++ rest = c :: text) : part.head? = some c := by
  have head := congrArg List.head? same
  rwa [List.head?_append_of_ne_nil _ shaped.ne_nil] at head

/-- A lexeme that begins with a digit is a whole number or a decimal. -/
theorem Shaped.of_isDigit {part : List Char} {c : Char} (shaped : Shaped part)
    (head : part.head? = some c) (digit : isDigit c = true) :
    IsNumeral part ∨ ∃ whole fraction, part = whole ++ '.' :: fraction ∧ IsNumeral whole ∧
      IsNumeral fraction := by
  cases shaped with
  | word word => cases (not_isDigit_of_startsName (word.head head)).symm.trans digit
  | digits numeral => exact .inl numeral
  | decimal whole fraction => exact .inr ⟨_, _, rfl, whole, fraction⟩
  | sign member => cases (not_isDigit_of_sign member head).symm.trans digit

theorem Shaped.of_startsName {part : List Char} {c : Char} (shaped : Shaped part)
    (head : part.head? = some c) (starts : startsName c = true) : IsWord part := by
  have letter : isDigit c = false := not_isDigit_of_startsName starts
  cases shaped with
  | word word => exact word
  | digits numeral => cases letter.symm.trans (numeral.inside c (List.mem_of_mem_head? head))
  | decimal whole => cases letter.symm.trans (whole.head head)
  | sign member => cases (not_startsName_of_sign member head).symm.trans starts

theorem Shaped.of_other {part : List Char} {c : Char} (shaped : Shaped part)
    (head : part.head? = some c) (digit : ¬ isDigit c = true) (starts : ¬ startsName c = true) :
    ∃ mark ∈ Mark.signs, part = mark.spelling.toList := by
  cases shaped with
  | word word => exact absurd (word.head head) starts
  | digits numeral => exact absurd (numeral.inside c (List.mem_of_mem_head? head)) digit
  | decimal whole => exact absurd (whole.head head) digit
  | sign member =>
    obtain ⟨looked, rfl⟩ := mem_signs_iff.mp member
    exact ⟨_, looked, rfl⟩

/-! What a lexeme stands for, kind by kind. -/

theorem Denotes.shaped {part : List Char} {token : Token} (denotes : Denotes part token) :
    Shaped part := by
  cases denotes with
  | keyword member => exact .word (isWord_reserved member)
  | name word _ => exact .word word
  | integer numeral _ => exact .digits numeral
  | real whole fraction _ => exact .decimal whole fraction
  | sign member => exact .sign member

theorem Denotes.of_isDigit {part : List Char} {c : Char} {token : Token}
    (denotes : Denotes part token) (head : part.head? = some c) (digit : isDigit c = true) :
    (IsNumeral part ∧ Nat.ofDigitChars 10 part 0 ≤ 2 ^ 63 - 1 ∧
      token = .integer (Nat.ofDigitChars 10 part 0)) ∨
    ∃ whole fraction value, part = whole ++ '.' :: fraction ∧ IsNumeral whole ∧
      Binary64.Rounds (Nat.ofDigitChars 10 (whole ++ fraction) 0 / 10 ^ fraction.length) value ∧
      token = .real value := by
  cases denotes with
  | keyword member =>
    cases (not_isDigit_of_startsName ((isWord_reserved member).head head)).symm.trans digit
  | name word => cases (not_isDigit_of_startsName (word.head head)).symm.trans digit
  | integer numeral small => exact .inl ⟨numeral, small, rfl⟩
  | real whole _ rounds => exact .inr ⟨_, _, _, rfl, whole, rounds, rfl⟩
  | sign member => cases (not_isDigit_of_sign member head).symm.trans digit

theorem point_stops {rest : List Char} : ∀ c, ('.' :: rest).head? = some c → isDigit c = false := by
  rintro c ⟨⟩
  rfl

theorem IsNumeral.point_notMem {digits : List Char} (numeral : IsNumeral digits) :
    '.' ∉ digits := numeral.digits.notMem rfl

theorem outcome_integer_iff {digits : List Char} {token : Token} :
    (Lexeme.integer digits).outcome = .ok token ↔
      Nat.ofDigitChars 10 digits 0 ≤ 2 ^ 63 - 1 ∧
        token = .integer (Nat.ofDigitChars 10 digits 0) := by
  change (if Nat.ofDigitChars 10 digits 0 ≤ 2 ^ 63 - 1
    then .ok (Token.integer (Nat.ofDigitChars 10 digits 0)) else .error _ : Except _ _) = _ ↔ _
  split
  · rename_i small
    exact ⟨fun same => ⟨small, (Except.ok.inj same).symm⟩, fun given => by rw [given.2]⟩
  · rename_i large
    exact ⟨nofun, fun given => absurd given.1 large⟩

theorem denotes_digits_iff {digits : List Char} {token : Token} (numeral : IsNumeral digits) :
    Denotes digits token ↔ (Lexeme.integer digits).outcome = .ok token := by
  rw [outcome_integer_iff]
  constructor
  · intro denotes
    obtain ⟨c, rest, rfl⟩ := List.exists_cons_of_ne_nil numeral.filled
    rcases denotes.of_isDigit rfl (numeral.inside c List.mem_cons_self) with ⟨_, given⟩ |
      ⟨whole, fraction, _, same, _⟩
    · exact given
    · refine absurd ?_ numeral.point_notMem
      rw [same]
      exact List.mem_append_right _ List.mem_cons_self
  · rintro ⟨small, rfl⟩
    exact .integer numeral small

theorem denotes_decimal_iff {whole fraction : List Char} {token : Token}
    (numeral : IsNumeral whole) (numeral' : IsNumeral fraction) :
    Denotes (whole ++ '.' :: fraction) token ↔
      (Lexeme.real whole fraction).outcome = .ok token := by
  constructor
  · intro denotes
    obtain ⟨c, rest, rfl⟩ := List.exists_cons_of_ne_nil numeral.filled
    rcases denotes.of_isDigit rfl (numeral.inside c List.mem_cons_self) with ⟨all, _⟩ |
      ⟨front, back, value, same, front', rounds, rfl⟩
    · exact absurd (List.mem_append_right _ List.mem_cons_self) all.point_notMem
    · obtain ⟨rfl, rfl⟩ := eq_of_append_cons numeral.point_notMem front'.point_notMem same
      rw [(Binary64.rounds_iff _ _ value).mp rounds]
      rfl
  · intro spelled
    have real : token = .real (.ofDecimal (decimal (whole ++ fraction)) fraction.length) :=
      (Except.ok.inj spelled).symm
    rw [real]
    exact .real numeral numeral' ((Binary64.rounds_iff _ _ _).mpr rfl)

/-- A word stands for the keyword that it spells, or else for itself. -/
theorem denotes_word_iff {part : List Char} {token : Token} (word : IsWord part) :
    Denotes part token ↔ token = match Mark.ofWord? (String.ofList part) with
      | some mark => .mark mark
      | none => .name (String.ofList part) := by
  constructor
  · intro denotes
    obtain ⟨c, rest, letters⟩ := List.exists_cons_of_ne_nil (Shaped.word word).ne_nil
    have head : part.head? = some c := by rw [letters]; rfl
    have letter : isDigit c = false := not_isDigit_of_startsName (word.head head)
    cases denotes with
    | @keyword spelled mark member =>
      rw [String.ofList_toList, Mark.ofWord?_eq_some_iff.mpr (mem_reserved_iff.mp member)]
    | name _ other =>
      have absent : Mark.ofWord? (String.ofList part) = none := by
        refine Option.eq_none_iff_forall_ne_some.mpr fun mark found => ?_
        have member := mem_reserved_iff.mpr (Mark.ofWord?_eq_some_iff.mp found)
        exact other _ member String.toList_ofList
      rw [absent]
    | integer numeral => cases letter.symm.trans (numeral.inside c (List.mem_of_mem_head? head))
    | real whole => cases letter.symm.trans (whole.head head)
    | sign member => cases (not_startsName_of_sign member head).symm.trans (word.head head)
  · rintro rfl
    split
    · rename_i mark found
      have member := mem_reserved_iff.mpr (Mark.ofWord?_eq_some_iff.mp found)
      have denotes : Denotes (String.ofList part).toList (.mark mark) := .keyword member
      rwa [String.toList_ofList] at denotes
    · rename_i absent
      refine .name word fun entry member same => ?_
      have found := Mark.ofWord?_eq_some_iff.mpr (mem_reserved_iff.mp member)
      rw [← same, String.ofList_toList, found] at absent
      cases absent

theorem denotes_sign_iff {mark : Mark} {token : Token} (member : mark ∈ Mark.signs) :
    Denotes mark.spelling.toList token ↔ token = .mark mark := by
  have sign : (mark.spelling, mark) ∈ operators ++ punctuation := mem_signs_iff.mpr ⟨member, rfl⟩
  constructor
  · obtain ⟨c, rest, spelled⟩ := List.exists_cons_of_ne_nil (sign_ne_nil sign)
    have head : mark.spelling.toList.head? = some c := by rw [spelled]; rfl
    have digit := not_isDigit_of_sign sign head
    have starts := not_startsName_of_sign sign head
    generalize same : mark.spelling.toList = part at head ⊢
    intro denotes
    cases denotes with
    | keyword keyword => cases starts.symm.trans ((isWord_reserved keyword).head head)
    | name word => cases starts.symm.trans (word.head head)
    | integer numeral => cases digit.symm.trans (numeral.inside c (List.mem_of_mem_head? head))
    | real whole => cases digit.symm.trans (whole.head head)
    | sign other =>
      obtain ⟨looked, rfl⟩ := mem_signs_iff.mp other
      rw [List.inj_on_of_nodup_map Mark.signs_nodup member looked same]
  · rintro rfl
    exact .sign sign

/-! Numbers. -/

theorem number_digits {digits behind : List Char} (numeral : IsNumeral digits)
    (stops : ∀ c, behind.head? = some c → isDigit c = false)
    (whole : ¬ ∃ d rest, behind = '.' :: d :: rest ∧ isDigit d = true) :
    number (digits ++ behind) = integer digits := by
  unfold number
  dsimp only
  rw [takeWhile_of_boundary numeral.inside stops, List.drop_left]
  split
  · rename_i rest
    rw [if_pos]
    cases rest with
    | nil => rfl
    | cons d rest =>
      rw [List.takeWhile_cons_of_neg fun digit => whole ⟨d, rest, rfl, digit⟩]
      rfl
  · rfl

theorem number_decimal {whole fraction behind : List Char} (numeral : IsNumeral whole)
    (numeral' : IsNumeral fraction) (stops : ∀ c, behind.head? = some c → isDigit c = false) :
    number (whole ++ '.' :: (fraction ++ behind)) = real whole fraction := by
  unfold number
  dsimp only
  rw [takeWhile_of_boundary numeral.inside point_stops, List.drop_left]
  change (if ((fraction ++ behind).takeWhile isDigit).isEmpty = true then _ else
    real whole ((fraction ++ behind).takeWhile isDigit)) = _
  rw [takeWhile_of_boundary numeral'.inside stops, if_neg (by simpa using numeral'.filled)]

theorem longest_digits {digits behind : List Char} (numeral : IsNumeral digits)
    (stops : ∀ c, behind.head? = some c → isDigit c = false)
    (whole : ¬ ∃ d rest, behind = '.' :: d :: rest ∧ isDigit d = true) :
    LongestShaped digits behind := by
  refine ⟨.digits numeral, fun other left same shaped => ?_⟩
  obtain ⟨c, rest, rfl⟩ := List.exists_cons_of_ne_nil numeral.filled
  rcases shaped.of_isDigit (shaped.head?_eq same) (numeral.inside c List.mem_cons_self) with all |
    ⟨front, back, rfl, front', back'⟩
  · have length := length_le_takeWhile all.inside same
    rwa [takeWhile_of_boundary numeral.inside stops] at length
  · -- a decimal there would have a point and a digit behind the same digits
    obtain ⟨d, tail, rfl⟩ := List.exists_cons_of_ne_nil back'.filled
    rw [List.append_assoc] at same
    obtain ⟨_, rfl⟩ := boundary_unique front'.inside point_stops numeral.inside stops same
    exact absurd ⟨d, _, rfl, back'.inside d List.mem_cons_self⟩ whole

theorem longest_decimal {whole fraction behind : List Char} (numeral : IsNumeral whole)
    (numeral' : IsNumeral fraction) (stops : ∀ c, behind.head? = some c → isDigit c = false) :
    LongestShaped (whole ++ '.' :: fraction) behind := by
  refine ⟨.decimal numeral numeral', fun other left same shaped => ?_⟩
  obtain ⟨c, rest, start⟩ := List.exists_cons_of_ne_nil numeral.filled
  have digit : isDigit c = true := numeral.inside c (by rw [start]; exact List.mem_cons_self)
  have head : other.head? = some c := shaped.head?_eq (same.trans (by rw [start]; rfl))
  rw [List.append_assoc, List.cons_append] at same
  rcases shaped.of_isDigit head digit with all | ⟨front, back, rfl, front', back'⟩
  · have length := length_le_takeWhile all.inside same
    rw [takeWhile_of_boundary numeral.inside point_stops] at length
    rw [List.length_append]
    omega
  · rw [List.append_assoc, List.cons_append] at same
    obtain ⟨rfl, again⟩ :=
      boundary_unique front'.inside point_stops numeral.inside point_stops same
    have length := length_le_takeWhile back'.inside (List.cons.inj again).2
    rw [takeWhile_of_boundary numeral'.inside stops] at length
    simpa using length

/-- What is found at the beginning of a text: the longest lexeme there, and what it stands for. -/
structure Cuts (found : Lexeme) (part rest : List Char) : Prop where
  width : found.width = part.length
  longest : LongestShaped part rest
  outcome : ∀ token, found.outcome = .ok token ↔ Denotes part token

/-- A text that begins with a digit is cut behind its first digits. -/
theorem exists_numeral {c : Char} {rest : List Char} (digit : isDigit c = true) :
    ∃ numeral behind, c :: rest = numeral ++ behind ∧ IsNumeral numeral ∧
      ∀ d, behind.head? = some d → isDigit d = false := by
  obtain ⟨part, behind, same, inside, stops⟩ := exists_boundary isDigit (c :: rest)
  refine ⟨part, behind, same, ⟨?_, inside⟩, stops⟩
  rintro rfl
  cases (stops c (congrArg List.head? same).symm).symm.trans digit

theorem exists_cuts_number {c : Char} {rest : List Char} (digit : isDigit c = true) :
    ∃ part behind, c :: rest = part ++ behind ∧ Cuts (number (c :: rest)) part behind := by
  obtain ⟨whole, behind, same, numeral, stops⟩ := exists_numeral digit
  rw [same]
  by_cases pointed : ∃ d rest, behind = '.' :: d :: rest ∧ isDigit d = true
  · obtain ⟨d, tail, rfl, further⟩ := pointed
    obtain ⟨fraction, last, tailed, numeral', stops'⟩ := exists_numeral further
    rw [tailed, number_decimal numeral numeral' stops']
    refine ⟨whole ++ '.' :: fraction, last, by rw [List.append_assoc, List.cons_append], ?_,
      longest_decimal numeral numeral' stops',
      fun token => (denotes_decimal_iff numeral numeral').symm⟩
    simp only [real, List.length_append, List.length_cons]
    omega
  · rw [number_digits numeral stops pointed]
    exact ⟨whole, behind, rfl, rfl, longest_digits numeral stops pointed,
      fun token => (denotes_digits_iff numeral).symm⟩

theorem exists_cuts_word {c : Char} {rest : List Char} (starts : startsName c = true) :
    ∃ part behind, c :: rest = part ++ behind ∧ Cuts (word (c :: rest)) part behind := by
  obtain ⟨tail, behind, rfl, inside, stops⟩ := exists_boundary continuesName rest
  have whole : IsWord (c :: tail) := isWord_cons.mpr ⟨starts, inside⟩
  have letters : (c :: (tail ++ behind)).takeWhile continuesName = c :: tail := by
    rw [List.takeWhile_cons_of_pos (continues_of_starts starts), takeWhile_of_boundary inside stops]
  refine ⟨c :: tail, behind, rfl, ?_, ⟨.word whole, fun other left same shaped => ?_⟩,
    fun token => ?_⟩
  · exact congrArg List.length letters
  · have other' := shaped.of_startsName (shaped.head?_eq same) starts
    have length := length_le_takeWhile other'.inside same
    rwa [List.cons_append, letters] at length
  · rw [denotes_word_iff whole]
    unfold word
    dsimp only
    rw [letters, Except.ok.injEq]
    exact eq_comm

theorem cuts_sign {c : Char} {rest : List Char} {mark : Mark} (digit : ¬ isDigit c = true)
    (starts : ¬ startsName c = true) (found : Mark.leading? (c :: rest) = some mark) :
    ∃ behind, c :: rest = mark.spelling.toList ++ behind ∧
      Cuts (sign c rest) mark.spelling.toList behind := by
  obtain ⟨member, ⟨behind, same⟩, most⟩ := Mark.leading?_eq_some_iff.mp found
  have shaped : Shaped mark.spelling.toList := .sign (mem_signs_iff.mpr ⟨member, rfl⟩)
  refine ⟨behind, same.symm, ?_, ⟨shaped, fun other left again shaped => ?_⟩, fun token => ?_⟩
  · unfold sign
    rw [found]
    exact String.length_toList.symm
  · rw [same] at again
    obtain ⟨mark', member', rfl⟩ := shaped.of_other (shaped.head?_eq again) digit starts
    exact most mark' member' ⟨left, again⟩
  · unfold sign
    rw [denotes_sign_iff member, found, Except.ok.injEq]
    exact eq_comm

theorem not_shaped_of_leading? {c : Char} {rest : List Char} (digit : ¬ isDigit c = true)
    (starts : ¬ startsName c = true) (none : Mark.leading? (c :: rest) = none) :
    ∀ part behind, c :: rest = part ++ behind → ¬ Shaped part := by
  intro part behind same shaped
  obtain ⟨mark, member, rfl⟩ := shaped.of_other (shaped.head?_eq same.symm) digit starts
  have missed := List.find?_eq_none.mp none mark member
  exact missed (List.isPrefixOf_iff_prefix.mpr ⟨behind, same.symm⟩)

/-- Where a text opens no comment, the longest lexeme at its beginning is found, or there is
none. -/
theorem first_cases {c : Char} {rest : List Char} (closed : ¬ OpensComment (c :: rest)) :
    (∃ part behind, c :: rest = part ++ behind ∧ Cuts (first c rest) part behind) ∨
      (∀ token, (first c rest).outcome ≠ .ok token) ∧
        ∀ part behind, c :: rest = part ++ behind → ¬ Shaped part := by
  unfold first
  split
  · rename_i digit
    exact .inl (exists_cuts_number digit)
  split
  · rename_i starts
    exact .inl (exists_cuts_word starts)
  rename_i digit starts
  rw [if_neg]
  · cases found : Mark.leading? (c :: rest) with
    | some mark =>
      obtain ⟨behind, same, cuts⟩ := cuts_sign digit starts found
      exact .inl ⟨_, behind, same, cuts⟩
    | none =>
      refine .inr ⟨fun token spelled => ?_, not_shaped_of_leading? digit starts found⟩
      unfold sign at spelled
      rw [found] at spelled
      cases spelled
  · rintro ⟨rfl, next⟩
    obtain ⟨tail, rfl⟩ := List.head?_eq_some_iff.mp next
    exact closed (.inr ⟨tail, rfl⟩)

end Lexeme

end OnePass
