import Mathlib
import OnePass.Proofs.Buffering
import OnePass.Proofs.Naturality
import OnePass.Proofs.Tiling

/-! Layout does not matter. Lexemes that are laid out with a blank behind each of them are read
back whatever blanks and comments stand between them, and the places of tokens show only in the
faults that are reported. -/
namespace OnePass

namespace Trivia

/-- A blank, or a comment that is ended. -/
inductive Whole : List Char → Prop where
  | blank {c} : c ∈ [' ', '\t', '\r', '\n'] → Whole [c]
  | line {body} : '\n' ∉ body → Whole ('/' :: '/' :: (body ++ ['\n']))
  | block {body} : ¬ ['*', '/'] <:+: body → Whole ('/' :: '*' :: (body ++ ['*', '/']))

/-- Blanks and ended comments one behind the other. -/
inductive Gap : List Char → Prop where
  | nil : Gap []
  | cons {piece gap} : Whole piece → Gap gap → Gap (piece ++ gap)

def BeginsBlank (text : List Char) : Prop := ∃ c ∈ [' ', '\t', '\r', '\n'], text.head? = some c

/-- Trivia behind the last lexeme. Its last comment may end with the text. -/
inductive Ending : List Char → Prop where
  | nil : Ending []
  | gap {gap} : BeginsBlank gap → Gap gap → Ending gap
  | comment {gap body} : BeginsBlank gap → Gap gap → '\n' ∉ body →
      Ending (gap ++ '/' :: '/' :: body)

theorem Gap.run {gap : List Char} (whole : Gap gap) (rest : List Char) : Run gap rest := by
  induction whole with
  | nil => exact .nil
  | cons piece _ ih =>
    refine .cons ?_ ih
    cases piece with
    | blank member => exact .blank member
    | line inside => exact .line inside
    | block unclosed => exact .block unclosed

theorem Ending.run {text : List Char} (ending : Ending text) : Run text [] := by
  cases ending with
  | nil => exact .nil
  | gap _ whole => exact whole.run []
  | @comment _ body _ whole inside => exact (whole.run _).append (.singleton (.lastLine inside))

end Trivia

/-- Lexemes with a gap in front of each, and the end of the text behind the last. -/
inductive Continues : List (List Char) → List Char → Prop where
  | ends {text} : Trivia.Ending text → Continues [] text
  | lexeme {gap part parts text} : Trivia.BeginsBlank gap → Trivia.Gap gap → Continues parts text →
      Continues (part :: parts) (gap ++ (part ++ text))

/-- A text in which lexemes are laid out. In front of the first one no blank is needed. -/
inductive LaysOut : List (List Char) → List Char → Prop where
  | bare {gap text} : Trivia.Gap gap → Trivia.Ending text → LaysOut [] (gap ++ text)
  | lexemes {gap part parts text} : Trivia.Gap gap → Continues parts text →
      LaysOut (part :: parts) (gap ++ (part ++ text))

namespace Lexeme

/-- Where a lexeme can end: the text ends there, or a blank follows. -/
def Bounded (text : List Char) : Prop := ∀ c, text.head? = some c → Trivia.isBlank c = true

theorem isBlank_eq_false {c : Char} (named : continuesName c = true) :
    Trivia.isBlank c = false := by
  rw [Bool.eq_false_iff]
  intro blank
  have member := Trivia.isBlank_iff.mp blank
  simp only [List.mem_cons, List.not_mem_nil, or_false] at member
  rcases member with rfl | rfl | rfl | rfl <;> cases named

theorem Shaped.isBlank_eq_false {part : List Char} (shaped : Shaped part) :
    ∀ c ∈ part, Trivia.isBlank c = false := by
  have numeral {digits : List Char} (numeral : IsNumeral digits) :
      ∀ c ∈ digits, Trivia.isBlank c = false := fun c member =>
    Lexeme.isBlank_eq_false (by rw [continuesName, numeral.inside c member, Bool.or_true])
  cases shaped with
  | word word => exact fun c member => Lexeme.isBlank_eq_false (word.inside c member)
  | digits digits => exact numeral digits
  | decimal whole fraction =>
    exact List.forall_mem_append.mpr
      ⟨numeral whole, List.forall_mem_cons.mpr ⟨rfl, numeral fraction⟩⟩
  | sign member => exact fun c inside => (signs_apart _ member c inside).2.2

/-- In front of a blank a lexeme is the longest one, for no lexeme has a blank in it. -/
theorem longest_of_bounded {part rest : List Char} (shaped : Shaped part) (bounded : Bounded rest) :
    LongestShaped part rest := by
  refine ⟨shaped, fun other left same whole => Nat.le_of_not_lt fun longer => ?_⟩
  obtain ⟨more, rfl⟩ : part <+: other :=
    List.prefix_of_prefix_length_le ⟨rest, same.symm⟩ ⟨left, rfl⟩ longer.le
  rw [List.append_assoc] at same
  have behind := List.append_cancel_left same
  -- a longer lexeme would have the blank in it
  cases more with
  | nil => simp at longer
  | cons c more =>
    have blank := bounded c (by rw [← behind]; rfl)
    rw [whole.isBlank_eq_false c (by simp)] at blank
    cases blank

theorem signs_closed : ∀ mark ∈ Mark.signs, ¬ OpensComment mark.spelling.toList := by
  unfold OpensComment
  decide

theorem Shaped.not_opensComment {part : List Char} (shaped : Shaped part) :
    ¬ OpensComment part := by
  intro opens
  have head : part.head? = some '/' := by
    rcases opens with ⟨rest, rfl⟩ | ⟨rest, rfl⟩ <;> rfl
  obtain ⟨mark, member, rfl⟩ := shaped.of_other head (by decide) (by decide)
  exact signs_closed mark member opens

theorem not_opensComment_of_bounded {part rest : List Char} (shaped : Shaped part)
    (bounded : Bounded rest) : ¬ OpensComment (part ++ rest) := by
  obtain ⟨c, text, rfl⟩ := List.exists_cons_of_ne_nil shaped.ne_nil
  cases text with
  | nil =>
    rintro (⟨_, same⟩ | ⟨_, same⟩) <;> obtain ⟨_, rfl⟩ := List.cons.inj same <;>
      cases bounded _ rfl
  | cons d text =>
    have closed := shaped.not_opensComment
    simpa [OpensComment] using closed

/-- Behind a gap, a lexeme in front of a blank is cut off. -/
theorem pieceWidth?_eq_none {part rest : List Char} (shaped : Shaped part)
    (bounded : Bounded rest) : Trivia.pieceWidth? (part ++ rest) = none := by
  have closed := not_opensComment_of_bounded shaped bounded
  obtain ⟨c, text, rfl⟩ := List.exists_cons_of_ne_nil shaped.ne_nil
  have visible := shaped.isBlank_eq_false c List.mem_cons_self
  rw [List.cons_append] at closed ⊢
  generalize text ++ rest = behind at closed ⊢
  unfold Trivia.pieceWidth?
  split
  · rename_i body same
    exact absurd (.inl ⟨body, same.symm⟩) closed
  · rename_i body same
    exact absurd (.inr ⟨body, same.symm⟩) closed
  · rename_i same
    obtain ⟨rfl, _⟩ := List.cons.inj same
    rw [visible]
    rfl
  · rfl

end Lexeme

theorem Continues.bounded {parts : List (List Char)} {text : List Char}
    (continues : Continues parts text) : Lexeme.Bounded text := by
  have begins {gap rest : List Char} (blank : Trivia.BeginsBlank gap) :
      Lexeme.Bounded (gap ++ rest) := by
    obtain ⟨c, member, head⟩ := blank
    obtain ⟨tail, rfl⟩ := List.head?_eq_some_iff.mp head
    rintro d ⟨⟩
    exact Trivia.isBlank_iff.mpr member
  cases continues with
  | ends ending =>
    cases ending with
    | nil => exact nofun
    | gap blank _ =>
      have bounded : Lexeme.Bounded (text ++ []) := begins blank
      rwa [List.append_nil] at bounded
    | comment blank => exact begins blank
  | lexeme blank => exact begins blank

namespace Tiles

theorem of_gap {gap part text : List Char} {token : Token} {tokens : List Token}
    (whole : Trivia.Gap gap) (denotes : Lexeme.Denotes part token) (bounded : Lexeme.Bounded text)
    (tiles : Tiles text tokens) : Tiles (gap ++ (part ++ text)) (token :: tokens) :=
  .lexeme (Trivia.longest_iff.mpr
      ⟨whole.run _, Lexeme.pieceWidth?_eq_none denotes.shaped bounded⟩)
    (Lexeme.not_opensComment_of_bounded denotes.shaped bounded)
    (Lexeme.longest_of_bounded denotes.shaped bounded) denotes tiles

theorem of_continues {parts : List (List Char)} {text : List Char} {tokens : List Token}
    (continues : Continues parts text) (denotes : List.Forall₂ Lexeme.Denotes parts tokens) :
    Tiles text tokens := by
  induction continues generalizing tokens with
  | ends ending =>
    cases denotes
    exact .ends (Trivia.longest_iff.mpr ⟨ending.run, rfl⟩)
  | lexeme _ whole further ih =>
    cases denotes with
    | cons here behind => exact .of_gap whole here further.bounded (ih behind)

/-- A text in which lexemes are laid out is cut into these lexemes. -/
theorem of_laysOut {parts : List (List Char)} {text : List Char} {tokens : List Token}
    (laid : LaysOut parts text) (denotes : List.Forall₂ Lexeme.Denotes parts tokens) :
    Tiles text tokens := by
  cases laid with
  | bare whole ending =>
    cases denotes
    exact .ends (Trivia.longest_iff.mpr ⟨(whole.run _).append ending.run, rfl⟩)
  | lexemes whole continues =>
    cases denotes with
    | cons here behind =>
      exact .of_gap whole here continues.bounded (.of_continues continues behind)

end Tiles

/-! Places. -/

/-- All places are the first one. -/
def Relocation.erasing : Relocation := ⟨fun _ => 1, fun _ => 1⟩

/-- A fault but for its line and column. -/
def Diagnostic.unplaced : Diagnostic → Diagnostic := Relocation.erasing.fault

namespace Instruction

theorem relabelled_id (instruction : Instruction) : instruction.relabelled id = instruction := by
  cases instruction <;> rfl

end Instruction

/-- Given tokens without their places. -/
def Change.erasing : Change where
  toRelocation := .erasing
  label := id
  supply := id
  source
    | .text cursor => .text cursor
    | .given rest _ => .given (rest.map Relocation.erasing.located) 1
  Concerns
    | .text _ => False
    | .given _ _ => True
  fresh _ := rfl
  concerns_next
    | .given [] _, _ => trivial
    | .given (_ :: _) _, _ => trivial
  next
    | .given [] _, _ => rfl
    | .given (_ :: _) _, _ => rfl
  line_source
    | .given _ _, _ => rfl

theorem Change.listing_erasing (code : Listing) : Change.erasing.listing code = code := by
  have same : (fun instruction : Instruction => instruction.relabelled Change.erasing.label) = id :=
    funext Instruction.relabelled_id
  rw [listing, same, Array.map_id]

namespace Session

/-- The places of tokens show only in the fault that is reported. -/
theorem outcome_erasing (session : Session) (tokens : List Located) :
    (session.compile (.ofTokens (tokens.map Relocation.erasing.located))).1.outcome =
      (session.compile (.ofTokens tokens)).1.outcome.mapError Diagnostic.unplaced := by
  have concerned : Change.erasing.Concerns (.ofTokens tokens) := trivial
  have begun := Compilation.start_of_change _ concerned ⟨session.options.stem, session.firstLabel⟩
  change Compilation.start (.ofTokens (tokens.map Relocation.erasing.located))
    ⟨session.options.stem, session.firstLabel⟩ = _ at begun
  unfold compile
  dsimp only
  cases opened : Compilation.start (.ofTokens tokens)
      ⟨session.options.stem, session.firstLabel⟩ with
  | error fault =>
    rw [opened] at begun
    rw [begun]
    rfl
  | ok initial =>
    rw [opened] at begun
    rw [begun]
    dsimp only
    have carried := Compilation.program_carries _ session.options.halting initial
      (Compilation.concerns_of_start _ concerned opened)
    generalize Compilation.program session.options.halting initial = result at carried ⊢
    generalize Compilation.program session.options.halting (Change.erasing.state initial) =
      result' at carried ⊢
    cases carried with
    | @ok _ final _ =>
      have code : (Change.erasing.state final).code = final.code :=
        Change.listing_erasing final.code
      dsimp only
      rw [code]
      rfl
    | @error fault final => rfl

theorem compile_ofText_of_tokenize (session : Session) {text : String} {tokens : List Located}
    (read : tokenize text = .ok tokens) :
    session.compile (.ofText text) = session.compile (.ofTokens tokens) := by
  have drained : (Source.ofText text).drain = (tokens, none) := by
    unfold tokenize at read
    split at read
    · rename_i drained
      rw [drained, Except.ok.inj read]
    · cases read
  have mirrors : Source.Mirrors none (.ofText text) (.ofTokens (tokens ++ [])) :=
    .within drained fun _ => rfl
  rw [List.append_nil] at mirrors
  rcases compile_of_mirrors mirrors with ⟨_, known, _⟩ | ⟨same, _⟩
  · cases known
  · exact same

end Session

theorem Located.erasing_of_tokens {one other : List Located}
    (same : one.map (·.token) = other.map (·.token)) :
    one.map Relocation.erasing.located = other.map Relocation.erasing.located := by
  have erased (tokens : List Located) : tokens.map Relocation.erasing.located =
      (tokens.map (·.token)).map fun token => (⟨token, {}⟩ : Located) := by
    rw [List.map_map]
    rfl
  rw [erased, erased, same]

/-- Texts with the same tokens have the same code, or faults that differ in their places only. -/
theorem compile_alike {one other : String} {located located' : List Located}
    (read : tokenize one = .ok located) (read' : tokenize other = .ok located')
    (same : located.map (·.token) = located'.map (·.token)) :
    (∃ code, compile one = .ok code ∧ compile other = .ok code) ∨
      ∃ fault fault', compile one = .error fault ∧ compile other = .error fault' ∧
        fault.unplaced = fault'.unplaced := by
  have outcome := Session.outcome_erasing {} located
  have outcome' := Session.outcome_erasing {} located'
  rw [Located.erasing_of_tokens same, outcome'] at outcome
  unfold compile
  rw [Session.compile_ofText_of_tokenize {} read, Session.compile_ofText_of_tokenize {} read']
  cases first : (({} : Session).compile (.ofTokens located)).1.outcome with
  | ok compiled =>
    cases second : (({} : Session).compile (.ofTokens located')).1.outcome with
    | ok compiled' =>
      rw [first, second] at outcome
      obtain rfl := Except.ok.inj outcome
      exact .inl ⟨_, rfl, rfl⟩
    | error fault' =>
      rw [first, second] at outcome
      cases outcome
  | error fault =>
    cases second : (({} : Session).compile (.ofTokens located')).1.outcome with
    | ok compiled' =>
      rw [first, second] at outcome
      cases outcome
    | error fault' =>
      rw [first, second] at outcome
      exact .inr ⟨fault, fault', rfl, rfl, (Except.error.inj outcome).symm⟩

/-- However lexemes are laid out, their text is read as the tokens that they stand for, and compiled
to the same code or with the same fault but for its place. -/
theorem compile_of_laysOut {parts : List (List Char)} {tokens : List Token} {one other : String}
    (denotes : List.Forall₂ Lexeme.Denotes parts tokens) (first : LaysOut parts one.toList)
    (second : LaysOut parts other.toList) :
    (∃ located, tokenize one = .ok located ∧ located.map (·.token) = tokens ++ [.finish]) ∧
    (∃ located, tokenize other = .ok located ∧ located.map (·.token) = tokens ++ [.finish]) ∧
    ((∃ code, compile one = .ok code ∧ compile other = .ok code) ∨
      ∃ fault fault', compile one = .error fault ∧ compile other = .error fault' ∧
        fault.unplaced = fault'.unplaced) := by
  obtain ⟨located, read, spells⟩ := tokenize_of_tiles (.of_laysOut first denotes)
  obtain ⟨located', read', spells'⟩ := tokenize_of_tiles (.of_laysOut second denotes)
  exact ⟨⟨located, read, spells⟩, ⟨located', read', spells'⟩,
    compile_alike read read' (spells.trans spells'.symm)⟩

/-! One program in two layouts. -/

/-- Lexemes with the same gap between each two of them, and a text in front and behind. -/
theorem LaysOut.intercalate {front gap ending : List Char} (opening : Trivia.Gap front)
    (blank : Trivia.BeginsBlank gap) (whole : Trivia.Gap gap) (last : Trivia.Ending ending)
    (part : List Char) (parts : List (List Char)) :
    LaysOut (part :: parts) (front ++ (gap.intercalate (part :: parts) ++ ending)) := by
  have behind (part : List Char) : ∃ text, gap.intercalate (part :: parts) ++ ending =
      part ++ text ∧ Continues parts text := by
    induction parts generalizing part with
    | nil => exact ⟨ending, by rw [List.intercalate_singleton], .ends last⟩
    | cons next rest ih =>
      obtain ⟨text, same, continues⟩ := ih next
      refine ⟨gap ++ (next ++ text), ?_, .lexeme blank whole continues⟩
      rw [List.intercalate_cons_cons, List.append_assoc, same, List.append_assoc]
  obtain ⟨text, same, continues⟩ := behind part
  rw [same]
  exact .lexemes opening continues

/-- A text whose tokens spell a program has the code of the program. -/
theorem Program.compile_of_tokenize {p : Program} {text : String} {located : List Located}
    (read : tokenize text = .ok located)
    (spells : located.map (·.token) = p.spelling ++ [.finish]) (nearest : p.body.ElseNearest)
    (undeclaring : p.body.Undeclaring)
    (fits : Scoped [] p.mentions ∧ p.nesting ≤ Compilation.maxNesting) :
    ∃ code, compile text = .ok code ∧ code.toList = p.listing "" true 0 := by
  have inner : ∀ token ∈ p.spelling, (decide (token ≠ .finish)) = true := by
    intro token member
    rw [decide_eq_true_eq]
    rintro rfl
    exact p.finish_notMem member
  have reads : p.Reads located := by
    refine ⟨?_, nearest⟩
    rw [sentence, spells, List.takeWhile_append_of_pos inner]
    exact (List.append_nil _).symm
  have accepted : ({} : Session).Accepts (.ofTokens located) :=
    (Session.accepts_iff_of_reads reads undeclaring).mpr fits
  obtain ⟨compiled, outcome⟩ := accepted
  refine ⟨compiled.code, ?_, Session.code_of_reads reads outcome⟩
  rw [compile, Session.compile_ofText_of_tokenize {} read, outcome]
  rfl

/-- `int n; while (n <= 7 && !false) n = n / 2;` -/
def Program.halving : Program where
  declarations := [⟨.int, .plain "n", []⟩]
  body := .cons (.whileDo
    (.bare .disjunction (.join .conjunction .and rfl nofun
      (.bare .conjunction (.compare .lessEqual rfl (.bare .sum (.bare .product (.name "n")))
        (.bare .sum (.bare .product (.integer 7)))))
      (.bare .comparison (.bare .sum (.bare .product (.not (.truth false)))))))
    (.assign "n" (.bare .disjunction (.bare .conjunction (.bare .comparison (.bare .sum
      (.join .product .divide rfl nofun (.bare .product (.name "n")) (.integer 2)))))))) .nil

def Program.halvingLexemes : List String :=
  ["void", "main", "\x7b", "int", "n", ";", "while", "(", "n", "<=", "7", "&&", "!", "false", ")",
    "n", "=", "n", "/", "2", ";", "\x7d"]

theorem Program.denotes_halving :
    List.Forall₂ Lexeme.Denotes (halvingLexemes.map String.toList) halving.spelling := by
  have name : Lexeme.Denotes "n".toList (.name "n") :=
    @Lexeme.Denotes.name ['n'] ⟨.inl rfl, nofun⟩ (by decide)
  have seven : Lexeme.Denotes "7".toList (.integer 7) := @Lexeme.Denotes.integer ['7']
    ⟨List.cons_ne_nil _ _, List.forall_mem_singleton.mpr rfl⟩ (show 7 ≤ 2 ^ 63 - 1 by omega)
  have two : Lexeme.Denotes "2".toList (.integer 2) := @Lexeme.Denotes.integer ['2']
    ⟨List.cons_ne_nil _ _, List.forall_mem_singleton.mpr rfl⟩ (show 2 ≤ 2 ^ 63 - 1 by omega)
  have spelled : halving.spelling = [.mark .void, .mark .main, .mark .openBrace, .mark .int,
      .name "n", .mark .semicolon, .mark .while, .mark .openParen, .name "n", .mark .lessEqual,
      .integer 7, .mark .and, .mark .not, .mark .false, .mark .closeParen, .name "n",
      .mark .assign, .name "n", .mark .slash, .integer 2, .mark .semicolon,
      .mark .closeBrace] := rfl
  rw [spelled, List.forall₂_map_left_iff, halvingLexemes]
  simp only [List.forall₂_cons]
  exact ⟨.keyword (by decide), .keyword (by decide), .sign (by decide), .keyword (by decide), name,
    .sign (by decide), .keyword (by decide), .sign (by decide), name, .sign (by decide), seven,
    .sign (by decide), .sign (by decide), .keyword (by decide), .sign (by decide), name,
    .sign (by decide), name, .sign (by decide), two, .sign (by decide), .sign (by decide), .nil⟩

/-- The lexemes with a blank between each two of them. -/
def Program.halvingSpaced : String := " ".intercalate halvingLexemes

/-- The lexemes with comments in front, between and behind. -/
def Program.halvingCommented : String :=
  "// \"\n" ++ ("\t/* <= **/".intercalate halvingLexemes ++ "\r//")

theorem compile_of_laysOut_halving :
    (∃ located, tokenize Program.halvingSpaced = .ok located ∧
      located.map (·.token) = Program.halving.spelling ++ [.finish]) ∧
    (∃ located, tokenize Program.halvingCommented = .ok located ∧
      located.map (·.token) = Program.halving.spelling ++ [.finish]) ∧
    ∃ code, compile Program.halvingSpaced = .ok code ∧
      compile Program.halvingCommented = .ok code ∧
      code.lines = ["label 0:", "push n", "load", "push 7", "<=", "push 0", "!", "&&",
        "gofalse label 1", "push n", "push n", "load", "push 2", "/", "store", "goto label 0",
        "label 1:", "halt"] := by
  have space : Trivia.Gap [' '] := .cons (.blank (by decide)) .nil
  have tab : Trivia.Gap ['\t', '/', '*', ' ', '<', '=', ' ', '*', '*', '/'] :=
    .cons (@Trivia.Whole.blank '\t' (by decide))
      (.cons (@Trivia.Whole.block [' ', '<', '=', ' ', '*'] (by decide)) .nil)
  have comment : Trivia.Gap ['/', '/', ' ', '"', '\n'] :=
    .cons (@Trivia.Whole.line [' ', '"'] (by decide)) .nil
  have last : Trivia.Ending ['\r', '/', '/'] :=
    @Trivia.Ending.comment ['\r'] [] ⟨'\r', by decide, rfl⟩ (.cons (.blank (by decide)) .nil) nofun
  have spaced : LaysOut (Program.halvingLexemes.map String.toList)
      Program.halvingSpaced.toList := by
    rw [Program.halvingSpaced, String.toList_intercalate, ← List.append_nil (List.intercalate _ _)]
    exact LaysOut.intercalate .nil ⟨' ', by decide, rfl⟩ space .nil _ _
  have commented : LaysOut (Program.halvingLexemes.map String.toList)
      Program.halvingCommented.toList := by
    rw [Program.halvingCommented, String.toList_append, String.toList_append,
      String.toList_intercalate]
    exact LaysOut.intercalate comment ⟨'\t', by decide, rfl⟩ tab last _ _
  obtain ⟨⟨located, read, spells⟩, readOther, alike⟩ :=
    compile_of_laysOut Program.denotes_halving spaced commented
  refine ⟨⟨located, read, spells⟩, readOther, ?_⟩
  obtain ⟨code, compiled, listed⟩ := Program.compile_of_tokenize read spells
    ⟨trivial, trivial⟩ trivial (by decide)
  rcases alike with ⟨code', same, other⟩ | ⟨fault, _, failed, _⟩
  · obtain rfl := Except.ok.inj (compiled.symm.trans same)
    refine ⟨code, compiled, other, ?_⟩
    rw [Listing.lines, listed]
    decide +kernel
  · rw [compiled] at failed
    cases failed

end OnePass
