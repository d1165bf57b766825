import Mathlib
import OnePass.Proofs.RealLiterals

/-! The renderings of code: its lines, its text and the bytes that it writes. They agree, also where
a sink is full before the end of the text, and the text of a compiled program is cut at its newlines
into the lines. -/
namespace OnePass

/-! Bytes are written in order as far as there is room. -/

namespace Sink

variable {sink : Sink} {bytes : List UInt8}

theorem room_of_fits (fits : bytes.length ≤ sink.room bytes.length) (count : Nat) :
    sink.room (bytes.length + count) =
      bytes.length + { sink with written := sink.written ++ bytes }.room count := by
  cases limit : sink.capacity with
  | none => simp only [room, limit]
  | some capacity =>
    simp only [room, limit, List.length_append] at fits ⊢
    omega

theorem room_of_full (full : sink.room bytes.length < bytes.length) (count : Nat) :
    sink.room (bytes.length + count) = sink.room bytes.length := by
  cases limit : sink.capacity with
  | none =>
    simp only [room, limit] at full
    omega
  | some capacity =>
    simp only [room, limit] at full ⊢
    omega

theorem write_of_fits (fits : bytes.length ≤ sink.room bytes.length) :
    sink.write bytes = (.ok (), { sink with written := sink.written ++ bytes }) := by
  rw [write, if_neg (Nat.not_lt.mpr fits), List.take_of_length_le fits]

theorem write_of_full (full : sink.room bytes.length < bytes.length) :
    sink.write bytes = (.error .full,
      { sink with written := sink.written ++ bytes.take (sink.room bytes.length) }) := by
  rw [write, if_pos full]

/-- After bytes that fit, a write goes on behind them. -/
theorem write_append_of_fits (fits : bytes.length ≤ sink.room bytes.length) (more : List UInt8) :
    sink.write (bytes ++ more) = { sink with written := sink.written ++ bytes }.write more := by
  have room := room_of_fits fits more.length
  simp only [write, List.length_append, room, Nat.add_lt_add_iff_left, List.take_length_add_append,
    List.append_assoc]

/-- Behind bytes that do not fit, nothing is written. -/
theorem write_append_of_full (full : sink.room bytes.length < bytes.length) (more : List UInt8) :
    sink.write (bytes ++ more) = sink.write bytes := by
  have room := room_of_full full more.length
  have longer : sink.room (bytes ++ more).length < (bytes ++ more).length := by
    rw [List.length_append, room]
    omega
  rw [write_of_full longer, write_of_full full, List.length_append, room,
    List.take_append_of_le_length full.le]

/-- Where the bytes are cut into pieces makes no difference, whichever piece finds the sink full. -/
theorem writeAll_eq_write (sink : Sink) (pieces : List (List UInt8)) :
    sink.writeAll pieces = sink.write pieces.flatten := by
  induction pieces generalizing sink with
  | nil =>
    have fits : ([] : List UInt8).length ≤ sink.room ([] : List UInt8).length := Nat.zero_le _
    rw [writeAll, List.flatten_nil, write_of_fits fits, List.append_nil]
  | cons piece rest ih =>
    rw [writeAll, List.flatten_cons]
    rcases Nat.lt_or_ge (sink.room piece.length) piece.length with full | fits
    · rw [write_append_of_full full, write_of_full full]
    · rw [write_append_of_fits fits, write_of_fits fits]
      exact ih _

theorem write_unbounded (bytes : List UInt8) :
    unbounded.write bytes = (.ok (), { unbounded with written := bytes }) :=
  write_of_fits le_rfl

theorem write_bounded (capacity : Nat) (bytes : List UInt8) :
    (bounded capacity).write bytes =
      (if capacity < bytes.length then .error .full else .ok (),
        { bounded capacity with written := bytes.take (min capacity bytes.length) }) := by
  have room : (bounded capacity).room bytes.length = min capacity bytes.length := Nat.min_comm _ _
  by_cases short : capacity < bytes.length
  · rw [if_pos short, write_of_full (by omega), room]
    rfl
  · rw [if_neg short, write_of_fits (by omega), List.take_of_length_le (by omega)]
    rfl

end Sink

theorem textBytes_append (first second : String) :
    textBytes (first ++ second) = textBytes first ++ textBytes second := by
  simp only [textBytes, String.toUTF8, String.toByteArray_append, ByteArray.data_append,
    Array.toList_append]

theorem flatten_textBytes (texts : List String) :
    (texts.map textBytes).flatten = textBytes (String.join texts) := by
  induction texts with
  | nil => rfl
  | cons text rest ih =>
    rw [List.map_cons, List.flatten_cons, ih, String.join_cons, textBytes_append]

/-! The pieces of the code make up its lines. -/

theorem Instruction.join_pieces (instruction : Instruction) :
    String.join instruction.pieces = instruction.text := by
  cases instruction with
  | push operand => simp [pieces, text]
  | array name element size => simp [pieces, text, String.append_assoc]
  | label defined => simp [pieces, text, String.append_assoc]
  | goto target => simp [pieces, text]
  | goFalse target => simp [pieces, text]
  | _ => simp [pieces]

namespace Listing

theorem text_eq_join (code : Listing) :
    code.text = String.join (code.lines.map (· ++ "\n")) := by
  rw [text, pieces, lines]
  induction code.toList with
  | nil => rfl
  | cons instruction rest ih =>
    have newline : String.join ["\n"] = "\n" := rfl
    rw [List.flatMap_cons, String.join_append, String.join_append, instruction.join_pieces, newline,
      ih, List.map_cons, List.map_cons, String.join_cons]

theorem writeTo_eq_write (code : Listing) (sink : Sink) :
    code.writeTo sink = sink.write (textBytes code.text) := by
  rw [writeTo, Sink.writeAll_eq_write, flatten_textBytes, text]

end Listing

/-! Lines without a newline in them are told apart by the newlines that end them. -/

theorem toList_join_lines (lines : List String) :
    (String.join (lines.map (· ++ "\n"))).toList =
      lines.flatMap fun line => line.toList ++ ['\n'] := by
  simp [String.toList_join, List.flatMap_map]

theorem splitToList_join_lines {lines : List String}
    (flat : ∀ line ∈ lines, '\n' ∉ line.toList) :
    (String.join (lines.map (· ++ "\n"))).splitToList (· == '\n') = lines ++ [""] := by
  rw [String.splitToList_of_valid, toList_join_lines]
  induction lines with
  | nil => rfl
  | cons line rest ih =>
    obtain ⟨missing, others⟩ := List.forall_mem_cons.mp flat
    have inside : ∀ c ∈ line.toList, (c == '\n') = false := by
      intro c member
      rw [beq_eq_false_iff_ne]
      rintro rfl
      exact missing member
    rw [List.flatMap_cons, List.append_assoc, List.singleton_append,
      List.splitOnP_append_cons_of_forall_mem inside _ rfl, List.map_cons, ih others,
      String.ofList_toList, List.cons_append]

theorem count_join_lines {lines : List String} (flat : ∀ line ∈ lines, '\n' ∉ line.toList) :
    (String.join (lines.map (· ++ "\n"))).toList.count '\n' = lines.length := by
  rw [toList_join_lines]
  induction lines with
  | nil => rfl
  | cons line rest ih =>
    obtain ⟨missing, others⟩ := List.forall_mem_cons.mp flat
    rw [List.flatMap_cons, List.count_append, List.count_append,
      List.count_eq_zero_of_not_mem missing, List.count_singleton_self, ih others, List.length_cons]
    omega

theorem Trivia.newline_notMem {text : List Char} (visible : ∀ c ∈ text, Visible c) :
    '\n' ∉ text := by
  intro member
  cases (visible '\n' member).1

theorem Token.visible_name {text : String} (legible : (name text).Legible) :
    ∀ c ∈ text.toList, Trivia.Visible c := by
  obtain ⟨first, rest, chars, starts, continues⟩ := legible
  rw [chars]
  intro c member
  apply Trivia.visible_of_continues
  rcases List.mem_cons.mp member with rfl | later
  · exact Lexeme.continues_of_starts starts
  · exact continues c later

theorem Operand.visible_text {operand : Operand} (legible : operand.token.Legible) :
    ∀ c ∈ operand.text.toList, Trivia.Visible c := by
  cases operand with
  | integer value => exact visible_toString value
  | real value =>
    rcases legible with below | rfl
    · obtain ⟨d, text, _⟩ := Binary64.exists_text below
      rw [Operand.text, text]
      exact d.visible_text _
    · rw [text_infinity]
      exact Token.visible_name ⟨'i', ['n', 'f'], rfl, rfl, List.all_eq_true.mp rfl⟩
  | name spelled => exact Token.visible_name legible

theorem newline_notMem_toString (n : Nat) : '\n' ∉ (toString n).toList := by
  change '\n' ∉ n.repr.toList
  rw [Nat.toList_repr]
  exact (allDigits_toDigits n).notMem rfl

theorem Label.newline_notMem_text {label : Label} (flat : '\n' ∉ label.stem.toList) :
    '\n' ∉ label.text.toList := by
  rw [Label.text, String.toList_append, List.mem_append, not_or]
  exact ⟨flat, newline_notMem_toString label.number⟩

namespace Instruction

variable {instruction : Instruction} {stem : String}

theorem newline_notMem_pieces (legible : instruction.Legible stem) (flat : '\n' ∉ stem.toList) :
    ∀ piece ∈ instruction.pieces, '\n' ∉ piece.toList := by
  -- The fixed words are plain, so that only operands, names, sizes and labels matter.
  cases instruction with
  | push operand =>
    have shown := Trivia.newline_notMem (Operand.visible_text legible)
    simp [pieces, shown]
  | array name element size =>
    have named := Trivia.newline_notMem (Token.visible_name legible)
    have typed : '\n' ∉ element.text.toList := by cases element <;> decide
    have sized := newline_notMem_toString size
    simpa [pieces, named, typed] using sized
  | label defined | goto defined | goFalse defined =>
    obtain rfl : defined.stem = stem := legible
    have placed := Label.newline_notMem_text flat
    simp [pieces, placed]
  | binary op => cases op <;> simp [pieces, text, BinaryOp.text]
  | _ => simp [pieces, text]

theorem newline_notMem_text (legible : instruction.Legible stem) (flat : '\n' ∉ stem.toList) :
    '\n' ∉ instruction.text.toList := by
  rw [← instruction.join_pieces, String.toList_join, List.mem_flatMap]
  rintro ⟨piece, member, inside⟩
  exact newline_notMem_pieces legible flat piece member inside

end Instruction

theorem newline_notMem_lines {source : String} {code : Listing}
    (compiled : compile source = .ok code) : ∀ line ∈ code.lines, '\n' ∉ line.toList := by
  intro line member
  obtain ⟨instruction, emitted, rfl⟩ := List.mem_map.mp member
  exact Instruction.newline_notMem_text (legible_of_compile compiled instruction emitted) (by simp)

/-- Text, lines and written bytes agree. A sink of bounded capacity takes the beginning of the text,
and refuses it if it is longer. The code of a program text has no newline inside a line, so that its
text is cut at the newlines into the lines, with nothing behind the last. -/
theorem Listing.renderings_agree (code : Listing) :
    code.text = String.join (code.lines.map (· ++ "\n")) ∧
    code.writeTo .unbounded = (.ok (), { Sink.unbounded with written := textBytes code.text }) ∧
    (∀ capacity, code.writeTo (.bounded capacity) =
      (if capacity < (textBytes code.text).length then .error .full else .ok (),
        { Sink.bounded capacity with
          written := (textBytes code.text).take (min capacity (textBytes code.text).length) })) ∧
    ∀ source, compile source = .ok code →
      code.text.splitToList (· == '\n') = code.lines ++ [""] ∧
        code.text.toList.count '\n' = code.size := by
  refine ⟨code.text_eq_join, ?_, ?_, ?_⟩
  · rw [writeTo_eq_write, Sink.write_unbounded]
  · intro capacity
    rw [writeTo_eq_write, Sink.write_bounded]
  · intro source compiled
    have flat := newline_notMem_lines compiled
    have length : code.lines.length = code.size := by simp [lines, size, toList]
    rw [text_eq_join, ← length]
    exact ⟨splitToList_join_lines flat, count_join_lines flat⟩

/-! A text whose code has labels, jumps and an array. -/

def Program.looping : Program where
  declarations := [⟨.int, .array "v" 2 (by decide), []⟩]
  body := .cons (.whileDo (Expr.truth true).alone
    (.update "v" (.bare .sum (.bare .product (.integer 0))) (Expr.integer 1).alone)) .nil

/-- `void main{int v[2];while(true)v[0]=1;}` -/
def Program.loopingText : List Char :=
  ['v', 'o', 'i', 'd', ' ', 'm', 'a', 'i', 'n', '\x7b', 'i', 'n', 't', ' ', 'v', '[', '2', ']', ';',
    'w', 'h', 'i', 'l', 'e', '(', 't', 'r', 'u', 'e', ')', 'v', '[', '0', ']', '=', '1', ';',
    '\x7d']

theorem Program.spells_looping : Spells loopingText looping.spelling := by
  have stored : Spells ['v', '[', '0', ']', '=', '1', ';', '\x7d']
      [.name "v", .mark .openBracket, .integer 0, .mark .closeBracket, .mark .assign, .integer 1,
        .mark .semicolon, .mark .closeBrace] :=
    .cons rfl rfl (.cons rfl rfl (.cons rfl rfl (.cons rfl rfl (.cons rfl rfl (.cons rfl rfl
      (.cons rfl rfl (.cons rfl rfl .nil)))))))
  have tested : Spells (['w', 'h', 'i', 'l', 'e', '(', 't', 'r', 'u', 'e', ')'] ++ _)
      (.mark .while :: .mark .openParen :: .mark .true :: .mark .closeParen :: _) :=
    .cons rfl rfl (.cons rfl rfl (.cons rfl rfl (.cons rfl rfl stored)))
  have declared : Spells (['i', 'n', 't', ' ', 'v', '[', '2', ']', ';'] ++ _)
      (.mark .int :: .name "v" :: .mark .openBracket :: .integer 2 :: .mark .closeBracket ::
        .mark .semicolon :: _) :=
    .cons rfl rfl (.blank (.cons rfl rfl (.cons rfl rfl (.cons rfl rfl (.cons rfl rfl
      (.cons rfl rfl tested))))))
  have begun : Spells (['v', 'o', 'i', 'd', ' ', 'm', 'a', 'i', 'n', '\x7b'] ++ _)
      (.mark .void :: .mark .main :: .mark .openBrace :: _) :=
    .cons rfl rfl (.blank (.cons rfl rfl (.cons rfl rfl declared)))
  exact begun

/-- A sink of 17 bytes is full inside the first label. -/
theorem Listing.renderings_agree_looping :
    ∃ code, compile (String.ofList Program.loopingText) = .ok code ∧
      code.text.splitToList (· == '\n') = ["array v int 2", "label 0:", "push 1", "gofalse label 1",
        "push v", "push 0", "+", "push 1", "store", "goto label 0", "label 1:", "halt", ""] ∧
      code.text.toList.count '\n' = 12 ∧
      code.writeTo (.bounded 17) =
        (.error .full, { Sink.bounded 17 with written := textBytes "array v int 2\nlab" }) := by
  obtain ⟨code, compiled, listed⟩ := Program.compile_of_spells Program.spells_looping
    ⟨trivial, trivial⟩ trivial (by decide)
  have listing : code.lines = ["array v int 2", "label 0:", "push 1", "gofalse label 1", "push v",
      "push 0", "+", "push 1", "store", "goto label 0", "label 1:", "halt"] := by
    rw [lines, listed]
    decide +kernel
  obtain ⟨joined, _, bounded, accepted⟩ := code.renderings_agree
  obtain ⟨split, count⟩ := accepted _ compiled
  have twelve : code.size = 12 := by
    rw [size, ← Array.length_toList]
    exact congrArg List.length listed
  refine ⟨code, compiled, ?_, count.trans twelve, ?_⟩
  · rw [split, listing]
    rfl
  · rw [bounded 17, joined, listing]
    decide +kernel

end OnePass
