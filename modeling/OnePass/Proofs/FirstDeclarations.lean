import Mathlib
import OnePass.Proofs.Coherence
import OnePass.Proofs.Unwinding

/-! Declaring names one after the other. A table keeps the first declaration of each name and
nothing of the others, and lists what it keeps in the order of the names. So the listing depends
on which declarations came first under their names, and not on the order of the names. -/
namespace OnePass

/-- An entry that is the first one of its name. -/
def Entry.IsFirst (entry : Entry) (calls : List Entry) : Prop :=
  ∃ before after, calls = before ++ entry :: after ∧ ∀ earlier ∈ before, earlier.name ≠ entry.name

namespace Entry

theorem isFirst_nil (entry : Entry) : ¬ entry.IsFirst [] := by
  rintro ⟨before, after, same, _⟩
  exact List.append_ne_nil_of_right_ne_nil before (List.cons_ne_nil entry after) same.symm

theorem isFirst_cons {entry call : Entry} {calls : List Entry} :
    entry.IsFirst (call :: calls) ↔ entry = call ∨ call.name ≠ entry.name ∧ entry.IsFirst calls := by
  constructor
  · rintro ⟨before, after, same, others⟩
    cases before with
    | nil => exact .inl (List.cons.inj same).1.symm
    | cons head before =>
      obtain ⟨rfl, rfl⟩ := List.cons.inj same
      obtain ⟨other, others⟩ := List.forall_mem_cons.mp others
      exact .inr ⟨other, before, after, rfl, others⟩
  · rintro (rfl | ⟨other, before, after, rfl, others⟩)
    · exact ⟨[], calls, rfl, List.forall_mem_nil _⟩
    · exact ⟨call :: before, after, rfl, List.forall_mem_cons.mpr ⟨other, others⟩⟩

end Entry

namespace SymbolTable

variable {table : SymbolTable} {entry : Entry} {calls : List Entry}

theorem nodup_names (table : SymbolTable) : table.names.Nodup := by
  apply List.pairwise_map.mpr
  apply table.increasing.imp
  intro first second precedes same
  rw [Entry.Precedes, same] at precedes
  exact List.lt_irrefl _ precedes

/-- A table lists what it finds. -/
theorem mem_entries_iff : entry ∈ table.entries ↔ table.lookup entry.name = some entry.type := by
  unfold lookup
  constructor
  · intro member
    have found : (table.entries.find? (·.name = entry.name)).isSome :=
      List.find?_isSome.mpr ⟨entry, member, decide_eq_true rfl⟩
    obtain ⟨other, same⟩ := Option.isSome_iff_exists.mp found
    have named : other.name = entry.name := by simpa using List.find?_some same
    have equal : other = entry :=
      List.inj_on_of_nodup_map table.nodup_names (List.mem_of_find?_eq_some same) member named
    rw [same, equal]
    rfl
  · intro found
    obtain ⟨other, same, type⟩ := Option.map_eq_some_iff.mp found
    have named : other.name = entry.name := by simpa using List.find?_some same
    have equal : other = entry := by
      cases other
      cases entry
      simp_all
    exact equal ▸ List.mem_of_find?_eq_some same

theorem add_of_known (known : entry.name ∈ table.names) : table.add entry = table := by
  rw [add, declare_of_known known]

/-- The table after declarations one after the other, whether they were refused or not. -/
def declareAll (table : SymbolTable) (calls : List Entry) : SymbolTable := calls.foldl add table

theorem mem_names_declareAll {name : String} :
    name ∈ (table.declareAll calls).names ↔ name ∈ calls.map (·.name) ∨ name ∈ table.names := by
  induction calls generalizing table with
  | nil => simp [declareAll]
  | cons call calls ih =>
    change name ∈ ((table.add call).declareAll calls).names ↔ _
    rw [ih, mem_names_add, List.map_cons, List.mem_cons]
    tauto

/-- What declarations add to a table are the first ones under names that it did not have. -/
theorem mem_entries_declareAll : entry ∈ (table.declareAll calls).entries ↔
    entry ∈ table.entries ∨ entry.name ∉ table.names ∧ entry.IsFirst calls := by
  induction calls generalizing table with
  | nil => simp [declareAll, Entry.isFirst_nil]
  | cons call calls ih =>
    change entry ∈ ((table.add call).declareAll calls).entries ↔ _
    rw [ih, Entry.isFirst_cons]
    by_cases known : call.name ∈ table.names
    · rw [add_of_known known]
      constructor
      · rintro (listed | ⟨new, first⟩)
        · exact .inl listed
        · refine .inr ⟨new, .inr ⟨?_, first⟩⟩
          intro same
          exact new (same ▸ known)
      · rintro (listed | ⟨new, rfl | ⟨_, first⟩⟩)
        · exact .inl listed
        · exact absurd known new
        · exact .inr ⟨new, first⟩
    · rw [(entries_add call known).mem_iff, mem_names_add, List.mem_cons]
      constructor
      · rintro ((rfl | listed) | ⟨new, first⟩)
        · exact .inr ⟨known, .inl rfl⟩
        · exact .inl listed
        · obtain ⟨other, new⟩ := not_or.mp new
          exact .inr ⟨new, .inr ⟨Ne.symm other, first⟩⟩
      · rintro (listed | ⟨new, rfl | ⟨other, first⟩⟩)
        · exact .inl (.inr listed)
        · exact .inl (.inl rfl)
        · exact .inr ⟨not_or.mpr ⟨Ne.symm other, new⟩, first⟩

theorem entries_eq_of_mem_iff {one other : SymbolTable}
    (same : ∀ entry, entry ∈ one.entries ↔ entry ∈ other.entries) : one.entries = other.entries := by
  have irreflexive : Std.Irrefl Entry.Precedes := ⟨fun entry => List.lt_irrefl _⟩
  have antisymmetric : Std.Antisymm Entry.Precedes :=
    ⟨fun first second before after => absurd (List.lt_trans before after) (List.lt_irrefl _)⟩
  exact one.increasing.eq_of_mem_iff other.increasing same

/-- What a table shows after declarations one after the other. -/
structure Keeps (table : SymbolTable) (calls : List Entry) : Prop where
  accepts : ∀ entry : Entry, entry.name ∉ calls.map (·.name) →
    table.declare entry.name entry.type = .ok (empty.declareAll (calls ++ [entry]))
  refuses : ∀ entry : Entry, entry.name ∈ calls.map (·.name) →
    table.declare entry.name entry.type = .error ⟨entry.name⟩ ∧
      empty.declareAll (calls ++ [entry]) = table
  finds : ∀ name type, table.lookup name = some type ↔ Entry.IsFirst ⟨name, type⟩ calls
  misses : ∀ name, table.lookup name = none ↔ name ∉ calls.map (·.name)
  size : table.size = (calls.map (·.name)).toFinset.card
  ordered : table.entries.Pairwise Entry.Precedes
  entries : ∀ entry, entry ∈ table.entries ↔ entry.IsFirst calls

theorem mem_names_empty {name : String} :
    name ∈ (empty.declareAll calls).names ↔ name ∈ calls.map (·.name) := by
  rw [mem_names_declareAll]
  exact or_iff_left List.not_mem_nil

theorem mem_entries_empty : entry ∈ (empty.declareAll calls).entries ↔ entry.IsFirst calls := by
  rw [mem_entries_declareAll]
  constructor
  · rintro (listed | ⟨_, first⟩)
    · exact absurd listed List.not_mem_nil
    · exact first
  · intro first
    exact .inr ⟨List.not_mem_nil, first⟩

theorem size_declareAll (calls : List Entry) :
    (empty.declareAll calls).size = (calls.map (·.name)).toFinset.card := by
  have names : (empty.declareAll calls).names.toFinset = (calls.map (·.name)).toFinset := by
    ext name
    rw [List.mem_toFinset, List.mem_toFinset, mem_names_empty]
  rw [← names, List.toFinset_card_of_nodup (nodup_names _), SymbolTable.names, List.length_map, size]

theorem keeps_declareAll (calls : List Entry) : (empty.declareAll calls).Keeps calls where
  accepts entry new := by
    have unknown := mt mem_names_empty.mp new
    rw [declare_of_unknown unknown, declareAll, declareAll, List.foldl_append]
    rfl
  refuses entry known := by
    have named := mem_names_empty.mpr known
    refine ⟨declare_of_known named, ?_⟩
    rw [declareAll, List.foldl_append]
    exact add_of_known named
  finds name type := by
    rw [← mem_entries_empty, mem_entries_iff]
  misses name := by
    rw [lookup_eq_none_iff, mem_names_empty]
  size := size_declareAll calls
  ordered := (empty.declareAll calls).increasing
  entries entry := mem_entries_empty

/-- A table keeps the first declaration of each name, whatever comes between and behind, and its
listing is the same for all sequences of declarations with the same ones first. -/
theorem first_declaration_wins (calls : List Entry) :
    (empty.declareAll calls).Keeps calls ∧
      ∀ others, (∀ entry : Entry, entry.IsFirst calls ↔ entry.IsFirst others) →
        (empty.declareAll calls).entries = (empty.declareAll others).entries ∧
          (empty.declareAll calls).text = (empty.declareAll others).text := by
  refine ⟨keeps_declareAll calls, fun others same => ?_⟩
  have entries : (empty.declareAll calls).entries = (empty.declareAll others).entries := by
    apply entries_eq_of_mem_iff
    intro entry
    rw [mem_entries_empty, mem_entries_empty, same]
  refine ⟨entries, ?_⟩
  rw [text, text, entries]

/-- The same two declarations come first, in the other order and with other ones refused behind
them. -/
theorem first_declaration_wins_reordered :
    (∀ entry : Entry,
      entry.IsFirst [⟨"é", .array .int 3⟩, ⟨"z", .scalar .boolean⟩, ⟨"é", .scalar .int⟩] ↔
        entry.IsFirst [⟨"z", .scalar .boolean⟩, ⟨"z", .scalar .float⟩, ⟨"é", .array .int 3⟩]) ∧
    (empty.declareAll [⟨"é", .array .int 3⟩, ⟨"z", .scalar .boolean⟩, ⟨"é", .scalar .int⟩]).text =
      "<'z', boolean>\n<'é', array(int, 3)>\n" ∧
    (empty.declareAll [⟨"z", .scalar .boolean⟩, ⟨"z", .scalar .float⟩, ⟨"é", .array .int 3⟩]).text =
      "<'z', boolean>\n<'é', array(int, 3)>\n" := by
  have same (entry : Entry) :
      entry.IsFirst [⟨"é", .array .int 3⟩, ⟨"z", .scalar .boolean⟩, ⟨"é", .scalar .int⟩] ↔
        entry.IsFirst [⟨"z", .scalar .boolean⟩, ⟨"z", .scalar .float⟩, ⟨"é", .array .int 3⟩] := by
    simp only [Entry.isFirst_cons, Entry.isFirst_nil, and_false, or_false]
    grind
  have listed : (empty.declareAll
      [⟨"é", .array .int 3⟩, ⟨"z", .scalar .boolean⟩, ⟨"é", .scalar .int⟩]).text =
        "<'z', boolean>\n<'é', array(int, 3)>\n" := by decide +kernel
  exact ⟨same, listed, (first_declaration_wins _).2 _ same |>.2.symm.trans listed⟩

end SymbolTable

end OnePass
