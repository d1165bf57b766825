import OnePass.DataType

/-! Tables of declared names. The first declaration of a name wins, and the entries are
kept in the byte order of the names, so that a table has one listing whatever the order
of the declarations was. -/
namespace OnePass

structure Entry where
  name : String
  type : DataType
  deriving DecidableEq, Repr

/-- The bytes by which names are ordered. -/
def nameBytes (name : String) : List UInt8 := name.toUTF8.data.toList

theorem nameBytes_injective {first second : String}
    (same : nameBytes first = nameBytes second) : first = second := by
  have data : first.toUTF8.data = second.toUTF8.data := Array.toList_inj.1 same
  exact String.toByteArray_inj.1 (ByteArray.ext data)

namespace Entry

def Precedes (first second : Entry) : Prop := nameBytes first.name < nameBytes second.name

instance (first second : Entry) : Decidable (first.Precedes second) :=
  inferInstanceAs (Decidable (nameBytes first.name < nameBytes second.name))

theorem Precedes.trans {first second third : Entry} (left : first.Precedes second)
    (right : second.Precedes third) : first.Precedes third :=
  List.lt_trans left right

theorem precedes_of_not {first second : Entry} (different : first.name ≠ second.name)
    (later : ¬ first.Precedes second) : second.Precedes first := by
  apply Decidable.byContradiction
  intro earlier
  exact different (nameBytes_injective
    (List.le_antisymm (List.not_lt.1 earlier) (List.not_lt.1 later)))

/-- Puts an entry in front of the first one that it precedes. -/
def insert (entry : Entry) : List Entry → List Entry
  | [] => [entry]
  | head :: rest =>
    if entry.Precedes head then entry :: head :: rest else head :: insert entry rest

theorem mem_insert {entry other : Entry} {entries : List Entry} :
    other ∈ insert entry entries ↔ other = entry ∨ other ∈ entries := by
  induction entries with
  | nil => simp [insert]
  | cons head rest ih =>
    simp only [insert]
    split
    · simp
    · simp only [List.mem_cons, ih]
      exact ⟨by rintro (h | h | h) <;> simp [h], by rintro (h | h | h) <;> simp [h]⟩

theorem insert_increasing {entry : Entry} {entries : List Entry}
    (increasing : entries.Pairwise Precedes) (fresh : ∀ other ∈ entries, other.name ≠ entry.name) :
    (insert entry entries).Pairwise Precedes := by
  induction entries with
  | nil => simp [insert]
  | cons head rest ih =>
    rw [List.pairwise_cons] at increasing
    obtain ⟨first, others⟩ := increasing
    simp only [insert]
    split
    · rename_i before
      refine List.pairwise_cons.2 ⟨fun other member => ?_, List.pairwise_cons.2 ⟨first, others⟩⟩
      rcases List.mem_cons.1 member with rfl | inner
      · exact before
      · exact before.trans (first other inner)
    · rename_i notBefore
      refine List.pairwise_cons.2 ⟨fun other member => ?_,
        ih others fun other member => fresh other (List.mem_cons_of_mem _ member)⟩
      rcases mem_insert.1 member with rfl | inner
      · exact precedes_of_not (fresh head List.mem_cons_self).symm notBefore
      · exact first other inner

end Entry

/-- The names declared so far, in the order of their bytes. -/
structure SymbolTable where
  entries : List Entry := []
  increasing : entries.Pairwise Entry.Precedes := by exact List.Pairwise.nil
  deriving DecidableEq, Repr

structure Redeclaration where
  name : String
  deriving DecidableEq, Repr

def Redeclaration.message (refused : Redeclaration) : String :=
  "identifier '" ++ refused.name ++ "' is already declared"

namespace SymbolTable

def empty : SymbolTable := {}

instance : Inhabited SymbolTable := ⟨empty⟩

def size (table : SymbolTable) : Nat := table.entries.length

def isEmpty (table : SymbolTable) : Bool := table.entries.isEmpty

def lookup (table : SymbolTable) (name : String) : Option DataType :=
  (table.entries.find? (·.name = name)).map (·.type)

theorem name_ne_of_lookup {table : SymbolTable} {name : String} (absent : table.lookup name = none) :
    ∀ entry ∈ table.entries, entry.name ≠ name := by
  simpa [lookup, List.find?_eq_none] using absent

def declare (table : SymbolTable) (name : String) (type : DataType) :
    Except Redeclaration SymbolTable :=
  if absent : table.lookup name = none then
    .ok ⟨Entry.insert ⟨name, type⟩ table.entries,
      Entry.insert_increasing table.increasing (name_ne_of_lookup absent)⟩
  else .error ⟨name⟩

/-- One line for each name. -/
def text (table : SymbolTable) : String :=
  String.join (table.entries.map fun entry =>
    "<'" ++ entry.name ++ "', " ++ entry.type.text ++ ">\n")

end SymbolTable

end OnePass
