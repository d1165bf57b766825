import Mathlib
import OnePass.Proofs.Syntax

/-! The names of a program in the order of its tokens, and how deep a program goes. There is
one scope: a declarator adds its name for the whole rest of the program. -/
namespace OnePass

inductive Mention where
  | declares (entry : Entry)
  | uses (name : String)
  deriving DecidableEq, Repr

namespace Expr

@[simp] def mentions : {grade : Grade} → Expr grade → List Mention
  | _, integer _ => []
  | _, real _ => []
  | _, truth _ => []
  | _, name text => [.uses text]
  | _, element text index => .uses text :: index.mentions
  | _, not operand => operand.mentions
  | _, group inner => inner.mentions
  | _, bare _ operand => operand.mentions
  | _, join _ _ _ _ left right => left.mentions ++ right.mentions
  | _, compare _ _ left right => left.mentions ++ right.mentions

/-- The number of levels inside an expression: one for the inside of parentheses and one for
an operand of `!`, but none for an index. -/
@[simp] def nesting : {grade : Grade} → Expr grade → Nat
  | _, integer _ => 0
  | _, real _ => 0
  | _, truth _ => 0
  | _, name _ => 0
  | _, element _ index => index.nesting
  | _, not operand => operand.nesting + 1
  | _, group inner => inner.nesting + 1
  | _, bare _ operand => operand.nesting
  | _, join _ _ _ _ left right => max left.nesting right.nesting
  | _, compare _ _ left right => max left.nesting right.nesting

end Expr

namespace Declarator

/-- A scalar is known in its own initial value. -/
def mentions (type : Scalar) : Declarator → List Mention
  | plain name => [.declares ⟨name, .scalar type⟩]
  | initialized name value => .declares ⟨name, .scalar type⟩ :: value.mentions
  | array name size _ => [.declares ⟨name, .array type size⟩]

def nesting : Declarator → Nat
  | initialized _ value => value.nesting + 1
  | _ => 0

def nestingAll (declarators : List Declarator) : Nat :=
  (declarators.map nesting).foldr max 0

end Declarator

namespace Declaration

def mentions (d : Declaration) : List Mention :=
  d.first.mentions d.type ++ d.others.flatMap (Declarator.mentions d.type)

def nesting (d : Declaration) : Nat :=
  max d.first.nesting (Declarator.nestingAll d.others)

def nestingAll (declarations : List Declaration) : Nat :=
  (declarations.map nesting).foldr max 0

end Declaration

namespace Statement

@[simp] def mentions : {extent : Extent} → Statement extent → List Mention
  | _, declare declaration => declaration.mentions
  | _, assign name value => .uses name :: value.mentions
  | _, update name index value => .uses name :: (index.mentions ++ value.mentions)
  | _, print value => value.mentions
  | _, ifThen condition body => condition.mentions ++ body.mentions
  | _, ifElse condition yes no => condition.mentions ++ (yes.mentions ++ no.mentions)
  | _, whileDo condition body => condition.mentions ++ body.mentions
  | _, doWhile body condition => body.mentions ++ condition.mentions
  | _, block body => body.mentions
  | _, nil => []
  | _, cons first rest => first.mentions ++ rest.mentions

/-- The number of levels inside an instruction. Each instruction and each whole expression in
it is one level more than what is inside of that. -/
@[simp] def nesting : {extent : Extent} → Statement extent → Nat
  | _, declare declaration => declaration.nesting
  | _, assign _ value => value.nesting + 1
  | _, update _ index value => max index.nesting (value.nesting + 1)
  | _, print value => value.nesting + 1
  | _, ifThen condition body => max (condition.nesting + 1) (body.nesting + 1)
  | _, ifElse condition yes no =>
    max (condition.nesting + 1) (max (yes.nesting + 1) (no.nesting + 1))
  | _, whileDo condition body => max (condition.nesting + 1) (body.nesting + 1)
  | _, doWhile body condition => max (body.nesting + 1) (condition.nesting + 1)
  | _, block body => body.nesting
  | _, nil => 0
  | _, cons first rest => max (first.nesting + 1) rest.nesting

end Statement

namespace Program

def mentions (p : Program) : List Mention :=
  p.declarations.flatMap Declaration.mentions ++ p.body.mentions

/-- Declarations in front of the instructions are no level of their own. -/
def nesting (p : Program) : Nat := max (Declaration.nestingAll p.declarations) p.body.nesting

end Program

/-- In order, a declarator has a name that is not known and makes it known, and a use has a
name that is known. -/
def Scoped (known : List String) : List Mention → Prop
  | [] => True
  | .uses name :: rest => name ∈ known ∧ Scoped known rest
  | .declares entry :: rest => entry.name ∉ known ∧ Scoped (entry.name :: known) rest

instance Scoped.decide : (known : List String) → (mentions : List Mention) →
    Decidable (Scoped known mentions)
  | _, [] => isTrue trivial
  | known, .uses name :: rest =>
    have := Scoped.decide known rest
    inferInstanceAs (Decidable (name ∈ known ∧ Scoped known rest))
  | known, .declares entry :: rest =>
    have := Scoped.decide (entry.name :: known) rest
    inferInstanceAs (Decidable (entry.name ∉ known ∧ Scoped (entry.name :: known) rest))

def declaredNames : List Mention → List String
  | [] => []
  | .uses _ :: rest => declaredNames rest
  | .declares entry :: rest => entry.name :: declaredNames rest

theorem Scoped.congr {mentions : List Mention} {first second : List String}
    (same : ∀ name, name ∈ first ↔ name ∈ second) :
    Scoped first mentions ↔ Scoped second mentions := by
  induction mentions generalizing first second with
  | nil => rfl
  | cons mention rest ih =>
    cases mention with
    | uses name => simp only [Scoped, same, ih same]
    | declares entry =>
      have further : ∀ name, name ∈ entry.name :: first ↔ name ∈ entry.name :: second := by
        intro name
        simp only [List.mem_cons, same]
      simp only [Scoped, same, ih further]

theorem scoped_append {known : List String} {first second : List Mention} :
    Scoped known (first ++ second) ↔
      Scoped known first ∧ Scoped (declaredNames first ++ known) second := by
  induction first generalizing known with
  | nil => simp [Scoped, declaredNames]
  | cons mention rest ih =>
    cases mention with
    | uses name => simp only [List.cons_append, Scoped, declaredNames, ih, and_assoc]
    | declares entry =>
      have moved : ∀ name, name ∈ declaredNames rest ++ entry.name :: known ↔
          name ∈ entry.name :: declaredNames rest ++ known := by
        intro name
        simp only [List.mem_append, List.mem_cons]
        tauto
      simp only [List.cons_append, Scoped, declaredNames, ih, and_assoc]
      rw [Scoped.congr moved, List.cons_append]

namespace SymbolTable

def names (table : SymbolTable) : List String := table.entries.map (·.name)

theorem lookup_eq_none_iff {table : SymbolTable} {name : String} :
    table.lookup name = none ↔ name ∉ table.names := by
  simp [lookup, names, List.find?_eq_none]

def add (table : SymbolTable) (entry : Entry) : SymbolTable :=
  match table.declare entry.name entry.type with
  | .ok larger => larger
  | .error _ => table

theorem declare_of_unknown {table : SymbolTable} {entry : Entry} (new : entry.name ∉ table.names) :
    table.declare entry.name entry.type = .ok (table.add entry) := by
  have absent := lookup_eq_none_iff.mpr new
  simp only [add, declare, absent, dite_true]

theorem declare_of_known {table : SymbolTable} {entry : Entry} (known : entry.name ∈ table.names) :
    table.declare entry.name entry.type = .error ⟨entry.name⟩ := by
  have present : table.lookup entry.name ≠ none := by
    rw [Ne, lookup_eq_none_iff]
    exact not_not.mpr known
  simp only [declare, present, dite_false]

theorem mem_names_add {table : SymbolTable} {entry : Entry} {name : String} :
    name ∈ (table.add entry).names ↔ name = entry.name ∨ name ∈ table.names := by
  unfold add
  by_cases known : entry.name ∈ table.names
  · rw [declare_of_known known]
    constructor
    · exact Or.inr
    · intro member
      rcases member with rfl | inside
      · exact known
      · exact inside
  · have absent := lookup_eq_none_iff.mpr known
    simp only [declare, absent, dite_true, names, List.mem_map, Entry.mem_insert]
    constructor
    · intro member
      obtain ⟨other, rfl | inside, rfl⟩ := member
      · exact Or.inl rfl
      · exact Or.inr ⟨other, inside, rfl⟩
    · intro member
      rcases member with rfl | ⟨other, inside, rfl⟩
      · exact ⟨entry, Or.inl rfl, rfl⟩
      · exact ⟨other, Or.inr inside, rfl⟩

def extend (table : SymbolTable) : List Mention → SymbolTable
  | [] => table
  | .uses _ :: rest => table.extend rest
  | .declares entry :: rest => (table.add entry).extend rest

theorem extend_append (table : SymbolTable) (first second : List Mention) :
    table.extend (first ++ second) = (table.extend first).extend second := by
  induction first generalizing table with
  | nil => rfl
  | cons mention rest ih => cases mention <;> exact ih _

theorem mem_names_extend {table : SymbolTable} {mentions : List Mention} {name : String} :
    name ∈ (table.extend mentions).names ↔ name ∈ declaredNames mentions ++ table.names := by
  induction mentions generalizing table with
  | nil => rfl
  | cons mention rest ih =>
    cases mention with
    | uses used => exact ih
    | declares entry =>
      simp only [extend, declaredNames, ih, List.mem_append, List.mem_cons, mem_names_add]
      tauto

end SymbolTable

end OnePass
