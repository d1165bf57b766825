import Mathlib
import OnePass.Proofs.Machine
import OnePass.Proofs.Translation

/-! The labels of a program are different, so each jump goes to the one place that defines its
label. -/
namespace OnePass

def Instruction.label? : Instruction → Option Label
  | .label defined => some defined
  | _ => none

def definedLabels (code : List Instruction) : List Label := code.filterMap Instruction.label?

@[simp] theorem definedLabels_nil : definedLabels [] = [] := rfl

@[simp] theorem definedLabels_append (first second : List Instruction) :
    definedLabels (first ++ second) = definedLabels first ++ definedLabels second :=
  List.filterMap_append

@[simp] theorem definedLabels_cons (instruction : Instruction) (rest : List Instruction) :
    definedLabels (instruction :: rest) = instruction.label?.toList ++ definedLabels rest := by
  cases instruction <;> rfl

@[simp] theorem definedLabels_expr {grade : Grade} (e : Expr grade) : definedLabels e.code = [] := by
  induction e with
  | truth value => cases value <;> rfl
  | _ => simp_all [Instruction.label?]

@[simp] theorem definedLabels_declarator (type : Scalar) (d : Declarator) :
    definedLabels (d.code type) = [] := by
  cases d <;> simp [Declarator.code, Instruction.label?]

@[simp] theorem definedLabels_declarators (type : Scalar) (ds : List Declarator) :
    definedLabels (ds.flatMap (Declarator.code type)) = [] := by
  induction ds with
  | nil => rfl
  | cons d ds ih => simp [ih]

@[simp] theorem definedLabels_declaration (d : Declaration) : definedLabels d.code = [] := by
  simp [Declaration.code]

@[simp] theorem definedLabels_declarations (ds : List Declaration) :
    definedLabels (ds.flatMap Declaration.code) = [] := by
  induction ds with
  | nil => rfl
  | cons d ds ih => simp [ih]

theorem stem_of_mem_definedLabels {extent : Extent} {st : Statement extent} {stem : String}
    {first : Nat} {label : Label} (member : label ∈ definedLabels (st.code stem first)) :
    label.stem = stem := by
  induction st generalizing first with
  | ifThen condition body ih =>
    simp [Instruction.label?] at member
    rcases member with inner | rfl
    · exact ih inner
    · rfl
  | ifElse condition yes no ihYes ihNo =>
    simp [Instruction.label?] at member
    rcases member with inner | rfl | inner | rfl
    · exact ihYes inner
    · rfl
    · exact ihNo inner
    · rfl
  | whileDo condition body ih =>
    simp [Instruction.label?] at member
    rcases member with rfl | inner | rfl
    · rfl
    · exact ih inner
    · rfl
  | doWhile body condition ih =>
    simp [Instruction.label?] at member
    rcases member with rfl | inner | rfl
    · rfl
    · exact ih inner
    · rfl
  | block body ih => exact ih member
  | cons one rest ihOne ihRest =>
    simp only [Statement.code, definedLabels_append, List.mem_append] at member
    exact member.elim ihOne ihRest
  | _ => simp [Instruction.label?] at member

theorem count_singleton (stem : String) (first second : Nat) :
    [Label.mk stem first].count ⟨stem, second⟩ = if first = second then 1 else 0 := by
  simp [List.count_singleton]

/-- Instructions define the labels with the numbers from `first` on, each once. -/
theorem count_definedLabels {extent : Extent} (st : Statement extent) (stem : String)
    (first number : Nat) :
    (definedLabels (st.code stem first)).count ⟨stem, number⟩ =
      if first ≤ number ∧ number < first + st.labelCount then 1 else 0 := by
  induction st generalizing first with
  | ifThen condition body ih =>
    simp only [Statement.code, Statement.labelCount, definedLabels_append, definedLabels_expr,
      definedLabels_cons, Instruction.label?, Option.toList, definedLabels_nil, List.count_append,
      List.count_nil, count_singleton, ih]
    grind
  | ifElse condition yes no ihYes ihNo =>
    simp only [Statement.code, Statement.labelCount, definedLabels_append, definedLabels_expr,
      definedLabels_cons, Instruction.label?, Option.toList, definedLabels_nil, List.count_append,
      List.count_nil, count_singleton, ihYes, ihNo]
    grind
  | whileDo condition body ih =>
    simp only [Statement.code, Statement.labelCount, definedLabels_append, definedLabels_expr,
      definedLabels_cons, Instruction.label?, Option.toList, definedLabels_nil, List.count_append,
      List.count_nil, count_singleton, ih]
    grind
  | doWhile body condition ih =>
    simp only [Statement.code, Statement.labelCount, definedLabels_append, definedLabels_expr,
      definedLabels_cons, Instruction.label?, Option.toList, definedLabels_nil, List.count_append,
      List.count_nil, count_singleton, ih]
    grind
  | block body ih => exact ih first
  | cons one rest ihOne ihRest =>
    simp only [Statement.code, Statement.labelCount, definedLabels_append, List.count_append,
      ihOne, ihRest]
    grind
  | _ => simp [Instruction.label?]

theorem definedLabels_listing (p : Program) (stem : String) (halting : Bool) (first : Nat) :
    definedLabels (p.listing stem halting first) = definedLabels (p.body.code stem first) := by
  cases halting <;> simp [Program.listing, Program.code, Instruction.label?]

theorem Label.eq_of_text {first second : Label} (stem : first.stem = second.stem)
    (text : first.text = second.text) : first = second := by
  obtain ⟨stem', one⟩ := first
  obtain ⟨_, two⟩ := second
  obtain rfl : stem' = _ := stem
  have same : toString one = toString two := (String.append_right_inj stem').mp text
  rw [Nat.repr_injective same]

namespace Machine

def Resolves (code : List Instruction) : Prop :=
  ∀ (index : Nat) (label : Label), code[index]? = some (.label label) →
    resolve code label = some index

theorem resolves_of_nodup {code : List Instruction} (stem : String)
    (nodup : (definedLabels code).Nodup) (stems : ∀ label ∈ definedLabels code, label.stem = stem) :
    Resolves code := by
  intro index label here
  obtain ⟨inside, here⟩ := List.getElem?_eq_some_iff.mp here
  have defined : ∀ (i : Nat) (other : Label) (bound : i < code.length), code[i] = .label other →
      other.stem = stem := by
    intro i other bound there
    have member : Instruction.label other ∈ code := there ▸ List.getElem_mem bound
    exact stems other (List.mem_filterMap.mpr ⟨_, member, rfl⟩)
  refine List.findIdx?_eq_some_iff_getElem.mpr ⟨inside, by simp [here, Instruction.defines], ?_⟩
  intro earlier less found
  have bound : earlier < code.length := less.trans inside
  cases there : code[earlier] with
  | label other =>
    rw [there, Instruction.defines, decide_eq_true_iff] at found
    have stem := (defined earlier other bound there).trans (defined index label inside here).symm
    obtain rfl := Label.eq_of_text stem found
    have distinct := List.pairwise_iff_getElem.mp (List.pairwise_filterMap.mp nodup) earlier index
      bound inside less
    exact distinct other (by rw [there]; rfl) other (by rw [here]; rfl) rfl
  | _ => simp [there, Instruction.defines] at found

theorem resolves_listing (p : Program) (stem : String) (halting : Bool) (first : Nat) :
    Resolves (p.listing stem halting first) := by
  have same := definedLabels_listing p stem halting first
  refine resolves_of_nodup stem ?_ ?_
  · rw [same, List.nodup_iff_count_le_one]
    rintro ⟨other, number⟩
    by_cases member : ⟨other, number⟩ ∈ definedLabels (p.body.code stem first)
    · obtain rfl : other = stem := stem_of_mem_definedLabels member
      rw [count_definedLabels]
      split <;> omega
    · rw [List.count_eq_zero_of_not_mem member]
      omega
  · intro label member
    rw [same] at member
    exact stem_of_mem_definedLabels member

end Machine

end OnePass
