import Mathlib
import OnePass.Proofs.LabelUse
import OnePass.Proofs.Naturality

/-! What the options of a compilation change. The supply of labels changes their names and nothing
else, and with halting a compilation that succeeds ends its code with one more instruction. -/
namespace OnePass

namespace LabelSupply

/-- The label of a supply in place of one that is counted from zero. -/
def counterpart (supply : LabelSupply) (label : Label) : Label :=
  ⟨supply.stem, supply.next + label.number⟩

theorem text_counterpart (supply : LabelSupply) (label : Label) :
    (supply.counterpart label).text = supply.stem ++ toString (supply.next + label.number) := rfl

end LabelSupply

theorem LabelRole.labels_relabelled (role : LabelRole) (rename : Label → Label)
    (code : List Instruction) :
    role.labels (code.map (·.relabelled rename)) = (role.labels code).map rename := by
  rw [labels, labels, List.filterMap_map, List.map_filterMap]
  congr 1
  funext instruction
  cases role <;> cases instruction <;> rfl

namespace Relocation

/-- Everything stays in its place. -/
def still : Relocation := ⟨id, id⟩

theorem fault_still (fault : Diagnostic) : still.fault fault = fault := by cases fault <;> rfl

theorem delivered_still (result : Except Diagnostic Located) : still.delivered result = result := by
  cases result with
  | ok token => rfl
  | error fault => exact congrArg Except.error (fault_still fault)

end Relocation

/-- The labels of one supply in place of those that are counted from zero. -/
def Change.renaming (supply : LabelSupply) : Change where
  toRelocation := .still
  label := supply.counterpart
  supply labels := supply.after labels.next
  source := id
  Concerns _ := True
  fresh _ := rfl
  concerns_next _ _ := trivial
  next tokens _ := by rw [Relocation.delivered_still]; rfl
  line_source _ _ := rfl

namespace Compilation

variable {tasks more : List Task} {s after : State} {fault : Diagnostic}

theorem run_append_of_ok (done : run tasks s = .ok () after) :
    run (tasks ++ more) s = run more after := by
  fun_induction run tasks s with
  | case1 s =>
    obtain ⟨_, rfl⟩ := EStateM.Result.ok.inj done
    rfl
  | case2 s task rest parts middle performed ih =>
    rw [List.cons_append, run_cons_ok _ performed, ← List.append_assoc, ih done]
  | case3 => cases done

theorem run_append_of_error (failed : run tasks s = .error fault after)
    (level : more.count .leave = 0) : run (tasks ++ more) s = .error fault after := by
  fun_induction run tasks s with
  | case1 s => cases failed
  | case2 s task rest parts middle performed ih =>
    rw [List.cons_append, run_cons_ok _ performed, ← List.append_assoc, ih failed]
  | case3 s task rest cause middle performed =>
    have same : unwind (rest ++ more) middle = unwind rest middle := by
      rw [unwind, List.count_append, level, Nat.add_zero, unwind]
    rw [List.cons_append, run_cons_error _ performed, same, failed]

/-- Halting appends one instruction to the code of a program. -/
theorem program_of_ok (halting : Bool) (done : program false s = .ok () after) :
    program halting s = .ok () { after with
      code := after.code.append (if halting then [.halt] else []) } := by
  cases halting with
  | false => exact done
  | true =>
    have last : (Task.emit .halt).perform after =
        .ok [] { after with code := after.code.push .halt } := rfl
    have ended : run [.emit .halt] after = .ok () { after with code := after.code.push .halt } := by
      rw [run_cons_ok _ last]
      exact run_nil _
    exact (run_append_of_ok done).trans ended

theorem program_of_error (halting : Bool) (failed : program false s = .error fault after) :
    program halting s = .error fault after := by
  cases halting with
  | false => exact failed
  | true => exact run_append_of_error failed rfl

/-- What a state is to another one with labels that are counted from zero: the same symbols, the
same code up to the names of labels and up to what ends it, and as many labels used. Where the one
has the label of a number, the text of the other's label is the stem of the supply and, behind it,
that number counted on from the first one of the supply. -/
structure State.Renamed (supply : LabelSupply) (ending : List Instruction) (base s : State) :
    Prop where
  symbols : s.symbols = base.symbols
  code : s.code.toList = base.code.toList.map (·.relabelled supply.counterpart) ++ ending
  texts (role : LabelRole) : (role.labels s.code.toList).map Label.text =
    ((role.labels base.code.toList).map fun label =>
      supply.stem ++ toString (supply.next + label.number)) ++
        (role.labels ending).map Label.text
  labels : s.labels = supply.after base.labels.next

theorem State.renamed_renaming (supply : LabelSupply) (ending : List Instruction) (base : State) :
    base.Renamed supply ending { (Change.renaming supply).state base with
      code := ((Change.renaming supply).state base).code.append ending } := by
  have code : (((Change.renaming supply).state base).code.append ending).toList =
      base.code.toList.map (·.relabelled supply.counterpart) ++ ending := by
    rw [Listing.toList_append]
    congr 1
    exact Array.toList_map
  refine ⟨rfl, code, fun role => ?_, rfl⟩
  change (role.labels (((Change.renaming supply).state base).code.append ending).toList).map _ = _
  rw [code, LabelRole.labels_append, LabelRole.labels_relabelled, List.map_append, List.map_map]
  exact congrArg (· ++ _) (List.map_congr_left fun label _ => supply.text_counterpart label)

/-- Options change only what they name. Whatever the source, a compilation under any supply of
labels, with or without halting, has the same fault or the same symbols as one with labels counted
from zero and without halting. Its code is the same but for the names of labels, also where it
fails, and is ended by one more instruction only where it succeeds with halting. -/
theorem program_renamed (source : Source) (supply : LabelSupply) (halting : Bool) :
    match start source {} with
    | .error fault => start source supply = .error fault
    | .ok base => ∃ initial, start source supply = .ok initial ∧
      match program false base with
      | .error fault final => ∃ other, program halting initial = .error fault other ∧
          final.Renamed supply [] other
      | .ok _ final => ∃ other, program halting initial = .ok () other ∧
          final.Renamed supply (if halting then [.halt] else []) other := by
  have concerned : (Change.renaming supply).Concerns source := trivial
  have begun := start_of_change _ concerned {}
  change start source supply = _ at begun
  cases opened : start source {} with
  | error fault =>
    rw [opened] at begun
    exact begun.trans (congrArg Except.error (Relocation.fault_still fault))
  | ok base =>
    rw [opened] at begun
    refine ⟨_, begun, ?_⟩
    have carried := program_carries (.renaming supply) false base trivial
    generalize program false base = result at carried ⊢
    generalize image : program false ((Change.renaming supply).state base) = result' at carried
    cases carried with
    | @ok result final _ => exact ⟨_, program_of_ok halting image, final.renamed_renaming supply _⟩
    | @error fault final =>
      have same : (Change.renaming supply).fault fault = fault := Relocation.fault_still fault
      rw [same] at image
      exact ⟨_, program_of_error halting image, final.renamed_renaming supply []⟩

end Compilation

end OnePass
