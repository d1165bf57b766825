import Mathlib
import OnePass.Proofs.Labels
import OnePass.Proofs.Semantics

/-! The machine does what the tree means. Code that lies somewhere in the code of a whole program
leads from its start to its end with the effect of its tree, and a run that comes to an end has
come by there. -/
namespace OnePass.Machine

/-- Instructions that lie in code from one index to another. -/
def Spans (code : List Instruction) : Nat → List Instruction → Nat → Prop
  | start, [], stop => start = stop
  | start, instruction :: rest, stop =>
    code[start]? = some instruction ∧ Spans code (start + 1) rest stop

theorem spans_append {code first second : List Instruction} {start stop : Nat} :
    Spans code start (first ++ second) stop ↔
      ∃ middle, Spans code start first middle ∧ Spans code middle second stop := by
  induction first generalizing start with
  | nil => simp [Spans]
  | cons instruction rest ih => simp only [List.cons_append, Spans, ih, ← exists_and_left, and_assoc]

theorem spans_self (before part behind : List Instruction) :
    Spans (before ++ (part ++ behind)) before.length part (before.length + part.length) := by
  induction part generalizing before with
  | nil => rfl
  | cons instruction rest ih =>
    refine ⟨by simp, ?_⟩
    have shifted := ih (before ++ [instruction])
    simp only [List.length_append, List.length_singleton, List.append_assoc,
      List.singleton_append] at shifted
    rw [List.length_cons, Nat.add_comm rest.length, ← Nat.add_assoc]
    exact shifted

variable {Value Address : Type} [DecidableEq Address] {I : Interpretation Value Address}
variable {code : List Instruction} {start stop : Nat} {stack : List Value}
variable {s t : Store Value Address}

theorem leads_expr {grade : Grade} {e : Expr grade} (spans : Spans code start e.code stop) :
    Leads I code ⟨start, stack, s⟩ ⟨stop, e.value I s.memory :: stack, s⟩ := by
  induction e generalizing start stop stack with
  | integer value =>
    obtain ⟨push, rfl⟩ := spans
    exact .of_perform push rfl
  | real value =>
    obtain ⟨push, rfl⟩ := spans
    exact .of_perform push rfl
  | truth value =>
    cases value <;> obtain ⟨push, rfl⟩ := spans <;> exact .of_perform push rfl
  | name text =>
    obtain ⟨push, load, rfl⟩ := spans
    exact .trans (.of_perform push rfl) (.of_perform load rfl)
  | element text index ih =>
    obtain ⟨push, spans⟩ := spans
    obtain ⟨middle, inner, add, load, rfl⟩ := spans_append.mp spans
    refine .trans (.of_perform push rfl) ((ih inner).trans ?_)
    exact .trans (.of_perform add rfl) (.of_perform load rfl)
  | not operand ih =>
    obtain ⟨middle, inner, negate, rfl⟩ := spans_append.mp spans
    exact (ih inner).trans (.of_perform negate rfl)
  | group inner ih => exact ih spans
  | bare tier operand ih => exact ih spans
  | join tier op belongs chains left right ihLeft ihRight =>
    obtain ⟨first, one, spans⟩ := spans_append.mp spans
    obtain ⟨second, two, operate, rfl⟩ := spans_append.mp spans
    exact (ihLeft one).trans ((ihRight two).trans (.of_perform operate rfl))
  | compare op belongs left right ihLeft ihRight =>
    obtain ⟨first, one, spans⟩ := spans_append.mp spans
    obtain ⟨second, two, operate, rfl⟩ := spans_append.mp spans
    exact (ihLeft one).trans ((ihRight two).trans (.of_perform operate rfl))

theorem leads_store {value : Expression} {address : Value} {middle : Nat}
    (spans : Spans code start value.code middle) (store : code[middle]? = some .store) :
    Leads I code ⟨start, address :: stack, s⟩
      ⟨middle + 1, stack, s.write (I.cell address) (value.value I s.memory)⟩ :=
  (leads_expr spans).trans (.of_perform store rfl)

theorem leads_declarator {type : Scalar} {d : Declarator}
    (spans : Spans code start (d.code type) stop) :
    Leads I code ⟨start, stack, s⟩ ⟨stop, stack, d.run I s⟩ := by
  cases d with
  | plain name =>
    obtain rfl := spans
    exact .refl _
  | initialized name value =>
    obtain ⟨push, spans⟩ := spans
    obtain ⟨middle, inner, store, rfl⟩ := spans_append.mp spans
    exact .trans (.of_perform push rfl) (leads_store inner store)
  | array name size positive =>
    obtain ⟨reserve, rfl⟩ := spans
    exact .of_perform reserve rfl

theorem leads_declarators {type : Scalar} {ds : List Declarator}
    (spans : Spans code start (ds.flatMap (Declarator.code type)) stop) :
    Leads I code ⟨start, stack, s⟩ ⟨stop, stack, ds.foldl (Declarator.run I) s⟩ := by
  induction ds generalizing start s with
  | nil =>
    obtain rfl := spans
    exact .refl _
  | cons d ds ih =>
    obtain ⟨middle, one, more⟩ := spans_append.mp spans
    exact (leads_declarator one).trans (ih more)

theorem leads_declaration {d : Declaration} (spans : Spans code start d.code stop) :
    Leads I code ⟨start, stack, s⟩ ⟨stop, stack, d.run I s⟩ := by
  have all : Spans code start ((d.first :: d.others).flatMap (Declarator.code d.type)) stop := spans
  exact leads_declarators all

theorem leads_declarations {ds : List Declaration}
    (spans : Spans code start (ds.flatMap Declaration.code) stop) :
    Leads I code ⟨start, stack, s⟩ ⟨stop, stack, ds.foldl (Declaration.run I) s⟩ := by
  induction ds generalizing start s with
  | nil =>
    obtain rfl := spans
    exact .refl _
  | cons d ds ih =>
    obtain ⟨middle, one, more⟩ := spans_append.mp spans
    exact (leads_declaration one).trans (ih more)

/-! The ways through each kind of branch and loop. -/

theorem step_label {label : Label} (here : code[start]? = some (.label label)) :
    step I code ⟨start, stack, s⟩ = some ⟨start + 1, stack, s⟩ := by
  rw [step, here]
  rfl

theorem leads_goto {target : Label} {index : Nat} (resolves : Resolves code)
    (here : code[start]? = some (.goto target)) (there : code[index]? = some (.label target)) :
    Leads I code ⟨start, stack, s⟩ ⟨index, stack, s⟩ := by
  apply Leads.of_perform here
  rw [perform, resolves index target there]
  rfl

variable {condition : Expression} {middle : Nat} {target : Label}

theorem leads_test_true (spans : Spans code start condition.code middle)
    (branch : code[middle]? = some (.goFalse target)) (holds : condition.holds I s = true) :
    Leads I code ⟨start, stack, s⟩ ⟨middle + 1, stack, s⟩ := by
  refine (leads_expr spans).trans (.of_perform branch ?_)
  rw [perform]
  exact if_pos holds

theorem leads_test_false {index : Nat} (resolves : Resolves code)
    (spans : Spans code start condition.code middle) (branch : code[middle]? = some (.goFalse target))
    (there : code[index]? = some (.label target)) (fails : condition.holds I s = false) :
    Leads I code ⟨start, stack, s⟩ ⟨index, stack, s⟩ := by
  refine (leads_expr spans).trans (.of_perform branch ?_)
  rw [perform, resolves index target there]
  exact if_neg (Bool.not_eq_true _ ▸ fails)

variable {stem : String} {first : Nat} {body yes no : Statement .one}

theorem ifThen_ways (resolves : Resolves code)
    (spans : Spans code start ((Statement.ifThen condition body).code stem first) stop) :
    ∃ enter leave, Spans code enter (body.code stem (first + 1)) leave ∧
      ∀ (stack : List Value) (s : Store Value Address),
        (condition.holds I s = true → Leads I code ⟨start, stack, s⟩ ⟨enter, stack, s⟩) ∧
        (condition.holds I s = false → Leads I code ⟨start, stack, s⟩ ⟨stop, stack, s⟩) ∧
        Leads I code ⟨leave, stack, s⟩ ⟨stop, stack, s⟩ := by
  obtain ⟨middle, test, branch, spans⟩ := spans_append.mp spans
  obtain ⟨leave, inner, skip, rfl⟩ := spans_append.mp spans
  refine ⟨middle + 1, leave, inner, fun stack s => ⟨leads_test_true test branch, fun fails => ?_, ?_⟩⟩
  · exact (leads_test_false resolves test branch skip fails).trans (.of_step (step_label skip))
  · exact .of_step (step_label skip)

theorem ifElse_ways (resolves : Resolves code)
    (spans : Spans code start ((Statement.ifElse condition yes no).code stem first) stop) :
    ∃ enter leave enter' leave', Spans code enter (yes.code stem (first + 1)) leave ∧
      Spans code enter' (no.code stem (first + 1 + yes.labelCount + 1)) leave' ∧
      ∀ (stack : List Value) (s : Store Value Address),
        (condition.holds I s = true → Leads I code ⟨start, stack, s⟩ ⟨enter, stack, s⟩) ∧
        (condition.holds I s = false → Leads I code ⟨start, stack, s⟩ ⟨enter', stack, s⟩) ∧
        Leads I code ⟨leave, stack, s⟩ ⟨stop, stack, s⟩ ∧
        Leads I code ⟨leave', stack, s⟩ ⟨stop, stack, s⟩ := by
  obtain ⟨middle, test, branch, spans⟩ := spans_append.mp spans
  obtain ⟨leave, one, jump, skip, spans⟩ := spans_append.mp spans
  obtain ⟨leave', two, bottom, rfl⟩ := spans_append.mp spans
  refine ⟨middle + 1, leave, leave + 1 + 1, leave', one, two, fun stack s =>
    ⟨leads_test_true test branch, fun fails => ?_, ?_, ?_⟩⟩
  · exact (leads_test_false resolves test branch skip fails).trans (.of_step (step_label skip))
  · exact (leads_goto resolves jump bottom).trans (.of_step (step_label bottom))
  · exact .of_step (step_label bottom)

theorem whileDo_ways (resolves : Resolves code)
    (spans : Spans code start ((Statement.whileDo condition body).code stem first) stop) :
    ∃ enter leave, Spans code enter (body.code stem (first + 2)) leave ∧
      ∀ (stack : List Value) (s : Store Value Address),
        step I code ⟨start, stack, s⟩ = some ⟨start + 1, stack, s⟩ ∧
        (condition.holds I s = true → Leads I code ⟨start + 1, stack, s⟩ ⟨enter, stack, s⟩) ∧
        (condition.holds I s = false → Leads I code ⟨start + 1, stack, s⟩ ⟨stop, stack, s⟩) ∧
        Leads I code ⟨leave, stack, s⟩ ⟨start, stack, s⟩ := by
  obtain ⟨top, spans⟩ := spans
  obtain ⟨middle, test, branch, spans⟩ := spans_append.mp spans
  obtain ⟨leave, inner, jump, bottom, rfl⟩ := spans_append.mp spans
  refine ⟨middle + 1, leave, inner, fun stack s =>
    ⟨step_label top, leads_test_true test branch, fun fails => ?_, leads_goto resolves jump top⟩⟩
  exact (leads_test_false resolves test branch bottom fails).trans (.of_step (step_label bottom))

theorem doWhile_ways (resolves : Resolves code)
    (spans : Spans code start ((Statement.doWhile body condition).code stem first) stop) :
    ∃ leave, Spans code (start + 1) (body.code stem (first + 1)) leave ∧
      ∀ (stack : List Value) (s : Store Value Address),
        step I code ⟨start, stack, s⟩ = some ⟨start + 1, stack, s⟩ ∧
        (condition.holds I s = true → Leads I code ⟨leave, stack, s⟩ ⟨start, stack, s⟩) ∧
        (condition.holds I s = false → Leads I code ⟨leave, stack, s⟩ ⟨stop, stack, s⟩) := by
  obtain ⟨top, spans⟩ := spans
  obtain ⟨leave, inner, spans⟩ := spans_append.mp spans
  obtain ⟨middle, test, branch, jump, bottom, rfl⟩ := spans_append.mp spans
  refine ⟨leave, inner, fun stack s => ⟨step_label top, fun holds => ?_, fun fails => ?_⟩⟩
  · exact (leads_test_true test branch holds).trans (leads_goto resolves jump top)
  · exact (leads_test_false resolves test branch bottom fails).trans (.of_step (step_label bottom))

theorem leads_assign {name : String} {value : Expression}
    (spans : Spans code start ((Statement.assign name value).code stem first) stop) :
    Leads I code ⟨start, stack, s⟩
      ⟨stop, stack, s.write (I.cell (I.base name)) (value.value I s.memory)⟩ := by
  obtain ⟨push, spans⟩ := spans
  obtain ⟨middle, inner, store, rfl⟩ := spans_append.mp spans
  exact .trans (.of_perform push rfl) (leads_store inner store)

theorem leads_update {name : String} {index : Index} {value : Expression}
    (spans : Spans code start ((Statement.update name index value).code stem first) stop) :
    Leads I code ⟨start, stack, s⟩
      ⟨stop, stack, s.write (I.cell (I.element name (index.value I s.memory)))
        (value.value I s.memory)⟩ := by
  obtain ⟨push, spans⟩ := spans
  obtain ⟨middle, indexed, add, spans⟩ := spans_append.mp spans
  obtain ⟨last, inner, store, rfl⟩ := spans_append.mp spans
  refine .trans (.of_perform push rfl) ((leads_expr indexed).trans ?_)
  exact .trans (.of_perform add rfl) (leads_store inner store)

theorem leads_print {value : Expression}
    (spans : Spans code start ((Statement.print value).code stem first) stop) :
    Leads I code ⟨start, stack, s⟩ ⟨stop, stack, s.print (value.value I s.memory)⟩ := by
  obtain ⟨middle, inner, print, rfl⟩ := spans_append.mp spans
  exact (leads_expr inner).trans (.of_perform print rfl)

theorem leads_of_executes (resolves : Resolves code) {extent : Extent} {st : Statement extent}
    (executes : st.Executes I s t) (spans : Spans code start (st.code stem first) stop) :
    Leads I code ⟨start, stack, s⟩ ⟨stop, stack, t⟩ := by
  induction executes generalizing start stop first with
  | declare d s => exact leads_declaration spans
  | assign name value s => exact leads_assign spans
  | update name index value s => exact leads_update spans
  | print value s => exact leads_print spans
  | ifThen_true holds _ ih =>
    obtain ⟨enter, leave, inner, ways⟩ := ifThen_ways (I := I) resolves spans
    exact ((ways stack _).1 holds).trans ((ih inner).trans (ways stack _).2.2)
  | ifThen_false fails =>
    obtain ⟨enter, leave, inner, ways⟩ := ifThen_ways (I := I) resolves spans
    exact (ways stack _).2.1 fails
  | ifElse_true holds _ ih =>
    obtain ⟨enter, leave, enter', leave', one, two, ways⟩ := ifElse_ways (I := I) resolves spans
    exact ((ways stack _).1 holds).trans ((ih one).trans (ways stack _).2.2.1)
  | ifElse_false fails _ ih =>
    obtain ⟨enter, leave, enter', leave', one, two, ways⟩ := ifElse_ways (I := I) resolves spans
    exact ((ways stack _).2.1 fails).trans ((ih two).trans (ways stack _).2.2.2)
  | while_true holds _ _ ihBody ihLoop =>
    obtain ⟨enter, leave, inner, ways⟩ := whileDo_ways (I := I) resolves spans
    have entered := (Leads.of_step (ways stack _).1).trans ((ways stack _).2.1 holds)
    exact entered.trans ((ihBody inner).trans ((ways stack _).2.2.2.trans (ihLoop spans)))
  | while_false fails =>
    obtain ⟨enter, leave, inner, ways⟩ := whileDo_ways (I := I) resolves spans
    exact (Leads.of_step (ways stack _).1).trans ((ways stack _).2.2.1 fails)
  | do_true _ holds _ ihBody ihLoop =>
    obtain ⟨leave, inner, ways⟩ := doWhile_ways (I := I) resolves spans
    have done := (Leads.of_step (ways stack _).1).trans (ihBody inner)
    exact done.trans (((ways stack _).2.1 holds).trans (ihLoop spans))
  | do_false _ fails ih =>
    obtain ⟨leave, inner, ways⟩ := doWhile_ways (I := I) resolves spans
    exact (Leads.of_step (ways stack _).1).trans ((ih inner).trans ((ways stack _).2.2 fails))
  | block _ ih => exact ih spans
  | nil s =>
    obtain rfl := spans
    exact .refl _
  | cons _ _ ihFirst ihRest =>
    obtain ⟨middle, one, more⟩ := spans_append.mp spans
    exact (ihFirst one).trans (ihRest more)

/-- A run that comes to an end from the start of instructions has come by their end, with the
effect of the tree. -/
def Reflects (I : Interpretation Value Address) (code : List Instruction) (stem : String)
    {extent : Extent} (st : Statement extent) : Prop :=
  ∀ {start stop first count : Nat} {stack : List Value} {s : Store Value Address}
    {final : Config Value Address}, Spans code start (st.code stem first) stop →
      step I code final = none → after I code count ⟨start, stack, s⟩ = some final →
        ∃ t, st.Executes I s t ∧ ∃ fewer ≤ count, after I code fewer ⟨stop, stack, t⟩ = some final

namespace Reflects

theorem ifThen (resolves : Resolves code) (ih : Reflects I code stem body) :
    Reflects I code stem (.ifThen condition body) := by
  intro start stop first count stack s final spans ends reached
  obtain ⟨enter, leave, inner, ways⟩ := ifThen_ways (I := I) resolves spans
  cases test : condition.holds I s with
  | false => exact ⟨s, .ifThen_false test, after_of_leads ends reached ((ways stack s).2.1 test)⟩
  | true =>
    obtain ⟨entered, fewer, reached⟩ := after_of_leads ends reached ((ways stack s).1 test)
    obtain ⟨t, executes, left, less, reached⟩ := ih inner ends reached
    obtain ⟨stopped, least, reached⟩ := after_of_leads ends reached (ways stack t).2.2
    exact ⟨t, .ifThen_true test executes, stopped, by omega, reached⟩

theorem ifElse (resolves : Resolves code) (ihYes : Reflects I code stem yes)
    (ihNo : Reflects I code stem no) : Reflects I code stem (.ifElse condition yes no) := by
  intro start stop first count stack s final spans ends reached
  obtain ⟨enter, leave, enter', leave', one, two, ways⟩ := ifElse_ways (I := I) resolves spans
  cases test : condition.holds I s with
  | false =>
    obtain ⟨entered, fewer, reached⟩ := after_of_leads ends reached ((ways stack s).2.1 test)
    obtain ⟨t, executes, left, less, reached⟩ := ihNo two ends reached
    obtain ⟨stopped, least, reached⟩ := after_of_leads ends reached (ways stack t).2.2.2
    exact ⟨t, .ifElse_false test executes, stopped, by omega, reached⟩
  | true =>
    obtain ⟨entered, fewer, reached⟩ := after_of_leads ends reached ((ways stack s).1 test)
    obtain ⟨t, executes, left, less, reached⟩ := ihYes one ends reached
    obtain ⟨stopped, least, reached⟩ := after_of_leads ends reached (ways stack t).2.2.1
    exact ⟨t, .ifElse_true test executes, stopped, by omega, reached⟩

theorem whileDo (resolves : Resolves code) (ih : Reflects I code stem body) :
    Reflects I code stem (.whileDo condition body) := by
  intro start stop first count stack s final spans ends reached
  obtain ⟨enter, leave, inner, ways⟩ := whileDo_ways (I := I) resolves spans
  -- Each time round takes the step over the label, so fewer steps are left for the rest.
  induction count using Nat.strong_induction_on generalizing s with
  | _ count again =>
    obtain ⟨begun, fewer, reached⟩ := after_of_step ends reached (ways stack s).1
    cases test : condition.holds I s with
    | false =>
      obtain ⟨stopped, least, reached⟩ := after_of_leads ends reached ((ways stack s).2.2.1 test)
      exact ⟨s, .while_false test, stopped, by omega, reached⟩
    | true =>
      obtain ⟨entered, less, reached⟩ := after_of_leads ends reached ((ways stack s).2.1 test)
      obtain ⟨t, executes, left, lesser, reached⟩ := ih inner ends reached
      obtain ⟨back, least, reached⟩ := after_of_leads ends reached (ways stack t).2.2.2
      obtain ⟨u, further, stopped, last, reached⟩ := again back (by omega) reached
      exact ⟨u, .while_true test executes further, stopped, by omega, reached⟩

theorem doWhile (resolves : Resolves code) (ih : Reflects I code stem body) :
    Reflects I code stem (.doWhile body condition) := by
  intro start stop first count stack s final spans ends reached
  obtain ⟨leave, inner, ways⟩ := doWhile_ways (I := I) resolves spans
  induction count using Nat.strong_induction_on generalizing s with
  | _ count again =>
    obtain ⟨begun, fewer, reached⟩ := after_of_step ends reached (ways stack s).1
    obtain ⟨t, executes, left, less, reached⟩ := ih inner ends reached
    cases test : condition.holds I t with
    | false =>
      obtain ⟨stopped, least, reached⟩ := after_of_leads ends reached ((ways stack t).2.2 test)
      exact ⟨t, .do_false executes test, stopped, by omega, reached⟩
    | true =>
      obtain ⟨back, least, reached⟩ := after_of_leads ends reached ((ways stack t).2.1 test)
      obtain ⟨u, further, stopped, last, reached⟩ := again back (by omega) reached
      exact ⟨u, .do_true executes test further, stopped, by omega, reached⟩

theorem cons {one : Statement .one} {rest : Statement .many} (ihOne : Reflects I code stem one)
    (ihRest : Reflects I code stem rest) : Reflects I code stem (.cons one rest) := by
  intro start stop first count stack s final spans ends reached
  obtain ⟨middle, head, more⟩ := spans_append.mp spans
  obtain ⟨t, executes, left, less, reached⟩ := ihOne head ends reached
  obtain ⟨u, further, stopped, least, reached⟩ := ihRest more ends reached
  exact ⟨u, .cons executes further, stopped, by omega, reached⟩

end Reflects

theorem reflects (resolves : Resolves code) {extent : Extent} (st : Statement extent) :
    Reflects I code stem st := by
  induction st with
  | declare d =>
    intro _ _ _ _ _ s _ spans ends reached
    exact ⟨_, .declare d s, after_of_leads ends reached (leads_declaration spans)⟩
  | assign name value =>
    intro _ _ _ _ _ s _ spans ends reached
    exact ⟨_, .assign name value s, after_of_leads ends reached (leads_assign spans)⟩
  | update name index value =>
    intro _ _ _ _ _ s _ spans ends reached
    exact ⟨_, .update name index value s, after_of_leads ends reached (leads_update spans)⟩
  | print value =>
    intro _ _ _ _ _ s _ spans ends reached
    exact ⟨_, .print value s, after_of_leads ends reached (leads_print spans)⟩
  | ifThen condition body ih => exact Reflects.ifThen resolves ih
  | ifElse condition yes no ihYes ihNo => exact Reflects.ifElse resolves ihYes ihNo
  | whileDo condition body ih => exact Reflects.whileDo resolves ih
  | doWhile body condition ih => exact Reflects.doWhile resolves ih
  | block body ih =>
    intro _ _ _ _ _ _ _ spans ends reached
    obtain ⟨t, executes, rest⟩ := ih spans ends reached
    exact ⟨t, .block executes, rest⟩
  | nil =>
    intro _ _ _ count _ s _ spans ends reached
    obtain rfl := spans
    exact ⟨s, .nil s, count, Nat.le_refl count, reached⟩
  | cons one rest ihOne ihRest => exact Reflects.cons ihOne ihRest

variable {p : Program} {halting : Bool}

theorem spans_listing (p : Program) (stem : String) (halting : Bool) (first : Nat) :
    Spans (p.listing stem halting first) 0 (p.code stem first) (p.code stem first).length := by
  have whole := spans_self [] (p.code stem first) (if halting then [.halt] else [])
  rwa [List.nil_append, List.length_nil, Nat.zero_add] at whole

theorem finished_listing (p : Program) (stem : String) (halting : Bool) (first : Nat) :
    Finished (p.listing stem halting first) halting (p.code stem first).length := by
  cases halting with
  | false => simp [Finished, Program.listing]
  | true => simp [Finished, Program.listing]

theorem step_of_finished {index : Nat} (finished : Finished code halting index) :
    step I code ⟨index, stack, s⟩ = none := by
  cases halting with
  | false =>
    have beyond : index = code.length := finished
    subst beyond
    simp [step]
  | true =>
    have halt : code[index]? = some .halt := finished
    rw [step, halt]
    rfl

theorem leads_of_program (executes : p.Executes I s t) :
    Leads I (p.listing stem halting first) ⟨0, stack, s⟩
      ⟨(p.code stem first).length, stack, t⟩ := by
  obtain ⟨middle, declared, inner⟩ := spans_append.mp (spans_listing p stem halting first)
  exact (leads_declarations declared).trans
    (leads_of_executes (resolves_listing p stem halting first) executes inner)

theorem program_of_leads {final : Config Value Address}
    (leads : Leads I (p.listing stem halting first) ⟨0, stack, s⟩ final)
    (ends : step I (p.listing stem halting first) final = none) :
    ∃ t, p.Executes I s t ∧ final = ⟨(p.code stem first).length, stack, t⟩ := by
  obtain ⟨count, reached⟩ := leads
  obtain ⟨middle, declared, inner⟩ := spans_append.mp (spans_listing p stem halting first)
  obtain ⟨fewer, less, reached⟩ := after_of_leads ends reached (leads_declarations declared)
  obtain ⟨t, executes, left, least, reached⟩ :=
    reflects (resolves_listing p stem halting first) p.body inner ends reached
  refine ⟨t, executes, ?_⟩
  have done : step I (p.listing stem halting first) ⟨(p.code stem first).length, stack, t⟩ = none :=
    step_of_finished (finished_listing p stem halting first)
  cases left with
  | zero => exact (Option.some.inj reached).symm
  | succ left =>
    rw [after, done] at reached
    cases reached

end OnePass.Machine
