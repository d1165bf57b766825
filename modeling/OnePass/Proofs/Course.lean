import Mathlib
import OnePass.Proofs.Productions

/-! The course of a run: the steps that lead from tasks and a state to others, with the tokens that
are passed on the way. -/
namespace OnePass

namespace Input

/-- Passing given tokens leads from one input to another. -/
def Passes : Input → List Located → Input → Prop
  | i, [], k => i = k
  | i, token :: rest, k => i.lookahead = token ∧ ∃ j, i.Moves j ∧ Passes j rest k

theorem Passes.reads {i k : Input} {passed : List Located} (passes : i.Passes passed k) :
    i.Reads (passed.map (·.token)) k := by
  induction passed generalizing i with
  | nil => exact passes
  | cons token rest ih =>
    obtain ⟨seen, j, moved, further⟩ := passes
    exact ⟨congrArg Located.token seen, j, moved, ih further⟩

end Input

namespace Compilation

inductive Reaches : List Task → State → List Located → List Task → State → Prop where
  | refl {tasks s} : Reaches tasks s [] tasks s
  | stay {task rest s names parts middle passed tasks t} :
      Steps task s false names parts middle → Reaches (parts ++ rest) middle passed tasks t →
      Reaches (task :: rest) s passed tasks t
  | pass {task rest s names parts middle passed tasks t} :
      Steps task s true names parts middle → Reaches (parts ++ rest) middle passed tasks t →
      Reaches (task :: rest) s (s.lookahead :: passed) tasks t

variable {tasks others parts : List Task} {task : Task} {s t final after : State}
  {passed : List Located} {fault : Diagnostic}

theorem exists_reaches_of_step {rest : List Task} (done : task.perform s = .ok parts after)
    (further : ∃ passed, Reaches (parts ++ rest) after passed others t) :
    ∃ passed, Reaches (task :: rest) s passed others t := by
  obtain ⟨passes, names, steps⟩ := steps_of_perform done
  obtain ⟨passed, reaches⟩ := further
  cases passes with
  | false => exact ⟨passed, .stay steps reaches⟩
  | true => exact ⟨_, .pass steps reaches⟩

/-- A run that succeeds has a course to its end. -/
theorem exists_reaches_of_ok (done : run tasks s = .ok () final) :
    ∃ passed, Reaches tasks s passed [] final := by
  fun_induction run tasks s with
  | case1 s =>
    obtain ⟨_, rfl⟩ := EStateM.Result.ok.inj done
    exact ⟨[], .refl⟩
  | case2 s task rest parts after performed ih => exact exists_reaches_of_step performed (ih done)
  | case3 => cases done

/-- A run that fails has a course to the task that fails. -/
theorem exists_reaches_of_error (failed : run tasks s = .error fault final) :
    ∃ passed task rest t after, Reaches tasks s passed (task :: rest) t ∧
      task.perform t = .error fault after := by
  fun_induction run tasks s with
  | case1 s => cases failed
  | case2 s task rest parts after performed ih =>
    obtain ⟨passed, last, others, t, stopped, reaches, fails⟩ := ih failed
    obtain ⟨passed, reaches⟩ := exists_reaches_of_step performed ⟨passed, reaches⟩
    exact ⟨passed, last, others, t, stopped, reaches, fails⟩
  | case3 s task rest cause stopped performed =>
    obtain ⟨rfl, _⟩ := EStateM.Result.error.inj failed
    exact ⟨[], task, rest, s, stopped, .refl, performed⟩

namespace Reaches

theorem passes (reaches : Reaches tasks s passed others t) : s.input.Passes passed t.input := by
  induction reaches with
  | refl => rfl
  | stay steps _ ih =>
    have still : _ = _ := steps.proceeds
    rwa [still]
  | pass steps _ ih => exact ⟨rfl, _, steps.proceeds, ih⟩

/-- On the way past a token there is a task that passes it. -/
theorem split {first second : List Located} {token : Located}
    (reaches : Reaches tasks s (first ++ token :: second) others t) :
    ∃ task rest middle names parts after, Reaches tasks s first (task :: rest) middle ∧
      Steps task middle true names parts after ∧ middle.lookahead = token ∧
      Reaches (parts ++ rest) after second others t := by
  generalize whole : first ++ token :: second = passed at reaches
  induction reaches generalizing first with
  | refl => simp at whole
  | stay steps _ ih =>
    obtain ⟨task, rest, middle, names, parts, after, before, passing, seen, behind⟩ := ih whole
    exact ⟨task, rest, middle, names, parts, after, .stay steps before, passing, seen, behind⟩
  | pass steps reaches ih =>
    cases first with
    | nil =>
      obtain ⟨rfl, rfl⟩ := List.cons.inj whole
      exact ⟨_, _, _, _, _, _, .refl, steps, rfl, reaches⟩
    | cons head tail =>
      obtain ⟨rfl, behind⟩ := List.cons.inj whole
      obtain ⟨task, rest, middle, names, parts, after, before, passing, seen, further⟩ := ih behind
      exact ⟨task, rest, middle, names, parts, after, .pass steps before, passing, seen, further⟩

end Reaches

end Compilation

end OnePass
