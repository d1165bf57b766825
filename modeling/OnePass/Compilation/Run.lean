import OnePass.Compilation.Progress

/-! Runs of a compilation: tasks are performed in order until none is left or one fails. -/
namespace OnePass.Compilation

/-- Closes the levels that tasks left undone would have closed. -/
def unwind (tasks : List Task) (s : State) : State :=
  { s with depth := s.depth - tasks.count .leave }

def run (tasks : List Task) (s : State) : EStateM.Result Diagnostic State Unit :=
  match tasks with
  | [] => .ok () s
  | task :: rest =>
    match _done : task.perform s with
    | .ok parts after => run (parts ++ rest) after
    | .error fault after => .error fault (unwind rest after)
termination_by (s.remaining, Task.cost tasks)
decreasing_by
  rcases Task.perform_advances _done with shorter | ⟨same, cheaper⟩
  · exact Prod.Lex.left _ _ shorter
  · rw [same]
    exact Prod.Lex.right _ (cheaper rest)

@[simp] theorem run_nil (s : State) : run [] s = .ok () s := by rw [run]

theorem run_cons_ok {task : Task} {s after : State} {parts : List Task} (rest : List Task)
    (done : task.perform s = .ok parts after) :
    run (task :: rest) s = run (parts ++ rest) after := by
  rw [run]
  split
  · rename_i again
    rw [done] at again
    obtain ⟨rfl, rfl⟩ := EStateM.Result.ok.inj again
    rfl
  · rename_i again
    rw [done] at again
    nomatch again

theorem run_cons_error {task : Task} {s after : State} {fault : Diagnostic} (rest : List Task)
    (failed : task.perform s = .error fault after) :
    run (task :: rest) s = .error fault (unwind rest after) := by
  rw [run]
  split
  · rename_i again
    rw [failed] at again
    nomatch again
  · rename_i again
    rw [failed] at again
    obtain ⟨rfl, rfl⟩ := EStateM.Result.error.inj again
    rfl

def program (halting : Bool) : Compilation Unit := run (Task.program halting)

end OnePass.Compilation
