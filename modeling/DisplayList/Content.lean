import DisplayList.Builder
import DisplayList.Worker

namespace DisplayList

structure Producer where
  list : Builder
  worker : Worker

inductive Verdict where
  | more
  | done
  | failed (e : RenderError)

abbrev Step := Producer → Producer × Verdict

structure Content where
  steps : List Step
  taken : Nat := 0

structure Evaluation where
  outcome : Except RenderError Unit
  producer : Producer
  taken : Nat

namespace Content

def rewind (c : Content) : Content := { c with taken := 0 }

/-- Takes the given steps on behalf of a task, until one says that the content is done. -/
def takeSteps (task : TaskId) : List Step → Nat → Producer → Evaluation
  | steps, taken, p =>
    match p.worker.checkTask task, steps with
    | .error e, _ => ⟨.error e, p, taken⟩
    | .ok (), [] => ⟨.ok (), p, taken⟩
    | .ok (), step :: rest =>
      match step p with
      | (p, .more) => takeSteps task rest (taken + 1) p
      | (p, .done) => ⟨.ok (), p, taken + 1⟩
      | (p, .failed e) => ⟨.error e, p, taken + 1⟩

def evaluate (c : Content) (task : TaskId) (p : Producer) : Except RenderError Unit × Content × Producer :=
  let e := takeSteps task (c.steps.drop c.taken) c.taken p
  (e.outcome, { c with taken := e.taken }, e.producer)

end Content

end DisplayList
