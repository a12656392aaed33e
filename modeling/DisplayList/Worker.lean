import DisplayList.Error

namespace DisplayList

structure Task where
  name : String
  isTerminated : Bool := false
  isFinished : Bool := false

/-- A handle to a task. Handles are equal when they are to one task. -/
structure TaskId where
  index : Nat
  deriving DecidableEq

structure Worker where
  tasks : Array Task := #[]
  running : List TaskId := []
  isTerminated : Bool := false

namespace Worker

def task? (w : Worker) (t : TaskId) : Option Task := w.tasks[t.index]?

def modify (w : Worker) (t : TaskId) (f : Task → Task) : Worker :=
  { w with tasks := w.tasks.modify t.index f }

def make (w : Worker) (name : String) : TaskId × Worker :=
  (⟨w.tasks.size⟩, { w with tasks := w.tasks.push { name } })

def isTaskTerminated (w : Worker) (t : TaskId) : Bool := (w.task? t).any (·.isTerminated)

def isTaskFinished (w : Worker) (t : TaskId) : Bool := (w.task? t).any (·.isFinished)

def name (w : Worker) (t : TaskId) : String := ((w.task? t).map (·.name)).getD ""

def terminate (w : Worker) (t : TaskId) : Worker := w.modify t ({ · with isTerminated := true })

def markFinished (w : Worker) (t : TaskId) : Worker := w.modify t ({ · with isFinished := true })

def checkTask (w : Worker) (t : TaskId) : Except RenderError Unit :=
  if w.isTaskTerminated t then .error (.terminated (w.name t)) else .ok ()

def check (w : Worker) : Except RenderError Unit :=
  if w.isTerminated then .error .workerTerminated else .ok ()

def start (w : Worker) (t : TaskId) : Except RenderError Worker := do
  w.check
  return { w with running := w.running ++ [t] }

def startNew (w : Worker) (name : String) : Except RenderError (TaskId × Worker) := do
  let (t, w) := w.make name
  return (t, ← w.start t)

def forget (w : Worker) (t : TaskId) : Worker := { w with running := w.running.filter (· ≠ t) }

def finish (w : Worker) (t : TaskId) : Worker := (w.markFinished t).forget t

def activeCount (w : Worker) : Nat := w.running.length

/-- Takes no further tasks, and tells which are registered. -/
def close (w : Worker) : List TaskId × Worker := (w.running, { w with isTerminated := true })

def cancelAll (w : Worker) : List TaskId × Worker :=
  let (outstanding, w) := w.close
  (outstanding, outstanding.foldl terminate w)

end Worker

end DisplayList
