import DisplayList.PageStream

namespace DisplayList

/-- Moves on a worker, and what they come to. -/
inductive Routine (α : Type) where
  | done (a : α)
  | act (effect : Worker → Worker) (next : Worker → Routine α)

namespace Routine

variable {α β : Type}

def bind : Routine α → (α → Routine β) → Routine β
  | done a, f => f a
  | act effect next, f => act effect fun w ↦ (next w).bind f

instance : Monad Routine where
  pure := done
  bind := bind

def run : Routine α → Worker → α × Worker
  | done a, w => (a, w)
  | act effect next, w => (next w).run (effect w)

def move (f : Worker → α × Worker) : Routine α := act (fun w ↦ (f w).2) fun w ↦ done (f w).1

def edit (f : Worker → Worker) : Routine Unit := move fun w ↦ ((), f w)

def check (task : TaskId) : Routine (Except RenderError Unit) := move fun w ↦ (w.checkTask task, w)

def start (name : String) : Routine (Except RenderError TaskId) := move fun w ↦
  match w.startNew name with
  | .error e => (.error e, w)
  | .ok (task, w) => (.ok task, w)

def finish (task : TaskId) : Routine Unit := do
  edit (·.markFinished task)
  edit (·.forget task)

def callOff : Routine Unit := do
  let outstanding ← move Worker.close
  outstanding.forM fun task ↦ edit (·.terminate task)

def take (step : Step) (list : Builder) : Routine (Builder × Verdict) := move fun w ↦
  let (p, v) := step ⟨list, w⟩
  ((p.list, v), p.worker)

def takeSteps (task : TaskId) : List Step → Builder → Routine (Except RenderError Unit × Builder)
  | [], list => do return (← check task, list)
  | step :: rest, list => do
    match ← check task with
    | .error e => return (.error e, list)
    | .ok () =>
      match ← take step list with
      | (list, .more) => takeSteps task rest list
      | (list, .done) => return (.ok (), list)
      | (list, .failed e) => return (.error e, list)

def evaluate (c : Content) (task : TaskId) (list : Builder) : Routine (Except RenderError Unit × Builder) :=
  takeSteps task (c.steps.drop c.taken) list

def evaluateAnnot (a : Annot) (task : TaskId) : Routine (Except RenderError Builder) :=
  match a.appearance with
  | none => return .ok .empty
  | some look => do
    let list := Builder.empty.add .beginAnnot
      [.rect a.rect, .matrix (fit a.rect look.bbox look.matrix), .matrix look.matrix]
    let (outcome, list) ← evaluate look.content task list
    return outcome.map fun _ ↦ list.add .endAnnot []

def evaluateAll (task : TaskId) (intent : Intent) : List Annot → Routine (Except RenderError (List Builder))
  | [] => return .ok []
  | a :: rest =>
    if a.isRenderedFor intent then do
      match ← evaluateAnnot a task with
      | .error e => return .error e
      | .ok list => return (← evaluateAll task intent rest).map (list :: ·)
    else evaluateAll task intent rest

def appendAll (annots : List Annot) (task : TaskId) (intent : Intent) (list : Builder) :
    Routine (Except RenderError Unit × Builder) := do
  match ← evaluateAll task intent annots with
  | .error e => return (.error e, list)
  | .ok lists => return (.ok (), (lists.foldl Builder.append (list.add .beginAnnots [])).add .endAnnots [])

def draw (p : Page) (task : TaskId) (intent : Intent) (list : Builder) :
    Routine (Except RenderError Unit × Builder) := do
  match ← evaluate p.content task list with
  | (.error e, list) => return (.error e, list)
  | (.ok (), list) =>
    match ← appendAll p.annots task intent list with
    | (.error e, list) => return (.error e, list)
    | (.ok (), list) =>
      match ← check task, list.flush true with
      | .error e, _ | .ok (), .error e => return (.error e, list)
      | .ok (), .ok list => return (.ok (), list)

def produce (p : Page) (task : TaskId) (sink : Sink) (o : RenderOptions) : Routine (Except RenderError Nat × Sink) :=
  match o.limits.violation? with
  | some v => return (.error (.invalidLimits v), sink)
  | none => do
    let (outcome, list) ← draw p task o.intent (.create (p.listOptions o) (some sink))
    return (outcome.map fun _ ↦ list.totalLength, list.sink.getD sink)

def render (p : Page) (sink : Sink) (o : RenderOptions) : Routine (Except RenderError Nat × Sink) := do
  match ← start p.taskName with
  | .error e => return (.error e, sink)
  | .ok task =>
    let r ← produce p task sink o
    finish task
    return r

def arrival (p : Page) (o : RenderOptions) : Routine Arrival := do
  let (outcome, sink) ← render p (.assembler {}) o
  return ⟨p.index, outcome.map fun _ ↦ sink.collected⟩

end Routine

end DisplayList
