import DisplayList.Annot

namespace DisplayList

structure Page where
  index : Nat
  content : Content
  annots : List Annot := []

structure RenderOptions where
  intent : Intent := .display
  chunking : Chunking := {}
  limits : Limits := {}

structure Rendering where
  outcome : Except RenderError Nat
  page : Page
  sink : Sink
  worker : Worker

namespace Page

def rewind (p : Page) : Page := { p with content := p.content.rewind }

def taskName (p : Page) : String := "RenderPageRequest: page " ++ toString (p.index + 1)

def listOptions (p : Page) (o : RenderOptions) : BuilderOptions :=
  ⟨o.intent, some p.index, o.chunking, o.limits⟩

def draw (p : Page) (task : TaskId) (intent : Intent) (r : Producer) : Except RenderError Unit × Page × Producer :=
  match p.content.evaluate task r with
  | (.error e, content, r) => (.error e, { p with content }, r)
  | (.ok (), content, r) =>
    match Annot.appendAll p.annots task intent r with
    | (.error e, annots, r) => (.error e, { p with content, annots }, r)
    | (.ok (), annots, r) =>
      match r.worker.checkTask task, r.list.flush true with
      | .error e, _ | .ok (), .error e => (.error e, { p with content, annots }, r)
      | .ok (), .ok list => (.ok (), { p with content, annots }, { r with list })

def produce (p : Page) (task : TaskId) (sink : Sink) (o : RenderOptions) (w : Worker) : Rendering :=
  match o.limits.violation? with
  | some v => ⟨.error (.invalidLimits v), p, sink, w⟩
  | none =>
    let (outcome, p, r) := p.draw task o.intent ⟨.create (p.listOptions o) (some sink), w⟩
    ⟨outcome.map fun _ ↦ r.list.totalLength, p, r.list.sink.getD sink, r.worker⟩

/-- Renders a page as a task that is registered meanwhile. -/
def render (p : Page) (sink : Sink) (o : RenderOptions) (w : Worker) : Rendering :=
  match w.startNew p.taskName with
  | .error e => ⟨.error e, p, sink, w⟩
  | .ok (task, w) =>
    let r := p.produce task sink o w
    { r with worker := r.worker.finish task }

end Page

end DisplayList
