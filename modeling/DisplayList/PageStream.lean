import DisplayList.Page

/-!
Several pages rendered at once, and handed out in the order in which they were asked for.

Those who render claim one page after the other, render it, and send what came of it. The stream keeps what arrives
too early until all pages before it were handed out. It ends with the first page that failed, and then terminates
the tasks of all others.
-/

namespace DisplayList

abbrev PageResult := Except RenderError Snapshot

/-- What a consumer that joins chunks has collected. -/
def Sink.collected : Sink → Snapshot
  | assembler a => a.snapshot
  | record _ | channel _ => {}

def Rendering.result (r : Rendering) : PageResult := r.outcome.map fun _ ↦ r.sink.collected

abbrev Item := Except RenderError (Nat × Snapshot)

structure Arrival where
  index : Nat
  result : PageResult

structure PageStream where
  options : RenderOptions
  order : List Nat
  unclaimed : List Page
  sent : List Arrival := []
  /-- What was received too early, at most one result for an index. -/
  early : List Arrival := []
  position : Nat := 0
  isDone : Bool := false
  hasFailed : Bool := false
  isCancelled : Bool := false
  mostEarly : Nat := 0
  worker : Worker := {}

namespace PageStream

def create (pages : List Page) (options : RenderOptions) : Except RenderError PageStream :=
  match options.limits.violation? with
  | some v => .error (.invalidLimits v)
  | none => .ok { options, order := pages.map (·.index), unclaimed := pages }

def claim (s : PageStream) : Option (Page × PageStream) :=
  if s.isCancelled then none
  else
    match s.unclaimed with
    | [] => none
    | page :: rest => some (page, { s with unclaimed := rest })

def render (s : PageStream) (page : Page) : Arrival × PageStream :=
  let r := page.render (.assembler {}) s.options s.worker
  (⟨page.index, r.result⟩, { s with worker := r.worker })

def send (s : PageStream) (a : Arrival) : PageStream :=
  if s.isCancelled then s else { s with sent := s.sent ++ [a] }

def work (s : PageStream) : PageStream :=
  match s.claim with
  | some (page, s) =>
    let (a, s) := s.render page
    s.send a
  | none => s

def workAll (s : PageStream) : PageStream :=
  s.unclaimed.foldl (fun s _ ↦ s.work) s

/-- The first page is claimed by somebody slow, and another party deals with all pages that are left meanwhile. -/
def workBehind (s : PageStream) : PageStream :=
  match s.claim with
  | some (page, s) =>
    let (a, s) := s.workAll.render page
    s.send a
  | none => s

def stop (s : PageStream) : PageStream := { s with isCancelled := true, worker := s.worker.cancelAll.2 }

/-- Keeps what arrived. A result kept for the same index gives way. -/
def keep (s : PageStream) (a : Arrival) : PageStream :=
  let early := a :: s.early.filter (·.index ≠ a.index)
  { s with early, mostEarly := max s.mostEarly early.length }

def receive (s : PageStream) : Option PageStream :=
  if s.isDone then none
  else
    match s.sent with
    | [] => none
    | a :: rest => some (keep { s with sent := rest } a)

theorem sent_of_receive {s s' : PageStream} (h : s.receive = some s') : s'.sent.length < s.sent.length := by
  grind [receive, keep]

def isWaiting (s : PageStream) : Bool :=
  !s.hasFailed && match s.order[s.position]? with
    | some index => (s.early.find? (·.index = index)).isNone
    | none => false

def await (s : PageStream) (index : Nat) : Option PageResult × PageStream :=
  match s.early.find? (·.index = index) with
  | some a => (some a.result, { s with early := s.early.filter (·.index ≠ index) })
  | none =>
    match _h : s.receive with
    | some s' => await s' index
    | none => (none, { s with isDone := true })
termination_by s.sent.length
decreasing_by exact sent_of_receive _h

def next (s : PageStream) : Option Item × PageStream :=
  if s.hasFailed then (none, s)
  else
    match s.order[s.position]? with
    | none => (none, s)
    | some index =>
      match s.await index with
      | (none, s) => (none, s)
      | (some (.ok ir), s) => (some (.ok (index, ir)), { s with position := s.position + 1 })
      | (some (.error e), s) =>
        (some (.error e), stop { s with position := s.position + 1, hasFailed := true })

/-- Hands out pages until none comes, at most `count` of them, and tells whether none came. -/
def takeUpTo : Nat → PageStream → List Item × Bool × PageStream
  | 0, s => ([], false, s)
  | count + 1, s =>
    match s.next with
    | (none, s) => ([], true, s)
    | (some item, s) =>
      let (items, ended, s) := takeUpTo count s
      (item :: items, ended, s)

end PageStream

end DisplayList
