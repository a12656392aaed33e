import DisplayList.Chunking
import DisplayList.Error
import DisplayList.Intent
import DisplayList.Optimizer
import DisplayList.Sink

/-!
A list under construction.

Instructions are only ever appended. A builder with a sink delivers them in chunks, by itself as `Chunking` says or
when it is flushed; a builder without one keeps them until they are read. What is drawn, and not merely listed, is
batched on the way to the sink.
-/

namespace DisplayList

structure BuilderOptions where
  intent : Intent := .display
  pageIndex : Option Nat := none
  chunking : Chunking := {}
  limits : Limits := {}

structure Builder where
  queue : Columns := {}
  optimizer : Option Optimizer := none
  sink : Option Sink := none
  dependencies : List String := []
  flushed : Nat := 0
  weight : Nat := 0
  intent : Intent := .display
  pageIndex : Option Nat := none
  chunking : Chunking := {}

namespace Builder

/-- An empty builder. It batches if it has a sink and the list is to be drawn. -/
def create (options : BuilderOptions) (sink : Option Sink) : Builder where
  optimizer := if sink.isSome ∧ options.intent ≠ .oplist then some { limits := options.limits } else none
  sink := sink
  intent := options.intent
  pageIndex := options.pageIndex
  chunking := options.chunking

def empty : Builder := create {} none

def length (b : Builder) : Nat := b.queue.size

def totalLength (b : Builder) : Nat := b.flushed + b.length

def isReady (b : Builder) : Bool := b.sink.all Sink.isReady

def snapshot (b : Builder) : Snapshot := ⟨b.queue, b.length⟩

def enqueue (b : Builder) (tag : Tag) (args : List Arg) : Builder :=
  match b.optimizer with
  | some o =>
    let (o, queue) := o.push b.queue tag args
    { b with optimizer := some o, queue }
  | none => { b with queue := b.queue.push tag args }

def settle (b : Builder) : Builder :=
  match b.optimizer with
  | some o =>
    let (o, queue) := o.flush b.queue
    { b with optimizer := some o, queue }
  | none => b

def deliver (b : Builder) (sink : Sink) (isLast : Bool) : Builder :=
  let b := b.settle
  let message := ⟨⟨b.queue, isLast, b.length⟩, 1, b.queue.transfers⟩
  { b with
    sink := some (sink.enqueue message)
    flushed := b.totalLength
    queue := {}
    dependencies := []
    weight := 0
    optimizer := b.optimizer.map Optimizer.reset }

def add (b : Builder) (tag : Tag) (args : List Arg) : Builder :=
  let b := b.enqueue tag args
  let b := { b with weight := b.weight + 1 }
  match b.sink with
  | some sink => if b.chunking.isDue b.weight tag then b.deliver sink false else b
  | none => b

/-- Announces what the instructions that follow depend on, unless this chunk has announced it already. -/
def addDependency (b : Builder) (id : String) : Builder :=
  if id ∈ b.dependencies then b
  else { b with dependencies := id :: b.dependencies }.add .dependency [.name id]

def addDependencies (b : Builder) (ids : List String) : Builder := ids.foldl addDependency b

def announced? (i : Instruction) : Option String :=
  if i.tag = .dependency then i.args.head?.bind Arg.name? else none

/-- Appends an instruction of another list. A dependency that this chunk has announced already is dropped. -/
def splice (b : Builder) (i : Instruction) : Builder :=
  match announced? i with
  | some id =>
    if id ∈ b.dependencies then b
    else { b with dependencies := id :: b.dependencies }.add i.tag i.args
  | none => b.add i.tag i.args

def append (b other : Builder) : Builder := other.queue.toList.foldl splice b

def flush (b : Builder) (isLast : Bool) : Except RenderError Builder :=
  match b.sink with
  | some sink => .ok (b.deliver sink isLast)
  | none => .error .missingSink

end Builder

end DisplayList
