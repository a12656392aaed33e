import DisplayList.Content

/-!
Traces: what the content of a page would add to a list, written down in advance.

The images of a trace are told apart by their ids. `Trace.resolve` looks the names of the tags up and decodes each
image where its id occurs first; every later image of that id is the same resource, whatever it declares.
-/

namespace DisplayList

structure TraceImage where
  id : String
  width : Nat
  height : Nat
  kind : PixelKind := .rgba
  fill : UInt8 := 0
  cached : Bool := false

inductive TraceArg where
  | null
  | bool (b : Bool)
  | int (n : Int)
  | number (x : Float)
  | name (s : String)
  | image (i : TraceImage)
  | array (items : List TraceArg)

inductive TagRef where
  | code (c : UInt8)
  | name (s : String)

inductive TraceEntry where
  | dependency (id : String)
  | instruction (tag : TagRef) (args : List TraceArg)

structure Trace where
  page : Nat := 0
  entries : List TraceEntry

inductive TraceError where
  | unknownName (name : String)
  | emptyImage (id : String)
  deriving DecidableEq

def TraceError.message : TraceError → String
  | unknownName name => "unknown operation name: " ++ name
  | emptyImage id => "image " ++ id ++ " has an empty size"

/-- What keeps a trace from being resolved: it is wrong, or an image in it is larger than a buffer can be. -/
inductive TraceFailure where
  | invalid (e : TraceError)
  | fault (f : Fault)
  deriving DecidableEq

inductive Addition where
  | dependency (id : String)
  | instruction (i : Instruction)

def Addition.addTo (b : Builder) : Addition → Builder
  | dependency id => b.addDependency id
  | instruction i => b.add i.tag i.args

structure ImageTable where
  entries : List (String × Resource) := []
  /-- How many images were decoded. Each of them is a resource of its own, whatever it shows. -/
  decoded : Nat := 0

namespace ImageTable

def lookup (images : ImageTable) (id : String) : Option Resource := images.entries.lookup id

def add (images : ImageTable) (id : String) (r : Resource) : ImageTable :=
  ⟨(id, r) :: images.entries, images.decoded + 1⟩

end ImageTable

def TagRef.resolve : TagRef → Except TraceFailure Tag
  | code c => .ok ⟨c⟩
  | name s =>
    match Tag.ofName? s with
    | some tag => .ok tag
    | none => .error (.invalid (.unknownName s))

namespace TraceImage

def samples (i : TraceImage) : Except Fault ByteArray := do
  allocate i.fill (← productIn UInt64.size (i.kind.rowBytes i.width) i.height)

def decode (i : TraceImage) (number : Nat) : Except TraceFailure Resource :=
  if i.width = 0 ∨ i.height = 0 then .error (.invalid (.emptyImage i.id))
  else do
    let data ← i.samples.mapError .fault
    return ⟨some (toString number), i.width, i.height, i.kind, data, i.cached⟩

/-- The resource of the image, decoded unless its id is known. -/
def intern (i : TraceImage) (images : ImageTable) : Except TraceFailure (Resource × ImageTable) :=
  match images.lookup i.id with
  | some r => .ok (r, images)
  | none => do
    let r ← i.decode images.decoded
    return (r, images.add i.id r)

end TraceImage

namespace TraceArg

mutual

def resolve : TraceArg → ImageTable → Except TraceFailure (Arg × ImageTable)
  | null, images => .ok (.null, images)
  | bool b, images => .ok (.bool b, images)
  | int n, images => .ok (.int n, images)
  | number x, images => .ok (.number x, images)
  | name s, images => .ok (.name s, images)
  | image i, images => do
    let (r, images) ← i.intern images
    return (.image r, images)
  | array items, images => do
    let (args, images) ← resolveAll items images
    return (.array args, images)

def resolveAll : List TraceArg → ImageTable → Except TraceFailure (List Arg × ImageTable)
  | [], images => .ok ([], images)
  | a :: rest, images => do
    let (arg, images) ← resolve a images
    let (args, images) ← resolveAll rest images
    return (arg :: args, images)

end

end TraceArg

def TraceEntry.resolve (images : ImageTable) : TraceEntry → Except TraceFailure (Addition × ImageTable)
  | dependency id => .ok (.dependency id, images)
  | instruction tag args => do
    let tag ← tag.resolve
    let (args, images) ← TraceArg.resolveAll args images
    return (.instruction ⟨tag, args⟩, images)

def TraceEntry.resolveAll : List TraceEntry → ImageTable → Except TraceFailure (List Addition)
  | [], _ => .ok []
  | e :: rest, images => do
    let (addition, images) ← e.resolve images
    let additions ← resolveAll rest images
    return addition :: additions

def Trace.resolve (t : Trace) : Except TraceFailure (List Addition) := TraceEntry.resolveAll t.entries {}

def batchStarts (n batch : Nat) : List Nat := List.range' 0 ((n + batch - 1) / batch) batch

/-- Content that makes `batch` additions at each step, but at least one. -/
def Content.ofAdditions (additions : List Addition) (batch : Nat) : Content where
  steps :=
    let batch := max batch 1
    (batchStarts additions.length batch).map fun start p ↦
      ({ p with list := (additions.extract start (start + batch)).foldl Addition.addTo p.list }, .more)

end DisplayList
