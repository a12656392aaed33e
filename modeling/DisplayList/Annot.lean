import DisplayList.Content

namespace DisplayList

structure AnnotFlags where
  bits : UInt32
  deriving DecidableEq

namespace AnnotFlags

def invisible : UInt32 := 0x1
def hidden : UInt32 := 0x2
def print : UInt32 := 0x4
def noView : UInt32 := 0x20

def contains (f : AnnotFlags) (bits : UInt32) : Bool := f.bits &&& bits ≠ 0

end AnnotFlags

structure Appearance where
  content : Content
  bbox : Rect := .unit
  matrix : Matrix := .identity

structure Annot where
  rect : Rect
  flags : AnnotFlags
  appearance : Option Appearance := none

namespace Annot

def isInvisible (a : Annot) : Bool := a.flags.contains AnnotFlags.invisible

def isViewable (a : Annot) : Bool :=
  !a.isInvisible && !a.flags.contains (AnnotFlags.hidden ||| AnnotFlags.noView)

def isPrintable (a : Annot) : Bool :=
  !a.isInvisible && a.flags.contains AnnotFlags.print && !a.flags.contains AnnotFlags.hidden

def isRenderedFor (a : Annot) : Intent → Bool
  | .print => a.isPrintable
  | .display | .oplist => a.isViewable

/-- Evaluates the appearance into a list of its own, between markers, and rewinds it. -/
def evaluate (a : Annot) (task : TaskId) (w : Worker) : Except RenderError Builder × Annot × Worker :=
  match a.appearance with
  | none => (.ok .empty, a, w)
  | some look =>
    let list := Builder.empty.add .beginAnnot
      [.rect a.rect, .matrix (fit a.rect look.bbox look.matrix), .matrix look.matrix]
    let (outcome, content, p) := look.content.evaluate task ⟨list, w⟩
    (outcome.map fun _ ↦ p.list.add .endAnnot [],
      { a with appearance := some { look with content := content.rewind } }, p.worker)

def evaluateAll (task : TaskId) (intent : Intent) :
    List Annot → Worker → Except RenderError (List Builder) × List Annot × Worker
  | [], w => (.ok [], [], w)
  | a :: rest, w =>
    if a.isRenderedFor intent then
      match a.evaluate task w with
      | (.ok list, a, w) =>
        let (lists, rest, w) := evaluateAll task intent rest w
        (lists.map (list :: ·), a :: rest, w)
      | (.error e, a, w) => (.error e, a :: rest, w)
    else
      let (lists, rest, w) := evaluateAll task intent rest w
      (lists, a :: rest, w)

def appendAll (annots : List Annot) (task : TaskId) (intent : Intent) (p : Producer) :
    Except RenderError Unit × List Annot × Producer :=
  match evaluateAll task intent annots p.worker with
  | (.ok lists, annots, worker) =>
    let list := lists.foldl Builder.append (p.list.add .beginAnnots [])
    (.ok (), annots, ⟨list.add .endAnnots [], worker⟩)
  | (.error e, annots, worker) => (.error e, annots, { p with worker })

end Annot

end DisplayList
