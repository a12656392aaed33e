import DisplayList.Decimal.Format
import DisplayList.Page
import DisplayList.Text.Quoted

namespace DisplayList.Description

/-- Numbers always have a fraction or an exponent. -/
def numbers : Decimal.Format := ⟨fun e ↦ -4 ≤ e && e < 16, ".0", "", .up⟩

def bool (b : Bool) : String := if b then "true" else "false"

def option {α : Type} (describe : α → String) : Option α → String
  | some a => "Some(" ++ describe a ++ ")"
  | none => "None"

def list {α : Type} (describe : α → String) (as : List α) : String :=
  "[" ++ ", ".intercalate (as.map describe) ++ "]"

def record (name : String) (fields : List (String × String)) (isWhole : Bool) : String :=
  let body := ", ".intercalate (fields.map fun (key, value) ↦ key ++ ": " ++ value)
  name ++ " \x7b " ++ body ++ if isWhole then " \x7d" else ", .. \x7d"

def rect (r : Rect) : String := "(" ++ ", ".intercalate (r.toList.map numbers.float) ++ ")"

def intent : Intent → String
  | .display => "Display"
  | .print => "Print"
  | .oplist => "OpList"

def builder (b : Builder) : String :=
  record "OperatorList"
    [("intent", intent b.intent), ("page_index", option toString b.pageIndex), ("length", toString b.length),
      ("total_length", toString b.totalLength), ("weight", toString b.weight),
      ("has_sink", bool b.sink.isSome)] false

def task (t : Task) : String :=
  record "WorkerTask"
    [("name", Text.quote t.name), ("terminated", bool t.isTerminated), ("finished", bool t.isFinished)] true

def annot (a : Annot) : String :=
  record ("Annotation")
    [("rect", rect a.rect), ("flags", "AnnotationFlags(" ++ toString a.flags.bits.toNat ++ ")"),
      ("has_appearance", bool a.appearance.isSome)] true

def page (p : Page) : String :=
  record "Page" [("index", toString p.index), ("annotations", list annot p.annots)] false

end DisplayList.Description
