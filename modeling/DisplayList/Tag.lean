namespace DisplayList

structure Tag where
  code : UInt8
  deriving DecidableEq

namespace Tag

def dependency : Tag := ⟨1⟩
def save : Tag := ⟨10⟩
def restore : Tag := ⟨11⟩
def transform : Tag := ⟨12⟩
def beginText : Tag := ⟨31⟩
def endText : Tag := ⟨32⟩
def setFont : Tag := ⟨37⟩
def setTextMatrix : Tag := ⟨42⟩
def showText : Tag := ⟨44⟩
def beginAnnots : Tag := ⟨78⟩
def endAnnots : Tag := ⟨79⟩
def beginAnnot : Tag := ⟨80⟩
def endAnnot : Tag := ⟨81⟩
def paintImageMask : Tag := ⟨83⟩
def paintImageMaskGroup : Tag := ⟨84⟩
def paintImage : Tag := ⟨85⟩
def paintInlineImage : Tag := ⟨86⟩
def paintInlineImageGroup : Tag := ⟨87⟩
def paintImageRepeat : Tag := ⟨88⟩
def paintImageMaskRepeat : Tag := ⟨89⟩
def paintSolidMask : Tag := ⟨90⟩

def named : List (Tag × String) :=
  [(dependency, "dependency"), (save, "save"), (restore, "restore"), (transform, "transform"),
    (beginText, "beginText"), (endText, "endText"), (setFont, "setFont"),
    (setTextMatrix, "setTextMatrix"), (showText, "showText"),
    (beginAnnots, "beginAnnotations"), (endAnnots, "endAnnotations"),
    (beginAnnot, "beginAnnotation"), (endAnnot, "endAnnotation"),
    (paintImageMask, "paintImageMaskXObject"), (paintImageMaskGroup, "paintImageMaskXObjectGroup"),
    (paintImage, "paintImageXObject"), (paintInlineImage, "paintInlineImageXObject"),
    (paintInlineImageGroup, "paintInlineImageXObjectGroup"),
    (paintImageRepeat, "paintImageXObjectRepeat"),
    (paintImageMaskRepeat, "paintImageMaskXObjectRepeat"),
    (paintSolidMask, "paintSolidColorImageMask")]

def name? (t : Tag) : Option String := (named.find? (·.1 = t)).map (·.2)

def ofName? (s : String) : Option Tag := (named.find? (·.2 = s)).map (·.1)

def text (t : Tag) : String := t.name?.getD ("op#" ++ toString t.code.toNat)

/-- The tags that close a scope; a chunk preferably ends after one. -/
def closesScope (t : Tag) : Bool := t = restore || t = endText

theorem ofName?_of_name? {t : Tag} {s : String} (h : t.name? = some s) : ofName? s = some t := by
  obtain ⟨p, hp, rfl⟩ := Option.map_eq_some_iff.1 h
  have ht : p.1 = t := by simpa using List.find?_some hp
  have hall : ∀ p ∈ named, ofName? p.2 = some p.1 := by decide
  rw [hall p (List.mem_of_find?_eq_some hp), ht]

end Tag

end DisplayList
