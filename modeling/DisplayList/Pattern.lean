import DisplayList.Fault

namespace DisplayList

/-- A kind of run. A run is a succession of groups that have the tags of its pattern and whose arguments go together. -/
inductive Pattern where
  | inlineImages
  | imageMasks
  | images
  | glyphRuns
  deriving DecidableEq

def isUpright (transform : List Arg) : Bool :=
  numberAt? transform 1 == some 0.0 && numberAt? transform 2 == some 0.0

def sameScale (first other : List Arg) : Bool :=
  isUpright other && (numberAt? first 0).isSome &&
    numberAt? other 0 == numberAt? first 0 && numberAt? other 3 == numberAt? first 3

/-- Whether the first argument of `other` stands for the same thing as that of `first`. -/
def sameSubject (first other : List Arg) : Bool :=
  match first.head?, other.head? with
  | some a, some b => b.sharesWith a
  | _, _ => false

def paintsPackable (paint : List Arg) : Bool := (firstImage? paint).any (·.image.isPackable)

def paintsSolidUnit (paint : List Arg) : Bool :=
  paint.length = 1 && (firstImage? paint).any (·.image.isSolidUnit)

namespace Pattern

/-- All patterns, in the order in which they are tried. -/
def all : List Pattern := [inlineImages, imageMasks, images, glyphRuns]

def quartet (paint : Tag) : List Tag := [.save, .transform, paint, .restore]

def group : Pattern → List Tag
  | inlineImages => quartet .paintInlineImage
  | imageMasks => quartet .paintImageMask
  | images => quartet .paintImage
  | glyphRuns => [.beginText, .setFont, .setTextMatrix, .showText, .endText]

def period (p : Pattern) : Nat := p.group.length

def begins (tag : Tag) : Bool := all.any (·.group.head? = some tag)

/-- Whether the arguments at `i`, which is at `offset` in its group, go with those of the group at `first`. -/
def fits (p : Pattern) (c : Columns) (first i offset : Nat) : Except Fault Bool :=
  match p, offset with
  | inlineImages, 2 => do return paintsPackable (← c.argsAt i)
  | images, 1 => do return sameScale (← c.argsAt (first + 1)) (← c.argsAt i)
  | images, 2 => do return sameSubject (← c.argsAt (first + 2)) (← c.argsAt i)
  | glyphRuns, 1 => do return Arg.sharesWithAll (← c.argsAt (first + 1)) (← c.argsAt i)
  | _, _ => return true

def admits (p : Pattern) (c : Columns) (first : Nat) : Except Fault Bool :=
  match p with
  | inlineImages => do return paintsPackable (← c.argsAt (first + 2))
  | images => do return isUpright (← c.argsAt (first + 1))
  | imageMasks | glyphRuns => return true

/-- Whether the instruction at `i` goes on with the run that was opened at `first`. -/
def continues (p : Pattern) (c : Columns) (first i : Nat) : Except Fault Bool := do
  let offset := (← distance first i) % p.period
  let tag ← c.tagAt i
  if p.group[offset]? = some tag then p.fits c first i offset else return false

end Pattern

end DisplayList
