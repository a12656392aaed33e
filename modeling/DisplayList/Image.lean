namespace DisplayList

def filled (byte : UInt8) (n : Nat) : ByteArray :=
  if n = 0 then .empty
  else
    let half := filled byte (n / 2)
    if n % 2 = 0 then half ++ half else (half ++ half).push byte

inductive PixelKind where
  /-- One bit a pixel, each row padded to whole bytes. -/
  | gray1
  | rgb
  | rgba
  deriving DecidableEq

def PixelKind.rowBytes : PixelKind → Nat → Nat
  | gray1, width => (width + 7) / 8
  | rgb, width => width * 3
  | rgba, width => width * 4

/-- Decoded samples. Nothing ties the length of `data` to the declared size. -/
structure Image where
  width : Nat
  height : Nat
  kind : PixelKind
  data : ByteArray
  /-- A resource cache keeps the samples, so they are never handed over with a chunk. -/
  cached : Bool := false

instance : DecidableEq Image := fun ⟨w, h, k, ⟨d⟩, c⟩ ⟨w', h', k', ⟨d'⟩, c'⟩ ↦
  decidable_of_iff ((w, h, k, d, c) = (w', h', k', d', c')) (by simp)

namespace Image

/-- The bytes of the declared size. A word holds their number for images painted in a stream that is `InRange`. -/
def expectedLength (i : Image) : Nat := i.kind.rowBytes i.width * i.height

/-- A mask of one pixel whose sample is zero or absent: drawing it fills that pixel. -/
def isSolidUnit (i : Image) : Bool :=
  i.width = 1 && i.height = 1 && (i.data.data = #[] || i.data.data = #[0])

def isPackable (i : Image) : Bool := i.kind = .rgba && i.expectedLength ≤ i.data.size

end Image

/-- An image as an argument refers to it. Two references are to one resource when they carry one `id`. An image made
while drawing, such as an atlas, has none, for nobody else can hold it. -/
structure Resource where
  id : Option String
  image : Image
  deriving DecidableEq

instance : BEq Resource where
  beq r s := r.image == s.image

def Resource.sharesWith (r s : Resource) : Bool :=
  match r.id, s.id with
  | some i, some j => i = j
  | _, _ => false

end DisplayList
