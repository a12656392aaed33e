import DisplayList.Fault

/-!
Packing small images into one RGBA atlas.

The images stand in rows, each inside a border that repeats its own edge pixels, so that sampling at an edge never
picks up a neighbour. `Layout.add` says where an image goes, and `Canvas.paint` puts it there together with its
border. Numbers have no bound here; for items that are `Atlas.InRange`, packing in machine words comes to the same.
-/

namespace DisplayList

structure Layout where
  x : Nat
  y : Nat
  rowHeight : Nat := 0
  /-- The greatest `x` that an earlier row ended at. -/
  widest : Nat := 0

namespace Layout

def start (padding : Nat) : Layout := { x := padding, y := padding }

def wrap (l : Layout) (padding : Nat) : Layout :=
  { x := padding, y := l.y + l.rowHeight + 2 * padding, widest := max l.widest l.x }

/-- Whether an image of this width has to go to the next row. The first image of a row never has to. -/
def isFull (l : Layout) (maxWidth padding width : Nat) : Bool :=
  padding < l.x && maxWidth < l.x + width

def seek (l : Layout) (maxWidth padding width : Nat) : Layout :=
  if l.isFull maxWidth padding width then l.wrap padding else l

def add (l : Layout) (padding width height : Nat) : Layout :=
  { l with x := l.x + width + 2 * padding, rowHeight := max l.rowHeight height }

def width (l : Layout) (padding : Nat) : Nat := max l.widest l.x - padding

def height (l : Layout) (padding : Nat) : Nat := l.y + l.rowHeight + padding

end Layout

structure AtlasItem where
  transform : List Arg
  image : Image

def placeAll (maxWidth padding : Nat) : Layout → List AtlasItem → List (Placement Arg) × Layout
  | l, [] => ([], l)
  | l, item :: items =>
    let at' := l.seek maxWidth padding item.image.width
    let rest := placeAll maxWidth padding (at'.add padding item.image.width item.image.height) items
    (⟨item.transform, at'.x, at'.y, item.image.width, item.image.height⟩ :: rest.1, rest.2)

structure Canvas where
  width : Nat
  data : ByteArray

namespace Canvas

def stride (c : Canvas) : Nat := c.width * 4

def blank (width height : Nat) : Canvas := ⟨width, filled 0 (width * 4 * height)⟩

def copy (c : Canvas) (start length target : Nat) : Except Fault Canvas := do
  return { c with data := ← copyWithin c.data start length target }

def putRows (c : Canvas) (x y : Nat) (image : Image) : Except Fault Canvas :=
  let rowSize := image.width * 4
  let stride := c.stride
  (List.range image.height).foldlM (fun c k ↦ do
    let row ← slice image.data (k * rowSize) rowSize
    return { c with data := ← overwrite c.data ((y + k) * stride + x * 4) row }) c

def extendRows (c : Canvas) (padding x y w h : Nat) : Except Fault Canvas := do
  let stride := c.stride
  let first := y * stride + x * 4
  let last := (← distance 1 (y + h)) * stride + x * 4
  (List.range padding).foldlM (fun c d ↦ do
    let c ← c.copy first (w * 4) (← distance ((d + 1) * stride) first)
    c.copy last (w * 4) (last + (d + 1) * stride)) c

def extendRow (c : Canvas) (padding left right : Nat) : Except Fault Canvas :=
  (List.range padding).foldlM (fun c d ↦ do
    let c ← c.copy left 4 (← distance ((d + 1) * 4) left)
    c.copy right 4 (right + (d + 1) * 4)) c

/-- Repeats the first and the last pixel of each row to either side, also in the rows that `extendRows` made, which
fills the corners. -/
def extendColumns (c : Canvas) (padding x y w h : Nat) : Except Fault Canvas := do
  let stride := c.stride
  let top ← distance padding y
  (List.range (h + 2 * padding)).foldlM (fun c r ↦ do
    let left := (top + r) * stride + x * 4
    c.extendRow padding left (← distance 4 (left + w * 4))) c

def paint (c : Canvas) (padding x y : Nat) (image : Image) : Except Fault Canvas :=
  if image.width = 0 ∨ image.height = 0 then
    return c
  else do
    let c ← c.putRows x y image
    let c ← c.extendRows padding x y image.width image.height
    c.extendColumns padding x y image.width image.height

end Canvas

structure Atlas where
  image : Image
  placements : List (Placement Arg)

def Atlas.pack (items : List AtlasItem) (maxWidth padding : Nat) : Except Fault Atlas := do
  let (placements, l) := placeAll maxWidth padding (.start padding) items
  let width := l.width padding
  let height := l.height padding
  let canvas ← (placements.zip items).foldlM
    (fun c (p, item) ↦ c.paint padding p.x p.y item.image) (Canvas.blank width height)
  return ⟨⟨width, height, .rgba, canvas.data, false⟩, placements⟩

end DisplayList
