namespace DisplayList

structure Point where
  x : Float
  y : Float

structure Rect where
  x0 : Float
  y0 : Float
  x1 : Float
  y1 : Float

instance : BEq Rect where
  beq r s := r.x0 == s.x0 && r.y0 == s.y0 && r.x1 == s.x1 && r.y1 == s.y1

namespace Rect

def unit : Rect := ⟨0, 0, 1, 1⟩

def corners (r : Rect) : List Point :=
  [⟨r.x0, r.y0⟩, ⟨r.x0, r.y1⟩, ⟨r.x1, r.y0⟩, ⟨r.x1, r.y1⟩]

def toList (r : Rect) : List Float := [r.x0, r.y0, r.x1, r.y1]

end Rect

/-- The map that takes `(x, y)` to `(a x + c y + e, b x + d y + f)`. -/
structure Matrix where
  a : Float
  b : Float
  c : Float
  d : Float
  e : Float
  f : Float

instance : BEq Matrix where
  beq m n := m.a == n.a && m.b == n.b && m.c == n.c && m.d == n.d && m.e == n.e && m.f == n.f

/-- The smaller of two numbers; a NaN gives way to the other operand. -/
def lesser (x y : Float) : Float :=
  if y.isNaN then x else if x.isNaN then y else if y < x then y else x

def greater (x y : Float) : Float :=
  if y.isNaN then x else if x.isNaN then y else if x < y then y else x

def largest : Float := Float.ofBits 0x7fefffffffffffff

namespace Matrix

def identity : Matrix := ⟨1, 0, 0, 1, 0, 0⟩

def toList (m : Matrix) : List Float := [m.a, m.b, m.c, m.d, m.e, m.f]

def apply (m : Matrix) (p : Point) : Point :=
  ⟨m.a * p.x + m.c * p.y + m.e, m.b * p.x + m.d * p.y + m.f⟩

/-- The bounding box of the image of `r`. It starts from the empty box, so coordinates that are NaN throughout
leave it there. -/
def bounds (m : Matrix) (r : Rect) : Rect :=
  (r.corners.map m.apply).foldl
    (fun box p ↦ ⟨lesser box.x0 p.x, lesser box.y0 p.y, greater box.x1 p.x, greater box.y1 p.y⟩)
    ⟨largest, largest, -largest, -largest⟩

end Matrix

/-- The scaling and shift that carries the image of `box` under `m` onto `target`. A box that is flat in
either direction cannot be scaled and is only moved to the target's origin. -/
def fit (target box : Rect) (m : Matrix) : Matrix :=
  let b := m.bounds box
  if b.x0 == b.x1 || b.y0 == b.y1 then
    ⟨1, 0, 0, 1, target.x0, target.y0⟩
  else
    let sx := (target.x1 - target.x0) / (b.x1 - b.x0)
    let sy := (target.y1 - target.y0) / (b.y1 - b.y0)
    ⟨sx, 0, 0, sy, target.x0 - b.x0 * sx, target.y0 - b.y0 * sy⟩

end DisplayList
