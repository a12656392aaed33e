import DisplayList.Geometry
import DisplayList.Image

namespace DisplayList

/-- Where an image landed in an atlas, with the transform it was to be painted under. -/
structure Placement (α : Type) where
  transform : List α
  x : Nat
  y : Nat
  w : Nat
  h : Nat

structure MaskEntry (α : Type) where
  mask : Resource
  transform : List α

inductive Arg where
  | null
  | bool (b : Bool)
  | int (n : Int)
  | number (x : Float)
  | name (s : String)
  | bytes (b : ByteArray)
  | array (items : List Arg)
  | rect (r : Rect)
  | matrix (m : Matrix)
  | image (r : Resource)
  | positions (p : List Float32)
  | placements (p : List (Placement Arg))
  | masks (m : List (MaskEntry Arg))

namespace Arg

def number? : Arg → Option Float
  | int n => some (Float.ofInt n)
  | number x => some x
  | _ => none

def name? : Arg → Option String
  | name s => some s
  | _ => none

def image? : Arg → Option Resource
  | image r => some r
  | _ => none

mutual

/-- Equality of values. Numbers compare as floating point does, an integer never equals a floating-point number, and
images compare by their samples. -/
def eqv : Arg → Arg → Bool
  | null, null => true
  | bool a, bool b => a == b
  | int a, int b => a == b
  | number a, number b => a == b
  | name a, name b => a == b
  | bytes a, bytes b => a == b
  | array a, array b => eqvAll a b
  | rect a, rect b => a == b
  | matrix a, matrix b => a == b
  | image a, image b => a == b
  | positions a, positions b => a == b
  | placements a, placements b => eqvPlacements a b
  | masks a, masks b => eqvMasks a b
  | _, _ => false

def eqvAll : List Arg → List Arg → Bool
  | [], [] => true
  | a :: as, b :: bs => eqv a b && eqvAll as bs
  | _, _ => false

def eqvPlacements : List (Placement Arg) → List (Placement Arg) → Bool
  | [], [] => true
  | ⟨t, x, y, w, h⟩ :: as, b :: bs =>
    eqvAll t b.transform && x == b.x && y == b.y && w == b.w && h == b.h && eqvPlacements as bs
  | _, _ => false

def eqvMasks : List (MaskEntry Arg) → List (MaskEntry Arg) → Bool
  | [], [] => true
  | ⟨m, t⟩ :: as, b :: bs => m == b.mask && eqvAll t b.transform && eqvMasks as bs
  | _, _ => false

end

instance : BEq Arg := ⟨eqv⟩

/-- Whether two arguments stand for the same thing when drawn: two images for one resource, anything else by value. -/
def sharesWith : Arg → Arg → Bool
  | image r, image s => r.sharesWith s
  | image _, _ => false
  | _, image _ => false
  | a, b => a == b

def sharesWithAll : List Arg → List Arg → Bool
  | [], [] => true
  | a :: as, b :: bs => a.sharesWith b && sharesWithAll as bs
  | _, _ => false

end Arg

def numberAt? (args : List Arg) (k : Nat) : Option Float := args[k]?.bind Arg.number?

def firstImage? (args : List Arg) : Option Resource := args.head?.bind Arg.image?

end DisplayList
