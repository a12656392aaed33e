/-!
The shortest decimal that reads back as a given double.

A double stands for every real number that rounds to it. Decimal grids are tried from coarse to fine, and the first
one with a point among those numbers gives the digits. If two points of it qualify the nearer one is taken. If both
are equally near, the writer of the decimal decides which of them it wants.
-/

namespace DisplayList

structure Decimal where
  digits : Nat
  exponent : Int
  deriving DecidableEq

namespace Decimal

/-- Which of two neighbours on a grid is taken for a number halfway between them. -/
inductive Tie where
  | up
  | even

def Tie.takesBelow : Tie → Nat → Bool
  | up, _ => false
  | even, below => below % 2 == 0

def digitChars (d : Decimal) : List Char := Nat.toDigits 10 d.digits

def magnitude (d : Decimal) : Int := d.exponent + (d.digitChars.length : Int) - 1

/-- The numbers that round to one double, in units of `scale`: they lie between `low` and `high`, and the double is at
`value`. The ends round to the double if `closed`. -/
structure Interval where
  low : Nat
  value : Nat
  high : Nat
  closed : Bool
  scale : Int

/-- Taken from the bits of a finite double, less its sign. The double below a power of two is nearer than the one
above it. -/
def Interval.ofBits (bits : UInt64) : Interval :=
  let fraction := bits.toNat % 0x10000000000000
  let field := bits.toNat / 0x10000000000000 % 0x800
  let mantissa := if field = 0 then fraction else fraction + 0x10000000000000
  let below := if fraction = 0 ∧ 1 < field then 1 else 2
  ⟨4 * mantissa - below, 4 * mantissa, 4 * mantissa + 2, mantissa % 2 == 0, (max field 1 : Nat) - 1077⟩

def ratio (n : Nat) (scale k : Int) : Nat × Nat :=
  (n * Nat.pow 2 scale.toNat * Nat.pow 10 (-k).toNat, Nat.pow 2 (-scale).toNat * Nat.pow 10 k.toNat)

namespace Interval

def holds (i : Interval) (k : Int) (d : Nat) : Bool :=
  let (low, unit) := ratio i.low i.scale k
  let (high, _) := ratio i.high i.scale k
  if i.closed then low ≤ d * unit && d * unit ≤ high else low < d * unit && d * unit < high

def onGrid? (i : Interval) (tie : Tie) (k : Int) : Option Nat :=
  let (value, unit) := ratio i.value i.scale k
  let below := value / unit
  let above := below + 1
  match i.holds k below && 0 < below, i.holds k above with
  | true, true =>
    let down := value - below * unit
    let up := above * unit - value
    if down < up || (down = up && tie.takesBelow below) then some below else some above
  | true, false => some below
  | false, true => some above
  | false, false => none

def search (i : Interval) (tie : Tie) : Nat → Int → Decimal
  | 0, k => ⟨(ratio i.value i.scale k).1 / (ratio i.value i.scale k).2, k⟩
  | steps + 1, k =>
    match i.onGrid? tie k with
    | some d => ⟨d, k⟩
    | none => search i tie steps (k - 1)

def topExponent (i : Interval) : Int := ((i.scale + 55) * 30103).fdiv 100000 + 1

end Interval

/-- The shortest decimal for the magnitude of a finite double. Twenty grids lie between a power of ten above a double
and one below the distance to its neighbours. -/
def shortest (tie : Tie) (x : Float) : Decimal :=
  if x.abs.toBits = 0 then ⟨0, 0⟩
  else
    let i := Interval.ofBits x.abs.toBits
    i.search tie 24 i.topExponent

end Decimal

end DisplayList
