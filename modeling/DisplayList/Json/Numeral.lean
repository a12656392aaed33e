namespace DisplayList.Json

structure Numeral where
  isNegative : Bool
  whole : List Nat
  fraction : Option (List Nat) := none
  exponent : Option (Bool × List Nat) := none
  deriving DecidableEq

inductive Number where
  | integer (n : Int)
  | float (x : Float)

/-- Digits read into a word of 64 bits, as far as they fit. -/
structure Significand where
  value : Nat
  kept : Nat := 0
  dropped : Nat := 0

namespace Significand

def read (s : Significand) (digit : Nat) : Significand :=
  if s.dropped = 0 ∧ 10 * s.value + digit < UInt64.size then
    { s with value := 10 * s.value + digit, kept := s.kept + 1 }
  else { s with dropped := s.dropped + 1 }

def readAll (value : Nat) (digits : List Nat) : Significand := digits.foldl read { value }

end Significand

def powerOfTen (k : Nat) : Float := Float.ofScientific 1 false k

/-- The number `x` times ten to the power of `e`, in steps that a double can hold. There is none if it is too large. -/
def scale (x : Float) (e : Int) : Option Float :=
  if e.natAbs ≤ 308 then
    let y := if 0 ≤ e then x * powerOfTen e.natAbs else x / powerOfTen e.natAbs
    if y.isInf then none else some y
  else if x == 0.0 then some x
  else if 0 ≤ e then none
  else scale (x / powerOfTen 308) (e + 308)
termination_by (-e).toNat

namespace Numeral

def ofDigits (ds : List Nat) : Nat := ds.foldl (fun n d ↦ 10 * n + d) 0

def signed (n : Numeral) (x : Float) : Float := if n.isNegative then -x else x

/-- The value of a numeral with a fraction, with an exponent, or with too many digits. An exponent that no word of 32
bits holds leaves nothing of the number, or too much. -/
def float? (n : Numeral) : Option Float :=
  let whole := Significand.readAll 0 n.whole
  let all := Significand.readAll whole.value (n.fraction.getD [])
  let shift := (whole.dropped : Int) - all.kept
  let x := all.value.toUInt64.toFloat
  let y? := match n.exponent with
    | none => scale x shift
    | some (isDown, ds) =>
      let e := ofDigits ds
      if e < 0x80000000 then scale x (if isDown then shift - e else shift + e)
      else if all.value ≠ 0 ∧ !isDown then none
      else some 0.0
  y?.map n.signed

def value? (n : Numeral) : Option Number :=
  let magnitude := ofDigits n.whole
  if n.fraction.isNone && n.exponent.isNone && !(n.isNegative && magnitude = 0) &&
      magnitude < (if n.isNegative then 0x8000000000000001 else UInt64.size) then
    some (.integer (if n.isNegative then -(magnitude : Int) else magnitude))
  else n.float?.map .float

end Numeral

end DisplayList.Json
