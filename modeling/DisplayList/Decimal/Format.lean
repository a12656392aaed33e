import DisplayList.Decimal.Shortest

namespace DisplayList.Decimal

structure Format where
  isPositional : Int → Bool
  wholeEnd : String
  plus : String
  /-- Of two shortest decimals that are equally near, the one to write. -/
  tie : Tie

namespace Format

def positional (f : Format) (d : Decimal) : String :=
  let digits := d.digitChars
  if 0 ≤ d.exponent then
    String.ofList (digits ++ List.replicate d.exponent.toNat '0') ++ f.wholeEnd
  else
    let places := (-d.exponent).toNat
    let padded := List.replicate (places + 1 - digits.length) '0' ++ digits
    let whole := padded.length - places
    String.ofList (padded.take whole ++ '.' :: padded.drop whole)

def scientific (f : Format) (d : Decimal) : String :=
  let sign := if 0 ≤ d.magnitude then f.plus else "-"
  let mantissa := match d.digitChars with
    | [c] => [c]
    | c :: rest => c :: '.' :: rest
    | [] => []
  String.ofList mantissa ++ "e" ++ sign ++ toString d.magnitude.natAbs

def write (f : Format) (d : Decimal) : String :=
  if f.isPositional d.magnitude then f.positional d else f.scientific d

def float (f : Format) (x : Float) : String :=
  if x.isNaN then "NaN"
  else
    let sign := if x.toBits < 0x8000000000000000 then "" else "-"
    sign ++ if x.isInf then "inf" else f.write (shortest f.tie x)

end Format

end DisplayList.Decimal
