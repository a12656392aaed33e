import DisplayList.Decimal.Format

namespace DisplayList.Json

/-- Doubles from a hundred thousandth to ten to the power of sixteen are written with all their places. -/
def doubles : Decimal.Format := ⟨fun e ↦ -5 ≤ e && e < 16, ".0", "+", .even⟩

def float (x : Float) : String := if x.isFinite then doubles.float x else "null"

def escape (c : Char) : List Char :=
  match c with
  | '"' => ['\\', '"']
  | '\\' => ['\\', '\\']
  | '\x08' => ['\\', 'b']
  | '\x0c' => ['\\', 'f']
  | '\n' => ['\\', 'n']
  | '\r' => ['\\', 'r']
  | '\t' => ['\\', 't']
  | _ =>
    if c.toNat < 0x20 then ['\\', 'u', '0', '0', Nat.digitChar (c.toNat / 16), Nat.digitChar (c.toNat % 16)]
    else [c]

def quote (s : String) : String := String.ofList ('"' :: s.toList.flatMap escape ++ ['"'])

def bool (b : Bool) : String := if b then "true" else "false"

def array (items : List String) : String := "[" ++ ",".intercalate items ++ "]"

def object (members : List (String × String)) : String :=
  "\x7b" ++ ",".intercalate (members.map fun (key, value) ↦ quote key ++ ":" ++ value) ++ "\x7d"

end DisplayList.Json
