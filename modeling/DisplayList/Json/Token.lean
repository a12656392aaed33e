import DisplayList.Json.Numeral

namespace DisplayList.Json

/-- A character of a string, or the number of a UTF-16 code unit that was written as an escape. -/
inductive CodeUnit where
  | char (c : Char)
  | escaped (n : Nat)
  deriving DecidableEq

inductive Token where
  | null
  | bool (b : Bool)
  | number (n : Numeral)
  | string (s : List CodeUnit)
  | openArray
  | closeArray
  | openObject
  | closeObject
  | comma
  | colon
  deriving DecidableEq

def isBlank (c : Char) : Bool := c = ' ' || c = '\t' || c = '\n' || c = '\r'

def hexDigit? (c : Char) : Option Nat :=
  if '0' ≤ c ∧ c ≤ '9' then some (c.toNat - '0'.toNat)
  else if 'a' ≤ c ∧ c ≤ 'f' then some (c.toNat - 'a'.toNat + 10)
  else if 'A' ≤ c ∧ c ≤ 'F' then some (c.toNat - 'A'.toNat + 10)
  else none

def shortEscape? : Char → Option Char
  | '"' => some '"'
  | '\\' => some '\\'
  | '/' => some '/'
  | 'b' => some '\x08'
  | 'f' => some '\x0c'
  | 'n' => some '\n'
  | 'r' => some '\r'
  | 't' => some '\t'
  | _ => none

/-- Reads a string from behind its opening quote, and gives what follows its closing quote. -/
def string? : List Char → Option (List CodeUnit × List Char)
  | [] => none
  | '"' :: rest => some ([], rest)
  | '\\' :: 'u' :: a :: b :: c :: d :: rest => do
    let n := 4096 * (← hexDigit? a) + 256 * (← hexDigit? b) + 16 * (← hexDigit? c) + (← hexDigit? d)
    let (units, rest) ← string? rest
    return (.escaped n :: units, rest)
  | '\\' :: c :: rest => do
    let c ← shortEscape? c
    let (units, rest) ← string? rest
    return (.char c :: units, rest)
  | c :: rest =>
    if c = '\\' ∨ c.toNat < 0x20 then none
    else do
      let (units, rest) ← string? rest
      return (.char c :: units, rest)

def digits? (cs : List Char) : Option (List Nat × List Char) :=
  let ds := cs.takeWhile Char.isDigit
  if ds = [] then none else some (ds.map fun c ↦ c.toNat - '0'.toNat, cs.dropWhile Char.isDigit)

def whole? (cs : List Char) : Option (List Nat × List Char) := do
  let (ds, rest) ← digits? cs
  if ds.head? = some 0 ∧ ds.length ≠ 1 then none else return (ds, rest)

def fraction? : List Char → Option (Option (List Nat) × List Char)
  | '.' :: rest => (digits? rest).map fun (ds, rest) ↦ (some ds, rest)
  | cs => some (none, cs)

def exponentDigits? : List Char → Option ((Bool × List Nat) × List Char)
  | '-' :: rest => (digits? rest).map fun (ds, rest) ↦ ((true, ds), rest)
  | '+' :: rest => (digits? rest).map fun (ds, rest) ↦ ((false, ds), rest)
  | cs => (digits? cs).map fun (ds, rest) ↦ ((false, ds), rest)

def exponent? : List Char → Option (Option (Bool × List Nat) × List Char)
  | 'e' :: rest | 'E' :: rest => (exponentDigits? rest).map fun (e, rest) ↦ (some e, rest)
  | cs => some (none, cs)

def unsigned? (isNegative : Bool) (cs : List Char) : Option (Numeral × List Char) := do
  let (whole, rest) ← whole? cs
  let (fraction, rest) ← fraction? rest
  let (exponent, rest) ← exponent? rest
  return ({ isNegative, whole, fraction, exponent }, rest)

def numeral? : List Char → Option (Numeral × List Char)
  | '-' :: rest => unsigned? true rest
  | cs => unsigned? false cs

def token? : List Char → Option (Token × List Char)
  | '[' :: rest => some (.openArray, rest)
  | ']' :: rest => some (.closeArray, rest)
  | '\x7b' :: rest => some (.openObject, rest)
  | '\x7d' :: rest => some (.closeObject, rest)
  | ',' :: rest => some (.comma, rest)
  | ':' :: rest => some (.colon, rest)
  | '"' :: rest => (string? rest).map fun (s, rest) ↦ (.string s, rest)
  | 'n' :: 'u' :: 'l' :: 'l' :: rest => some (.null, rest)
  | 't' :: 'r' :: 'u' :: 'e' :: rest => some (.bool true, rest)
  | 'f' :: 'a' :: 'l' :: 's' :: 'e' :: rest => some (.bool false, rest)
  | cs => (numeral? cs).map fun (n, rest) ↦ (.number n, rest)

theorem length_of_string? {cs rest : List Char} {s : List CodeUnit} (h : string? cs = some (s, rest)) :
    rest.length < cs.length := by
  fun_induction string? cs generalizing s rest <;>
    simp_all [Option.bind_eq_some_iff] <;> grind

theorem length_of_digits? {cs rest : List Char} {ds : List Nat} (h : digits? cs = some (ds, rest)) :
    rest.length < cs.length := by
  simp only [digits?, Option.ite_none_left_eq_some, Option.some.injEq, Prod.mk.injEq] at h
  obtain ⟨hne, _, rfl⟩ := h
  have := congrArg List.length (List.takeWhile_append_dropWhile (p := Char.isDigit) (l := cs))
  have := List.length_pos_iff.2 hne
  simp only [List.length_append] at *
  omega

theorem length_of_fraction? {cs rest : List Char} {f : Option (List Nat)} (h : fraction? cs = some (f, rest)) :
    rest.length ≤ cs.length := by
  unfold fraction? at h
  split at h
  · obtain ⟨⟨ds, r⟩, hd, he⟩ := Option.map_eq_some_iff.1 h
    have := length_of_digits? hd
    grind
  · grind

theorem length_of_exponentDigits? {cs rest : List Char} {e : Bool × List Nat}
    (h : exponentDigits? cs = some (e, rest)) : rest.length < cs.length := by
  unfold exponentDigits? at h
  split at h <;>
  · obtain ⟨⟨ds, r⟩, hd, he⟩ := Option.map_eq_some_iff.1 h
    have := length_of_digits? hd
    grind

theorem length_of_exponent? {cs rest : List Char} {e : Option (Bool × List Nat)}
    (h : exponent? cs = some (e, rest)) : rest.length ≤ cs.length := by
  unfold exponent? at h
  split at h
  any_goals
    obtain ⟨⟨ds, r⟩, hd, he⟩ := Option.map_eq_some_iff.1 h
    have := length_of_exponentDigits? hd
    grind
  grind

theorem length_of_unsigned? {b : Bool} {cs rest : List Char} {n : Numeral}
    (h : unsigned? b cs = some (n, rest)) : rest.length < cs.length := by
  simp only [unsigned?, whole?, Option.bind_eq_bind, Option.bind_eq_some_iff, Prod.exists] at h
  obtain ⟨_, _, ⟨_, r₁, h₁, hg⟩, _, r₂, h₂, _, r₃, h₃, he⟩ := h
  have := length_of_digits? h₁
  have := length_of_fraction? h₂
  have := length_of_exponent? h₃
  grind

theorem length_of_token? {cs rest : List Char} {t : Token} (h : token? cs = some (t, rest)) :
    rest.length < cs.length := by
  unfold token? at h
  split at h
  case h_7 =>
    obtain ⟨⟨s, r⟩, hs, he⟩ := Option.map_eq_some_iff.1 h
    have := length_of_string? hs
    grind
  case h_11 =>
    obtain ⟨⟨n, r⟩, hn, he⟩ := Option.map_eq_some_iff.1 h
    unfold numeral? at hn
    split at hn <;>
    · have := length_of_unsigned? hn
      grind
  all_goals grind

def tokens? (cs : List Char) : Option (List Token) :=
  match cs with
  | [] => some []
  | c :: rest =>
    if isBlank c then tokens? rest
    else
      match _h : token? (c :: rest) with
      | some (t, rest) => (tokens? rest).map (t :: ·)
      | none => none
termination_by cs.length
decreasing_by
  · simp
  · exact length_of_token? _h

end DisplayList.Json
