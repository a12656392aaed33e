import DisplayList.Json.Token

namespace DisplayList.Json

structure Member (α : Type) where
  key : List CodeUnit
  value : α

inductive Tree where
  | null
  | bool (b : Bool)
  | number (n : Numeral)
  | string (s : List CodeUnit)
  | array (items : List Tree)
  | object (members : List (Member Tree))

/-- An array or an object that was opened, with what it holds so far in reverse. An object waits for the value of its
last key. -/
inductive Frame where
  | items (done : List Tree)
  | members (done : List (Member Tree)) (key : List CodeUnit)

/-- What may come next in a text, within the frames that are open. -/
inductive Expectation where
  | value (stack : List Frame)
  | firstItem (stack : List Frame)
  | key (done : List (Member Tree)) (stack : List Frame)
  | colon (done : List (Member Tree)) (key : List CodeUnit) (stack : List Frame)
  | after (v : Tree) (stack : List Frame)

namespace Expectation

def beginValue (stack : List Frame) : Token → Option Expectation
  | .null => some (after .null stack)
  | .bool b => some (after (.bool b) stack)
  | .number n => some (after (.number n) stack)
  | .string s => some (after (.string s) stack)
  | .openArray => some (firstItem stack)
  | .openObject => some (key [] stack)
  | _ => none

def step : Expectation → Token → Option Expectation
  | value stack, t => beginValue stack t
  | firstItem stack, .closeArray => some (after (.array []) stack)
  | firstItem stack, t => beginValue (.items [] :: stack) t
  | key [] stack, .closeObject => some (after (.object []) stack)
  | key done stack, .string s => some (colon done s stack)
  | colon done k stack, .colon => some (value (.members done k :: stack))
  | after v (.items done :: stack), .comma => some (value (.items (v :: done) :: stack))
  | after v (.items done :: stack), .closeArray => some (after (.array (v :: done).reverse) stack)
  | after v (.members done k :: stack), .comma => some (key (⟨k, v⟩ :: done) stack)
  | after v (.members done k :: stack), .closeObject => some (after (.object (⟨k, v⟩ :: done).reverse) stack)
  | _, _ => none

def result? : Expectation → Option Tree
  | after v [] => some v
  | _ => none

end Expectation

def isLead (n : Nat) : Bool := 0xd800 ≤ n && n < 0xdc00

def isTrail (n : Nat) : Bool := 0xdc00 ≤ n && n < 0xe000

/-- The characters of a string. There are none if half of a pair stands alone. -/
def chars? : List CodeUnit → Option (List Char)
  | [] => some []
  | .char c :: rest => (chars? rest).map (c :: ·)
  | .escaped n :: .escaped m :: rest =>
    if isLead n then
      if isTrail m then (chars? rest).map (Char.ofNat (0x10000 + 1024 * (n - 0xd800) + (m - 0xdc00)) :: ·) else none
    else if isTrail n then none
    else (chars? (.escaped m :: rest)).map (Char.ofNat n :: ·)
  | .escaped n :: rest =>
    if isLead n || isTrail n then none else (chars? rest).map (Char.ofNat n :: ·)

def text? (s : List CodeUnit) : Option String := (chars? s).map String.ofList

namespace Tree

def parse? (s : String) : Option Tree := do
  let ts ← tokens? s.toList
  (← ts.foldlM Expectation.step (.value [])).result?

mutual

/-- Whether every number and string stands for something, and no more than `depth` arrays and objects are nested. -/
def isReadable : Nat → Tree → Bool
  | _, null => true
  | _, bool _ => true
  | _, number n => n.value?.isSome
  | _, string s => (text? s).isSome
  | 0, array _ => false
  | 0, object _ => false
  | depth + 1, array items => areReadable depth items
  | depth + 1, object members => membersAreReadable depth members

def areReadable : Nat → List Tree → Bool
  | _, [] => true
  | depth, v :: vs => isReadable depth v && areReadable depth vs

def membersAreReadable : Nat → List (Member Tree) → Bool
  | _, [] => true
  | depth, ⟨k, v⟩ :: ms => (text? k).isSome && isReadable depth v && membersAreReadable depth ms

end

def member? (members : List (Member Tree)) (key : String) : Option (Option Tree) :=
  match members.filter fun m ↦ text? m.key = some key with
  | [] => some none
  | [m] => some (some m.value)
  | _ => none

def nat? (bound : Nat) : Tree → Option Nat
  | number n =>
    match n.value? with
    | some (.integer n) => if 0 ≤ n ∧ n < bound then some n.toNat else none
    | _ => none
  | _ => none

def string? : Tree → Option String
  | string s => text? s
  | _ => none

def bool? : Tree → Option Bool
  | bool b => some b
  | _ => none

end Tree

end DisplayList.Json
