import DisplayList.Columns

namespace DisplayList

inductive Fault where
  | outOfRange
  | belowZero
  | overflow
  /-- Batching left as much to do as there was before it. -/
  | noProgress
  deriving DecidableEq

def Fault.message : Fault → String
  | outOfRange => "range out of bounds"
  | belowZero => "difference below zero"
  | overflow => "capacity overflow"
  | noProgress => "no progress"

def distance (low high : Nat) : Except Fault Nat :=
  if low ≤ high then .ok (high - low) else .error .belowZero

/-- The sum, if it is one of the `size` numbers that a word holds. -/
def sumIn (size a b : Nat) : Except Fault Nat :=
  if a + b < size then .ok (a + b) else .error .overflow

def productIn (size a b : Nat) : Except Fault Nat :=
  if a * b < size then .ok (a * b) else .error .overflow

/-- A buffer of `n` bytes. None takes up half of the addresses that there are. -/
def allocate (byte : UInt8) (n : Nat) : Except Fault ByteArray :=
  if n < UInt64.size / 2 then .ok (filled byte n) else .error .overflow

def slice (b : ByteArray) (start length : Nat) : Except Fault ByteArray :=
  if start + length ≤ b.size then .ok (b.extract start (start + length)) else .error .outOfRange

def overwrite (b : ByteArray) (start : Nat) (piece : ByteArray) : Except Fault ByteArray :=
  if start + piece.size ≤ b.size then .ok (piece.copySlice 0 b start piece.size) else .error .outOfRange

def copyWithin (b : ByteArray) (start length target : Nat) : Except Fault ByteArray := do
  overwrite b target (← slice b start length)

namespace Columns

def tagAt (c : Columns) (i : Nat) : Except Fault Tag :=
  if h : i < c.tags.size then .ok c.tags[i] else .error .outOfRange

def argsAt (c : Columns) (i : Nat) : Except Fault (List Arg) :=
  if h : i < c.args.size then .ok c.args[i] else .error .outOfRange

def Holds (c : Columns) (start stop : Nat) : Prop :=
  start ≤ stop ∧ stop ≤ c.tags.size ∧ stop ≤ c.args.size

instance (c : Columns) (start stop : Nat) : Decidable (c.Holds start stop) :=
  inferInstanceAs (Decidable (_ ∧ _))

def replaceIn (c : Columns) (start stop : Nat) (tag : Tag) (args : List Arg) : Except Fault Columns :=
  if c.Holds start stop then .ok (c.replace start stop tag args) else .error .outOfRange

def retainIn (c : Columns) (start stop : Nat) (keep : Nat → Bool) : Except Fault Columns :=
  if c.Holds start stop then .ok (c.retain start stop keep) else .error .outOfRange

def retagAt (c : Columns) (i : Nat) (tag : Tag) : Except Fault Columns :=
  if i < c.tags.size then .ok (c.retag i tag) else .error .outOfRange

end Columns

end DisplayList
