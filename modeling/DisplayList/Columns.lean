import DisplayList.Argument
import DisplayList.Tag

/-!
A sequence of instructions, held as two columns.

The tags stand in one array and the argument lists in another, at the same indices. `toList` is the sequence that the
columns stand for, and each edit of the columns is the edit of that sequence that its name says, as long as they are
`Aligned`, which every edit preserves.
-/

namespace DisplayList

structure Instruction where
  tag : Tag
  args : List Arg

structure Columns where
  tags : Array Tag := #[]
  args : Array (List Arg) := #[]

/-- The edit of `xs` that keeps, of the entries from `start` to `stop`, those at the offsets that `keep` holds of. -/
def retainBetween {α : Type} (xs : Array α) (start stop : Nat) (keep : Nat → Bool) : Array α :=
  xs.extract 0 start ++
    (xs.extract start stop).zipIdx.filterMap (fun p ↦ if keep p.2 then some p.1 else none) ++
    xs.extract stop xs.size

def replaceBetween {α : Type} (xs : Array α) (start stop : Nat) (x : α) : Array α :=
  (xs.extract 0 start).push x ++ xs.extract stop xs.size

namespace Columns

def empty : Columns := {}

def size (c : Columns) : Nat := c.tags.size

def isEmpty (c : Columns) : Bool := c.size = 0

def Aligned (c : Columns) : Prop := c.tags.size = c.args.size

instance (c : Columns) : Decidable c.Aligned := inferInstanceAs (Decidable (_ = _))

def toList (c : Columns) : List Instruction :=
  c.tags.toList.zipWith Instruction.mk c.args.toList

def push (c : Columns) (tag : Tag) (args : List Arg) : Columns :=
  ⟨c.tags.push tag, c.args.push args⟩

def ofList (is : List Instruction) : Columns :=
  ⟨(is.map (·.tag)).toArray, (is.map (·.args)).toArray⟩

def append (c d : Columns) : Columns := ⟨c.tags ++ d.tags, c.args ++ d.args⟩

instance : Append Columns := ⟨append⟩

def replace (c : Columns) (start stop : Nat) (tag : Tag) (args : List Arg) : Columns :=
  ⟨replaceBetween c.tags start stop tag, replaceBetween c.args start stop args⟩

def retain (c : Columns) (start stop : Nat) (keep : Nat → Bool) : Columns :=
  ⟨retainBetween c.tags start stop keep, retainBetween c.args start stop keep⟩

def retag (c : Columns) (i : Nat) (tag : Tag) : Columns := { c with tags := c.tags.setIfInBounds i tag }

end Columns

end DisplayList
