import DisplayList.Columns

namespace DisplayList

structure Chunk where
  columns : Columns
  isLast : Bool
  length : Nat

structure Transfer where
  owner : Option String
  bytes : ByteArray

structure Message where
  chunk : Chunk
  size : Nat
  transfers : List Transfer

structure Snapshot where
  columns : Columns := {}
  length : Nat := 0

namespace Snapshot

def append (s : Snapshot) (c : Chunk) : Snapshot := ⟨s.columns ++ c.columns, s.length + c.length⟩

/-- Joins chunks up to the last one. There is nothing to give if the last one is missing. -/
def collectFrom (s : Snapshot) : List Message → Option Snapshot
  | [] => none
  | m :: ms => if m.chunk.isLast then some (s.append m.chunk) else collectFrom (s.append m.chunk) ms

def collect (ms : List Message) : Option Snapshot := collectFrom {} ms

end Snapshot

def Tag.handsOver (t : Tag) : Bool :=
  t = paintInlineImage || t = paintInlineImageGroup || t = paintImageMask

/-- The buffer that an instruction gives away. Samples that a cache keeps stay where they are. -/
def Instruction.transfer? (i : Instruction) : Option Transfer :=
  if i.tag.handsOver then
    match firstImage? i.args with
    | some r => if r.image.cached then none else some ⟨r.id, r.image.data⟩
    | none => none
  else none

def Columns.transfers (c : Columns) : List Transfer := c.toList.filterMap Instruction.transfer?

end DisplayList
