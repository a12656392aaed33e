import DisplayList.Chunk

namespace DisplayList

structure Assembler where
  snapshot : Snapshot := {}
  chunks : Nat := 0
  transfers : Nat := 0
  isComplete : Bool := false

namespace Assembler

def enqueue (a : Assembler) (m : Message) : Assembler where
  snapshot := a.snapshot.append m.chunk
  chunks := a.chunks + 1
  transfers := a.transfers + m.transfers.length
  isComplete := m.chunk.isLast

def take (a : Assembler) : Snapshot × Assembler := (a.snapshot, { a with snapshot := {} })

end Assembler

end DisplayList
