import DisplayList.Tag

namespace DisplayList

structure Chunking where
  chunkSize : Nat := 1000
  /-- This close to `chunkSize`, it is flushed early where a scope closes. -/
  boundaryMargin : Nat := 5
  deriving DecidableEq

namespace Chunking

def nearMark (c : Chunking) : Nat := c.chunkSize - c.boundaryMargin

def isDue (c : Chunking) (weight : Nat) (tag : Tag) : Bool :=
  c.chunkSize ≤ weight || (c.nearMark ≤ weight && tag.closesScope)

end Chunking

end DisplayList
