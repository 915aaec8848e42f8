/-!
# Node identities

Every node of a type carries a number that links it to the text it came from. Numbers are handed
out by supplies. A supply counts through a range; when the range is used up it takes the next
block from a counter that all supplies share. A pinned supply starts at a chosen number and has
the rest of the 64-bit range for itself.
-/

namespace CoContextual

/-- The identity of a type node. -/
abbrev NodeId := Nat

namespace NodeId

/-- The largest 64-bit number. It ends the pinned ranges and is itself in none of them. -/
def limit : NodeId := UInt64.size - 1

/-- How many identities a supply takes from the shared counter at a time. -/
def blockSize : Nat := 1024

end NodeId

/-- A range of identities that are still unused. -/
structure IdSupply where
  /-- The next identity to hand out. -/
  next : NodeId
  /-- The first identity past the range. -/
  stop : NodeId
deriving DecidableEq

namespace IdSupply

/-- The supply that starts at `first` and does not touch the shared counter before `limit`. -/
def pinned (first : NodeId) : IdSupply := ⟨first, NodeId.limit⟩

/-- The supply of the block that starts at `start`. -/
def block (start : NodeId) : IdSupply := ⟨start, start + NodeId.blockSize⟩

/-- Whether the range is a pinned one. -/
def isPinned (s : IdSupply) : Bool := s.stop = NodeId.limit

end IdSupply

/-- A supply together with the shared counter it refills from. -/
structure IdSource where
  /-- The current range. -/
  supply : IdSupply
  /-- Where the next block starts. -/
  nextBlock : NodeId
deriving DecidableEq

namespace IdSource

/-- A pinned supply beside an untouched counter. -/
def pinnedAt (first : NodeId) : IdSource := ⟨.pinned first, 0⟩

/-- Makes sure that the range is not used up, by taking a block if it is. -/
def refill (s : IdSource) : IdSource :=
  if s.supply.next = s.supply.stop then
    ⟨.block s.nextBlock, s.nextBlock + NodeId.blockSize⟩
  else
    s

/-- Hands out the next identity. -/
def draw (s : IdSource) : NodeId × IdSource :=
  let s := s.refill
  (s.supply.next, { s with supply.next := s.supply.next + 1 })

end IdSource

/-- Computations that draw fresh identities. -/
abbrev Fresh := StateM IdSource

/-- A fresh identity. -/
def freshId : Fresh NodeId := IdSource.draw

/-- Several supplies that share one block counter. -/
structure IdPool where
  /-- The supplies, in the order in which they were opened. -/
  supplies : List IdSupply
  /-- Where the next block starts. -/
  nextBlock : NodeId
deriving DecidableEq

namespace IdPool

/-- No supplies, and no block taken. -/
def empty : IdPool := ⟨[], 0⟩

/-- Opens a supply that is pinned at `first`. -/
def openPinned (p : IdPool) (first : NodeId) : IdPool :=
  { p with supplies := p.supplies ++ [.pinned first] }

/-- Opens a supply that takes a block at once. -/
def openBlock (p : IdPool) : IdPool :=
  ⟨p.supplies ++ [.block p.nextBlock], p.nextBlock + NodeId.blockSize⟩

/-- Hands out the next identity of supply `i`, if there is such a supply. -/
def draw? (p : IdPool) (i : Nat) : Option (NodeId × IdPool) :=
  p.supplies[i]?.map fun supply =>
    let (id, source) := IdSource.draw ⟨supply, p.nextBlock⟩
    (id, ⟨p.supplies.set i source.supply, source.nextBlock⟩)

end IdPool

end CoContextual
