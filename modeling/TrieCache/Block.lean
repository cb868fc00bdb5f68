import TrieCache.Room

/-!
# Blocks

A block is the unit of the pool.  It is a table of links to the next level, a run of
data bytes, or nothing yet.  A block is never freed: it is detached from its parent
and later built anew, possibly at another level and of another kind.
-/

namespace TrieCache

/-- A slot that may point at a block of the pool.  A cleared link keeps its target. -/
structure Link where
  valid : Bool := false
  target : Nat := 0
  deriving DecidableEq, Repr, Inhabited

inductive Payload
  | empty
  /-- Links to the blocks of the next level. -/
  | table (links : Array Link)
  /-- The bytes of a data block. -/
  | data (bytes : Array UInt8)
  deriving DecidableEq, Repr, Inhabited

namespace Link

def bytes : Nat := 16

end Link

namespace Payload

def blankTable (count : Nat) : Checked Payload := do
  return .table (← allocate Link.bytes count {})

def blankData (count : Nat) : Checked Payload := do
  return .data (← allocate 1 count 0)

end Payload

structure Block where
  valid : Bool := false
  /-- Some top entry or table points at the block. -/
  parentValid : Bool := false
  /-- A locked block is never taken as a victim. -/
  locked : Bool := false
  /-- The level the block was built for; zero before that. -/
  level : Nat := 0
  /-- The data differ from the copy in the store. -/
  dirty : Bool := false
  /-- How often walks passed the block since a sweep last aged it. -/
  reference : Nat := 0
  /-- Which block of the address space a data block holds. -/
  tag : Nat := 0
  /-- The top slot at level one, and the parent's place in the pool below it. -/
  parent : Nat := 0
  payload : Payload := .empty
  deriving DecidableEq, Repr, Inhabited

namespace Block

/-- The bytes that a block takes in the list of a pool, apart from what it holds.  Nothing but
the room for a pool hangs on their number. -/
def bytes : Nat := 64

/-- A built block that nothing points at. -/
def isOrphaned (block : Block) : Bool :=
  block.valid && !block.parentValid

/-- The links of a table; other blocks have none. -/
def links (block : Block) : Array Link :=
  match block.payload with
  | .table links => links
  | _ => #[]

def bytes? (block : Block) : Option (Array UInt8) :=
  match block.payload with
  | .data bytes => some bytes
  | _ => none

/-- The child a selector leads to, when its link is valid. -/
def child? (block : Block) (selector : Nat) : Option Nat :=
  match block.links[selector]? with
  | some link => if link.valid then some link.target else none
  | none => none

/-- The children of a table in slot order. -/
def children (block : Block) : List Nat :=
  (block.links.toList.filter Link.valid).map Link.target

/-- Count one more reference, up to the ceiling. -/
def touch (maxReference : Nat) (block : Block) : Block :=
  if block.reference < maxReference then { block with reference := block.reference + 1 } else block

/-- Replace the link in one slot of a table. -/
def setLink (selector : Nat) (link : Link) (block : Block) : Block :=
  match block.payload with
  | .table links => { block with payload := .table (links.setIfInBounds selector link) }
  | _ => block

/-- Clear the first valid link to a child. -/
def dropChild (child : Nat) (block : Block) : Block :=
  match block.links.findIdx? fun link => link.valid && link.target == child with
  | some slot => block.setLink slot { valid := false, target := child }
  | none => block

def mapBytes (change : Array UInt8 → Array UInt8) (block : Block) : Block :=
  match block.payload with
  | .data bytes => { block with payload := .data (change bytes) }
  | _ => block

def setByte (offset : Nat) (value : UInt8) (block : Block) : Block :=
  block.mapBytes fun bytes => bytes.setIfInBounds offset value

end Block

end TrieCache
