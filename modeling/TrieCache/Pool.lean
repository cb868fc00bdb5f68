import TrieCache.Block
import TrieCache.Fault

/-!
# The pool

A fixed number of blocks that back every table and every data block of a cache, and
the hand of the replacement clock that sweeps over them.
-/

namespace TrieCache

/-- All blocks of a cache, and where the next sweep starts. -/
structure Pool where
  blocks : Array Block
  /-- The next block a sweep examines. -/
  hand : Nat := 0
  deriving DecidableEq, Repr

namespace Pool

/-- A pool of blocks that were never built. -/
def ofCapacity (capacity : Nat) : Checked Pool := do
  return { blocks := ← allocate Block.bytes capacity {} }

def capacity (pool : Pool) : Nat :=
  pool.blocks.size

/-- A pool is refused where it has no room, and for no other reason. -/
theorem ofCapacity_cases (capacity : Nat) :
    ofCapacity capacity = .ok { blocks := Array.replicate capacity {} } ∨
      ofCapacity capacity = .error .noRoom := by
  unfold ofCapacity
  by_cases room : Block.bytes * capacity < 2 ^ (63 : Nat)
  · rw [allocate_eq_ok_iff.mpr ⟨room, rfl⟩]
    exact .inl rfl
  · rw [allocate_of_crowd (Nat.le_of_not_lt room)]
    exact .inr rfl

theorem eq_of_ofCapacity {capacity : Nat} {pool : Pool} (made : ofCapacity capacity = .ok pool) :
    pool = { blocks := Array.replicate capacity {} } := by
  rcases ofCapacity_cases capacity with fresh | refused
  · exact Except.ok.inj (made.symm.trans fresh)
  · cases made.symm.trans refused

/-- The fault of asking for a block that is not there. -/
def missing (pool : Pool) (index : Nat) : Fault :=
  .indexOutOfBounds pool.capacity index

def get (pool : Pool) (index : Nat) : Checked Block :=
  match pool.blocks[index]? with
  | some block => .ok block
  | none => .error (pool.missing index)

theorem get_eq_ok_iff {pool : Pool} {index : Nat} {block : Block} :
    pool.get index = .ok block ↔ pool.blocks[index]? = some block := by
  unfold get
  split <;> simp_all

/-- Change one block; indices past the end change nothing. -/
def modify (pool : Pool) (index : Nat) (change : Block → Block) : Pool :=
  { pool with blocks := pool.blocks.modify index change }

@[simp]
theorem capacity_modify (pool : Pool) (index : Nat) (change : Block → Block) :
    (pool.modify index change).capacity = pool.capacity :=
  Array.size_modify

theorem blocks_modify (pool : Pool) (index other : Nat) (change : Block → Block) :
    (pool.modify index change).blocks[other]? =
      if index = other then pool.blocks[other]?.map change else pool.blocks[other]? :=
  Array.getElem?_modify

def update (pool : Pool) (index : Nat) (change : Block → Block) : Checked Pool :=
  if index < pool.capacity then .ok (pool.modify index change)
  else .error (pool.missing index)

def setLocked (pool : Pool) (index : Nat) (locked : Bool) : Checked Pool :=
  pool.update index fun block => { block with locked }

/-- Replace the link in one slot of a table that must have it. -/
def setLink (pool : Pool) (index slot : Nat) (link : Link) : Checked Pool := do
  let block ← pool.get index
  if slot < block.links.size then return pool.modify index (Block.setLink slot link)
  else throw (.indexOutOfBounds block.links.size slot)

/-- Replace one byte of a data block that must have it.  The result says whether the
block holds data at all. -/
def setByte (pool : Pool) (index offset : Nat) (value : UInt8) : Checked (Bool × Pool) := do
  let block ← pool.get index
  match block.bytes? with
  | none => return (false, pool)
  | some bytes =>
    if offset < bytes.size then return (true, pool.modify index (Block.setByte offset value))
    else throw (.indexOutOfBounds bytes.size offset)

def built (pool : Pool) : List Nat :=
  (List.range pool.capacity).filter fun index => pool.blocks[index]?.any Block.valid

end Pool

end TrieCache
