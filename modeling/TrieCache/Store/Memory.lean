import Std.Data.TreeMap
import TrieCache.Room
import TrieCache.Store
import TrieCache.Word

/-!
# Sparse memory

A store that never refuses.  It keeps only the blocks that were written; every other
byte reads as zero.  It counts the blocks that pass through it.
-/

namespace TrieCache

/-- A flat memory of bytes, kept by blocks. -/
structure Memory where
  blockSize : Nat
  blocks : Std.TreeMap Nat (Array UInt8) := {}
  fetches : Nat := 0
  writebacks : Nat := 0

namespace Memory

def blank (memory : Memory) : Checked (Array UInt8) :=
  allocate 1 memory.blockSize 0

def block (memory : Memory) (tag : Nat) : Checked (Array UInt8) :=
  match memory.blocks[tag]? with
  | some bytes => .ok bytes
  | none => memory.blank

def locate (memory : Memory) (address : UInt64) : Checked (Nat × Nat) := do
  let tag ← Word.div address.toNat memory.blockSize
  let offset ← Word.rem address.toNat memory.blockSize
  return (tag, offset)

/-- The byte at an address, without counting as a fetch. -/
def peek (memory : Memory) (address : UInt64) : Checked UInt8 := do
  let (tag, offset) ← memory.locate address
  match memory.blocks[tag]? with
  | none => return 0
  | some bytes =>
    match bytes[offset]? with
    | some byte => return byte
    | none => throw (.indexOutOfBounds bytes.size offset)

/-- Set the byte at an address, without counting as a writeback. -/
def poke (memory : Memory) (address : UInt64) (value : UInt8) : Checked Memory := do
  let (tag, offset) ← memory.locate address
  let bytes ← memory.block tag
  if offset < bytes.size then
    return { memory with blocks := memory.blocks.insert tag (bytes.setIfInBounds offset value) }
  else
    throw (.indexOutOfBounds bytes.size offset)

def fetch (memory : Memory) (tag : Nat) : Checked (Array UInt8 × Memory) := do
  let fetches ← Word.add 64 memory.fetches 1
  return (← memory.block tag, { memory with fetches })

def writeback (memory : Memory) (tag : Nat) (bytes : Array UInt8) : Checked Memory := do
  let writebacks ← Word.add 64 memory.writebacks 1
  return { memory with writebacks, blocks := memory.blocks.insert tag bytes }

end Memory

instance : BlockStore Memory where
  blockSize := Memory.blockSize
  fetch memory tag := do
    let (bytes, memory) ← memory.fetch tag
    return (.ok bytes, memory)
  writeback memory tag bytes := do
    return (.ok (), ← memory.writeback tag bytes)

end TrieCache
