import TrieCache.Store.Memory

/-!
# Unreliable memory

A memory with blocks that cannot be fetched, blocks that cannot be written back, and
blocks that are handed out at the wrong length.  A refusal leaves the memory as it was.
-/

namespace TrieCache

structure FlakyMemory where
  memory : Memory
  unfetchable : List Nat := []
  unwritable : List Nat := []
  resized : List (Nat × Nat) := []

namespace FlakyMemory

/-- Cut bytes off, or append zeros, to reach a length. -/
def resize (bytes : Array UInt8) (length : Nat) : Checked (Array UInt8) := do
  requireRoom 1 length
  return bytes.take length ++ Array.replicate (length - bytes.size) 0

def fetch (flaky : FlakyMemory) (tag : Nat) :
    Checked (StoreReply (Array UInt8) × FlakyMemory) := do
  if flaky.unfetchable.contains tag then
    return (.error (.fetchRefused tag), flaky)
  else
    let (bytes, memory) ← flaky.memory.fetch tag
    let bytes ←
      match flaky.resized.lookup tag with
      | some length => resize bytes length
      | none => .ok bytes
    return (.ok bytes, { flaky with memory })

def writeback (flaky : FlakyMemory) (tag : Nat) (bytes : Array UInt8) :
    Checked (StoreReply Unit × FlakyMemory) := do
  if flaky.unwritable.contains tag then
    return (.error (.writebackRefused tag), flaky)
  else
    let memory ← flaky.memory.writeback tag bytes
    return (.ok (), { flaky with memory })

end FlakyMemory

instance : BlockStore FlakyMemory where
  blockSize flaky := flaky.memory.blockSize
  fetch := FlakyMemory.fetch
  writeback := FlakyMemory.writeback

end TrieCache
