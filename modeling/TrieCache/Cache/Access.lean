import TrieCache.Cache.Search

/-!
# Access

Reading and writing one cached byte.  The walk always runs, so that reference counts
stay current, but an entry of the fast path wins over whatever the walk found.
-/

namespace TrieCache.Cache

/-- Find the data block for an access, and count how it was found. -/
def resolve (cache : Cache) (address : Address) : Checked (Option Nat × Cache) := do
  let (walk, cache) ← cache.search address
  let tag ← cache.layout.tag address
  match cache.fastPath.lookup tag with
  | some index => return (some index, cache.record Stats.recordFastPathHit)
  | none =>
    match walk with
    | .hit index =>
      let cache ← (cache.record Stats.recordSlowPathHit).installFastPath tag index
      return (some index, cache)
    | .miss _ => return (none, cache.record Stats.recordMiss)

/-- Perform an access on one byte of a data block. -/
def perform (cache : Cache) (index offset : Nat) (access : Access) : Checked (UInt8 × Cache) := do
  let block ← cache.pool.get index
  match block.bytes? with
  | none => throw .noData
  | some bytes =>
    match bytes[offset]? with
    | none => throw (.indexOutOfBounds bytes.size offset)
    | some byte =>
      match access with
      | .read => return (byte, cache)
      | .write value =>
        let cache ← cache.updateBlock index fun block =>
          { block.setByte offset value with dirty := true }
        return (value, cache)

/-- Look an address up and read or write its byte.  The result is the byte read or
written, or nothing on a miss. -/
def access (cache : Cache) (address : Address) (access : Access) :
    Checked (Option UInt8 × Cache) := do
  cache.checkAddress address
  let (found, cache) ← (cache.record Stats.recordAccess).resolve address
  match found with
  | none => return (none, cache)
  | some index =>
    let offset ← cache.layout.offset address
    let (byte, cache) ← cache.perform index offset access
    return (some byte, cache)

def read (cache : Cache) (address : Address) : Checked (Option UInt8 × Cache) :=
  cache.access address .read

/-- Write a byte; the result says whether it was cached. -/
def write (cache : Cache) (address : Address) (value : UInt8) : Checked (Bool × Cache) := do
  let (found, cache) ← cache.access address (.write value)
  return (found.isSome, cache)

end TrieCache.Cache
