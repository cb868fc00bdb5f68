import TrieCache.Cache.Basic

/-!
# Writebacks

Changed data on its way to the store: handing out the queue, cleaning every block,
and cleaning the copies of one block that no access can reach any more.
-/

namespace TrieCache.Cache

/-- Hand out the queued blocks, oldest first. -/
def drainWritebacks (cache : Cache) : Array Writeback × Cache :=
  (cache.writebacks, { cache with writebacks := #[] })

/-- Queue the bytes of a changed block and call it clean. -/
def clean (cache : Cache) (index : Nat) (block : Block) : Cache :=
  let cache :=
    match block.bytes? with
    | some bytes => cache.queueWriteback block.tag bytes
    | none => cache
  { cache with pool := cache.pool.modify index fun block => { block with dirty := false } }

def isLeaf (cache : Cache) (block : Block) : Bool :=
  block.valid && block.level == cache.layout.depth

/-- Clean one block if its data changed, and count it. -/
def flushBlock (cache : Cache) (flushed index : Nat) : Nat × Cache :=
  match cache.pool.blocks[index]? with
  | none => (flushed, cache)
  | some block =>
    if cache.isLeaf block && block.dirty then (flushed + 1, cache.clean index block)
    else (flushed, cache)

/-- Clean every changed data block.  The result is their number. -/
def flushDirty (cache : Cache) : Nat × Cache :=
  (List.range cache.pool.capacity).foldl
    (fun (flushed, cache) index => cache.flushBlock flushed index) (0, cache)

/-- Clean one copy of a block if it is not the one the fast path leads to, and count
it. -/
def retireBlock (cache : Cache) (tag : Nat) (live : Option Nat) (retired index : Nat) :
    Nat × Cache :=
  match cache.pool.blocks[index]? with
  | none => (retired, cache)
  | some block =>
    if live != some index && (cache.isLeaf block && block.tag == tag) then
      (retired + 1, if block.dirty then cache.clean index block else cache)
    else (retired, cache)

/-- Clean every copy of an address's block that the fast path does not lead to.  The
result is their number.  It runs before a block is fetched again after a miss, when
no walk leads to a copy either. -/
def retireStale (cache : Cache) (address : Address) : Checked (Nat × Cache) := do
  let tag ← cache.layout.tag address
  let live := cache.fastPath.lookup tag
  return (List.range cache.pool.capacity).foldl
    (fun (retired, cache) index => cache.retireBlock tag live retired index) (0, cache)

end TrieCache.Cache
