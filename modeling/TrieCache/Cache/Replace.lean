import TrieCache.Cache.Basic

/-!
# Replacement

Taking a victim out of the structure and building it anew.  Eviction detaches
exactly one block.  Its children lose their parent but keep everything below them;
they are found by later sweeps.
-/

namespace TrieCache.Cache

def unlink (cache : Cache) (index : Nat) : Checked Cache := do
  let block ← cache.pool.get index
  if block.level = 1 then
    let entry ← cache.top.get block.parent
    if entry.valid ∧ entry.target = index then
      return { cache with top := cache.top.set block.parent { entry with valid := false } }
    else
      return cache
  else
    cache.updateBlock block.parent (Block.dropChild index)

def orphan (cache : Cache) : List Nat → Checked Cache
  | [] => .ok cache
  | index :: rest => do
    let cache ← cache.updateBlock index fun block => { block with parentValid := false }
    cache.orphan rest

/-- Empty a data block: queue its bytes if they changed and drop its fast-path entry. -/
def retireData (cache : Cache) (index : Nat) : Checked Cache := do
  let block ← cache.pool.get index
  let cache :=
    if block.dirty then cache.queueWriteback block.tag (block.bytes?.getD #[]) else cache
  let cache ← cache.updateBlock index fun block => { block with tag := 0, dirty := false }
  let cache :=
    if cache.fastPath.lookup block.tag = some index then
      { cache with fastPath := (cache.fastPath.remove block.tag).2 }
    else cache
  return cache.record Stats.recordLeafEviction

def retireTable (cache : Cache) (index : Nat) : Checked Cache := do
  let block ← cache.pool.get index
  let cache ← cache.orphan block.children
  return cache.record (Stats.recordOrphans · block.children.length)

/-- Detach what a block held from the rest of the cache. -/
def evict (cache : Cache) (index : Nat) : Checked Cache := do
  let block ← cache.pool.get index
  if block.valid ∧ block.level ≠ 0 then
    let cache ← if block.parentValid then cache.unlink index else .ok cache
    if block.level = cache.layout.depth then cache.retireData index
    else cache.retireTable index
  else
    return cache

/-- What a block of a level holds at first: zero bytes at the last level, no children
above it. -/
def freshPayload (cache : Cache) (level : Nat) : Checked Payload := do
  if level = cache.layout.depth then
    Payload.blankData (← cache.layout.blockSize)
  else
    Payload.blankTable (← cache.layout.branching)

/-- Hang a block into the slot of the top index that covers an address.  The result
is the slot's former entry. -/
def hangFromTop (cache : Cache) (index : Nat) (address : Address) : Checked (Link × Cache) := do
  let slot ← cache.layout.topIndex address
  let former ← cache.top.get slot
  let cache := { cache with top := cache.top.set slot { valid := true, target := index } }
  let cache ← cache.updateBlock index fun block => { block with parent := slot }
  return (former, cache)

/-- Hang a block into the slot of its parent that leads to an address.  The result is
the slot's former link. -/
def hangFromTable (cache : Cache) (index level : Nat) (address : Address) (parent : Nat) :
    Checked (Link × Cache) := do
  let selector ← cache.layout.selector address level
  let table ← cache.pool.get parent
  match table.links[selector]? with
  | none => throw (.indexOutOfBounds table.links.size selector)
  | some former =>
    let link : Link := { valid := true, target := index }
    let cache ← cache.updateBlock parent (Block.setLink selector link)
    let cache ← cache.updateBlock index fun block => { block with parent }
    return (former, cache)

/-- Build a block anew for a level and an address, and hang it under a parent, or
under the top index when there is none.  A block that hung there before loses its
parent. -/
def build (cache : Cache) (index level : Nat) (address : Address) (parent : Option Nat) :
    Checked Cache := do
  let payload ← cache.freshPayload level
  let cache ← cache.updateBlock index fun block =>
    { block with
      payload, level, valid := true, parentValid := true, reference := 1, dirty := false }
  let (former, cache) ←
    match parent with
    | none => cache.hangFromTop index address
    | some parent => cache.hangFromTable index level address parent
  if former.valid ∧ former.target ≠ index then
    let cache ← cache.orphan [former.target]
    return cache.record (Stats.recordOrphans · 1)
  else
    return cache

end TrieCache.Cache
