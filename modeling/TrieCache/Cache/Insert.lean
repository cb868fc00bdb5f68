import TrieCache.Cache.Replace
import TrieCache.Cache.Search

/-!
# Insertion

Installing a block after a miss.  The walk says how much of the path is there; the
missing levels are built top down, each in a block chosen by the clock.  The path the
new blocks hang under, and the new blocks themselves, are pinned until the data block
is in place.
-/

namespace TrieCache.Cache

/-- Where an insertion starts to build. -/
structure Attachment where
  /-- The first level to build. -/
  level : Nat
  /-- The block to hang it under; the top index if there is none. -/
  parent : Option Nat
  deriving DecidableEq, Repr

/-- Where to go on after a walk that missed.  A stale data block at the end of the
path is replaced under its own parent. -/
def attachment (cache : Cache) : Option Nat → Checked Attachment
  | none => .ok { level := 1, parent := none }
  | some anchor => do
    let block ← cache.pool.get anchor
    let depth := cache.layout.depth
    if depth ≤ block.level then
      return { level := depth, parent := if 1 < depth then some block.parent else none }
    else
      return { level := block.level + 1, parent := some anchor }

/-- A block and the blocks above it, at most the given number of them. -/
def lineage (cache : Cache) (index : Nat) : (levels : Nat) → Checked (List Nat)
  | 0 => .ok []
  | levels + 1 => do
    let block ← cache.pool.get index
    if 1 < block.level then
      return index :: (← cache.lineage block.parent levels)
    else
      return [index]

/-- The blocks that must survive an insertion from the start: the path it hangs under. -/
def pinnedBy (cache : Cache) (attachment : Attachment) : Checked (List Nat) :=
  match attachment.parent with
  | none => .ok []
  | some parent => cache.lineage parent cache.layout.depth

/-- Build one level in a victim of the clock. -/
def buildLevel (cache : Cache) (address : Address) (level : Nat) (parent : Option Nat)
    (pinned : List Nat) : Checked (Nat × Cache) := do
  let (victim, pool) ← cache.pool.selectVictim cache.config.maxAttempts.toNat pinned
  let cache := { cache with pool, stats := cache.stats.recordVictim victim.fallback }
  let cache ← cache.evict victim.index
  let cache ← cache.build victim.index level address parent
  return (victim.index, cache)

/-- Build the given number of levels, each under the one before.  The result lists
the blocks built, top down. -/
def buildPath (cache : Cache) (address : Address) (level : Nat) (parent : Option Nat)
    (pinned : List Nat) : (levels : Nat) → Checked (List Nat × Cache)
  | 0 => .ok ([], cache)
  | levels + 1 => do
    let (built, cache) ← cache.buildLevel address level parent pinned
    let (rest, cache) ←
      cache.buildPath address (level + 1) (some built) (built :: pinned) levels
    return (built :: rest, cache)

def checkAbsent (cache : Cache) (address : Address) (walk : Walk) (tag : Nat) : Checked Unit := do
  require (!walk.isHit) (.alreadyCached address.toNat)
  require (!cache.fastPath.contains tag) (.alreadyOnFastPath address.toNat)

/-- Build the missing path to a block and put bytes into it.  The result lists the
blocks built, the data block last. -/
def installPath (cache : Cache) (address : Address)
    (content : (offset : Nat) → Array UInt8 → Array UInt8) : Checked (List Nat × Cache) := do
  cache.checkAddress address
  let tag ← cache.layout.tag address
  let (walk, cache) ← cache.search address
  cache.checkAbsent address walk tag
  let attachment ← cache.attachment walk.anchor
  let pinned ← cache.pinnedBy attachment
  let (built, cache) ←
    cache.buildPath address attachment.level attachment.parent pinned
      (cache.layout.depth + 1 - attachment.level)
  match built.getLast? with
  | none => throw .nothingBuilt
  | some leaf =>
    let offset ← cache.layout.offset address
    let cache ← cache.updateBlock leaf fun block => { block.mapBytes (content offset) with tag }
    let cache ← cache.installFastPath tag leaf
    return (built, cache.record (Stats.recordInsertion · built.length))

/-- Build the missing path to a block.  The result is the data block. -/
def install (cache : Cache) (address : Address)
    (content : (offset : Nat) → Array UInt8 → Array UInt8) : Checked (Nat × Cache) := do
  let (built, cache) ← cache.installPath address content
  return (built.getLast?.getD 0, cache)

/-- Insert a block of zeros with one byte set. -/
def insert (cache : Cache) (address : Address) (value : UInt8) : Checked (Nat × Cache) :=
  cache.install address fun offset bytes => bytes.setIfInBounds offset value

/-- Insert a whole block as the store holds it. -/
def fill (cache : Cache) (address : Address) (block : Array UInt8) : Checked (Nat × Cache) := do
  let size ← cache.layout.blockSize
  require (decide (block.size = size)) (.partialFill address.toNat block.size size)
  cache.install address fun _ _ => block

end TrieCache.Cache
