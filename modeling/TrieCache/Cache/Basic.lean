import TrieCache.Clock
import TrieCache.FastPath
import TrieCache.Layout
import TrieCache.Stats
import TrieCache.TopIndex

/-!
# The cache

A fully associative cache whose tags live in a trie of tables.  The tables and the
data blocks share one pool, recycled by a clock.  This module holds the state of a
cache and the small changes that its operations are built from.
-/

namespace TrieCache

inductive Access
  | read
  | write (value : UInt8)
  deriving DecidableEq, Repr

/-- A changed data block on its way to the store. -/
structure Writeback where
  tag : Nat
  bytes : Array UInt8
  deriving DecidableEq, Repr

structure Cache where
  config : Config
  layout : Layout
  pool : Pool
  top : TopIndex
  fastPath : FastPath
  /-- Blocks waiting for the store, oldest first. -/
  writebacks : Array Writeback := #[]
  stats : Stats := {}

namespace Cache

def ofConfig (config : Config) : Checked Cache := do
  config.ensureValid
  let layout ← Layout.ofConfig config
  let pool ← Pool.ofCapacity (← config.capacity)
  let top ← TopIndex.ofSize (← config.topEntries)
  let fastPath ← FastPath.ofCapacity config.fastPathSize.toNat
  return { config, layout, pool, top, fastPath }

def cursor (cache : Cache) : Nat :=
  cache.pool.hand

def maxReference (cache : Cache) : Nat :=
  cache.config.maxReference.toNat

def checkAddress (cache : Cache) (address : Address) : Checked Unit :=
  require (cache.layout.contains address)
    (.addressOutOfRange address.toNat cache.config.addressBits.toNat)

def updateBlock (cache : Cache) (index : Nat) (change : Block → Block) : Checked Cache :=
  if index < cache.pool.capacity then .ok { cache with pool := cache.pool.modify index change }
  else .error (cache.pool.missing index)

/-- Keep a block out of replacement, or release it. -/
def setLocked (cache : Cache) (index : Nat) (locked : Bool) : Checked Cache :=
  cache.updateBlock index fun block => { block with locked }

def record (cache : Cache) (change : Stats → Stats) : Cache :=
  { cache with stats := change cache.stats }

def queueWriteback (cache : Cache) (tag : Nat) (bytes : Array UInt8) : Cache :=
  { cache with
    writebacks := cache.writebacks.push { tag, bytes }
    stats := cache.stats.recordWriteback }

def installFastPath (cache : Cache) (tag index : Nat) : Checked Cache := do
  let (evicted, fastPath) ← cache.fastPath.insert tag index
  let cache := { cache with fastPath }
  return if evicted.isSome then cache.record Stats.recordFastPathEviction else cache

end Cache

end TrieCache
