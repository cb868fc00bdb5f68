import TrieCache.Word

/-!
# Statistics

Counters of what a cache did.  A counter that reaches the largest 64-bit word stays
there.
-/

namespace TrieCache

structure Stats where
  accesses : Nat := 0
  hits : Nat := 0
  misses : Nat := 0
  fastPathHits : Nat := 0
  slowPathHits : Nat := 0
  insertions : Nat := 0
  blocksBuilt : Nat := 0
  immediateVictims : Nat := 0
  fallbackVictims : Nat := 0
  orphanedChildren : Nat := 0
  leafEvictions : Nat := 0
  /-- Blocks queued for the store by eviction, flush or retirement. -/
  writebacks : Nat := 0
  fastPathEvictions : Nat := 0
  deriving DecidableEq, Repr

namespace Stats

def bump (count : Nat) : Nat := Word.saturatingAdd count 1

def recordAccess (stats : Stats) : Stats :=
  { stats with accesses := bump stats.accesses }

def recordFastPathHit (stats : Stats) : Stats :=
  { stats with hits := bump stats.hits, fastPathHits := bump stats.fastPathHits }

def recordSlowPathHit (stats : Stats) : Stats :=
  { stats with hits := bump stats.hits, slowPathHits := bump stats.slowPathHits }

def recordMiss (stats : Stats) : Stats :=
  { stats with misses := bump stats.misses }

/-- An insertion that built the given number of blocks. -/
def recordInsertion (stats : Stats) (built : Nat) : Stats :=
  { stats with
    insertions := bump stats.insertions
    blocksBuilt := Word.saturatingAdd stats.blocksBuilt built }

def recordVictim (stats : Stats) (fallback : Bool) : Stats :=
  if fallback then { stats with fallbackVictims := bump stats.fallbackVictims }
  else { stats with immediateVictims := bump stats.immediateVictims }

def recordOrphans (stats : Stats) (count : Nat) : Stats :=
  { stats with orphanedChildren := Word.saturatingAdd stats.orphanedChildren count }

def recordLeafEviction (stats : Stats) : Stats :=
  { stats with leafEvictions := bump stats.leafEvictions }

def recordWriteback (stats : Stats) : Stats :=
  { stats with writebacks := bump stats.writebacks }

def recordFastPathEviction (stats : Stats) : Stats :=
  { stats with fastPathEvictions := bump stats.fastPathEvictions }

/-- The counters with their names, in reporting order. -/
def toList (stats : Stats) : List (String × Nat) :=
  [("accesses", stats.accesses), ("hits", stats.hits), ("misses", stats.misses),
    ("fast_path_hits", stats.fastPathHits), ("slow_path_hits", stats.slowPathHits),
    ("insertions", stats.insertions), ("nodes_built", stats.blocksBuilt),
    ("immediate_victims", stats.immediateVictims), ("fallback_victims", stats.fallbackVictims),
    ("orphaned_children", stats.orphanedChildren), ("leaf_evictions", stats.leafEvictions),
    ("writebacks", stats.writebacks), ("fast_path_evictions", stats.fastPathEvictions)]

end Stats

end TrieCache
