import TrieCache.Cache.Access
import TrieCache.Cache.Insert
import TrieCache.Cache.Writeback
import TrieCache.Store

/-!
# Cache before a store

A cache whose misses are served by a store.  A miss first publishes the changed copies
of the block that no access can reach any more, then fetches the block, fills it in and
tries again; every changed block pushed out on the way goes straight to the store.

An operation that the store refuses ends with an error and leaves cache and store as
they are at that point.  Blocks behind the refused one in the queue are lost.
-/

namespace TrieCache

/-- Why an access to a backed cache failed. -/
inductive BackedError
  | store (error : StoreError)
  /-- The byte of a block that was just filled in could not be found. -/
  | missedAfterFill (address : Nat)
  deriving DecidableEq, Repr

def BackedError.message : BackedError → String
  | .store error => error.message
  | .missedAfterFill address =>
    s!"access to {Hexadecimal.literal address} missed right after fill"

structure BackedCache (σ : Type) where
  cache : Cache
  store : σ

abbrev BackedReply (α : Type) := Except BackedError α

namespace BackedCache

variable {σ : Type} [BlockStore σ]

/-- Put a cache before a store of the same block size. -/
def ofCache (cache : Cache) (store : σ) : Checked (BackedCache σ) := do
  let blockSize ← cache.layout.blockSize
  require (decide (blockSize = BlockStore.blockSize store))
    (.blockSizeMismatch blockSize (BlockStore.blockSize store))
  return { cache, store }

/-- Send blocks to the store in turn, up to the first that it refuses. -/
def sendAll (store : σ) : List Writeback → Checked (StoreReply Unit × σ)
  | [] => .ok (.ok (), store)
  | block :: blocks => do
    let (outcome, store) ← BlockStore.writebackBlock store block.tag block.bytes
    match outcome with
    | .error error => return (.error error, store)
    | .ok () => sendAll store blocks

def drain (backed : BackedCache σ) : Checked (BackedReply Unit × BackedCache σ) := do
  let (queued, cache) := backed.cache.drainWritebacks
  let (outcome, store) ← sendAll backed.store queued.toList
  return (outcome.mapError .store, { cache, store })

/-- Fetch the block of an address and fill it in. -/
def refill (backed : BackedCache σ) (address : Address) :
    Checked (BackedReply Unit × BackedCache σ) := do
  let tag ← backed.cache.layout.tag address
  let (outcome, store) ← BlockStore.fetchBlock backed.store tag
  match outcome with
  | .error error => return (.error (.store error), { backed with store })
  | .ok bytes =>
    let (_, cache) ← backed.cache.fill address bytes
    drain { cache, store }

/-- Publish the unreachable copies of an address's block, then refill it. -/
def serveMiss (backed : BackedCache σ) (address : Address) :
    Checked (BackedReply Unit × BackedCache σ) := do
  let (_, cache) ← backed.cache.retireStale address
  let (outcome, backed) ← drain { backed with cache }
  match outcome with
  | .error error => return (.error error, backed)
  | .ok () => backed.refill address

/-- Read or write one byte.  The result says whether it was cached. -/
def access (backed : BackedCache σ) (address : Address) (access : Access) :
    Checked (BackedReply (UInt8 × Bool) × BackedCache σ) := do
  let (found, cache) ← backed.cache.access address access
  match found with
  | some byte => return (.ok (byte, true), { backed with cache })
  | none =>
    let (outcome, backed) ← serveMiss { backed with cache } address
    match outcome with
    | .error error => return (.error error, backed)
    | .ok () =>
      let (found, cache) ← backed.cache.access address access
      match found with
      | some byte => return (.ok (byte, false), { backed with cache })
      | none => return (.error (.missedAfterFill address.toNat), { backed with cache })

def read (backed : BackedCache σ) (address : Address) :
    Checked (BackedReply UInt8 × BackedCache σ) := do
  let (outcome, backed) ← backed.access address .read
  return (outcome.map Prod.fst, backed)

def write (backed : BackedCache σ) (address : Address) (value : UInt8) :
    Checked (BackedReply Unit × BackedCache σ) := do
  let (outcome, backed) ← backed.access address (.write value)
  return (outcome.map fun _ => (), backed)

/-- Send every changed block to the store.  The result is their number. -/
def flush (backed : BackedCache σ) : Checked (BackedReply Nat × BackedCache σ) := do
  let (flushed, cache) := backed.cache.flushDirty
  let (outcome, backed) ← drain { backed with cache }
  return (outcome.map fun _ => flushed, backed)

end BackedCache

end TrieCache
