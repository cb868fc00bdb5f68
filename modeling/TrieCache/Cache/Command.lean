import TrieCache.Cache.Access
import TrieCache.Cache.Insert
import TrieCache.Cache.Writeback

/-!
# Commands

The public operations of a cache as data, so that runs are lists of them.
-/

namespace TrieCache.Cache

inductive Command
  | access (address : Address) (access : Access)
  | read (address : Address)
  | write (address : Address) (value : UInt8)
  | insert (address : Address) (value : UInt8)
  | fill (address : Address) (block : Array UInt8)
  | search (address : Address)
  | setLocked (index : Nat) (locked : Bool)
  | drain
  | flush
  | retire (address : Address)
  deriving DecidableEq, Repr

inductive Reply
  | byte (value : Option UInt8)
  | written (cached : Bool)
  | index (value : Nat)
  | walk (value : Walk)
  | done
  | drained (blocks : Array Writeback)
  | count (value : Nat)
  deriving DecidableEq, Repr

def run (cache : Cache) : Command → Checked (Reply × Cache)
  | .access address access => do
    let (byte, cache) ← cache.access address access
    return (.byte byte, cache)
  | .read address => do
    let (byte, cache) ← cache.read address
    return (.byte byte, cache)
  | .write address value => do
    let (cached, cache) ← cache.write address value
    return (.written cached, cache)
  | .insert address value => do
    let (index, cache) ← cache.insert address value
    return (.index index, cache)
  | .fill address block => do
    let (index, cache) ← cache.fill address block
    return (.index index, cache)
  | .search address => do
    let (walk, cache) ← cache.search address
    return (.walk walk, cache)
  | .setLocked index locked => do
    return (.done, ← cache.setLocked index locked)
  | .drain =>
    let (blocks, cache) := cache.drainWritebacks
    .ok (.drained blocks, cache)
  | .flush =>
    let (flushed, cache) := cache.flushDirty
    .ok (.count flushed, cache)
  | .retire address => do
    let (retired, cache) ← cache.retireStale address
    return (.count retired, cache)

def runAll (cache : Cache) : List Command → Checked (List Reply × Cache)
  | [] => .ok ([], cache)
  | command :: commands => do
    let (reply, cache) ← cache.run command
    let (replies, cache) ← cache.runAll commands
    return (reply :: replies, cache)

end TrieCache.Cache
