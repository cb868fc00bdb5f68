import TrieCache.Backed

/-!
# Commands for a backed cache

The operations of a backed cache as data, so that runs are lists of them.  A run goes on
after an error of the store and ends at a fault.
-/

namespace TrieCache.BackedCache

variable {σ : Type} [BlockStore σ]

inductive Command
  | access (address : Address) (access : Access)
  | read (address : Address)
  | write (address : Address) (value : UInt8)
  | flush
  | setLocked (index : Nat) (locked : Bool)
  deriving DecidableEq, Repr

/-- What an operation answers when the store serves it. -/
inductive Reply
  | byte (value : UInt8) (hit : Bool)
  | read (value : UInt8)
  | count (value : Nat)
  | done
  deriving DecidableEq, Repr

def run (backed : BackedCache σ) : Command → Checked (BackedReply Reply × BackedCache σ)
  | .access address access => do
    let (outcome, backed) ← backed.access address access
    return (outcome.map fun (byte, hit) => .byte byte hit, backed)
  | .read address => do
    let (outcome, backed) ← backed.read address
    return (outcome.map .read, backed)
  | .write address value => do
    let (outcome, backed) ← backed.write address value
    return (outcome.map fun _ => .done, backed)
  | .flush => do
    let (outcome, backed) ← backed.flush
    return (outcome.map .count, backed)
  | .setLocked index locked => do
    let cache ← backed.cache.setLocked index locked
    return (.ok .done, { backed with cache })

def runAll (backed : BackedCache σ) :
    List Command → Checked (List (BackedReply Reply) × BackedCache σ)
  | [] => .ok ([], backed)
  | command :: commands => do
    let (reply, backed) ← backed.run command
    let (replies, backed) ← backed.runAll commands
    return (reply :: replies, backed)

end TrieCache.BackedCache
