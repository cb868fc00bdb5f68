import TrieCache.Backed
import TrieCache.Cache.Integrity
import TrieCache.Trace

/-!
# Replay

Reading a list of addresses in turn and counting the misses.  A replay is seeded when a
miss inserts a block with a given byte at its address, and backed when a store serves it.
Both stop at the first address outside the address space.  A verified replay also checks
the structure of the cache after every address.
-/

namespace TrieCache

structure Report where
  misses : Nat := 0
  total : Nat := 0
  deriving DecidableEq, Repr

namespace Report

def count (report : Report) (hit : Bool) : Report :=
  { misses := if hit then report.misses else report.misses + 1, total := report.total + 1 }

def text (report : Report) : String :=
  s!"{report.misses}/{report.total}"

end Report

inductive ReplayError
  | outOfRange (address addressBits : Nat)
  /-- The cache in front of a store failed. -/
  | backed (error : BackedError)
  /-- The structure of the cache is wrong after an address. -/
  | flawed (address : Nat) (flaw : Flaw)
  deriving DecidableEq, Repr

def ReplayError.messages : ReplayError → List String
  | .outOfRange address addressBits =>
    [s!"trace address {Hexadecimal.literal address} outside the {addressBits}-bit address space"]
  | .backed error => [error.message]
  | .flawed address flaw =>
    [s!"after access to {Hexadecimal.literal address}", flaw.message]

abbrev ReplayReply (α : Type) := Except ReplayError α

namespace Replay

/-- Read an address.  The result says whether it was cached. -/
abbrev Step (σ : Type) := σ → Address → Checked (ReplayReply Bool × σ)

variable {σ : Type}

/-- The structure of a cache after an address, if it is to be verified. -/
def inspect (verify : Bool) (cache : Cache) (address : Address) : Checked (ReplayReply Unit) :=
  if verify then do
    return (← cache.checkStructure).mapError (.flawed address.toNat)
  else
    .ok (.ok ())

def visit (cacheOf : σ → Cache) (step : Step σ) (verify : Bool) (state : σ) (address : Address) :
    Checked (ReplayReply Bool × σ) := do
  let cache := cacheOf state
  if cache.layout.contains address then
    let (reply, state) ← step state address
    match reply with
    | .error error => return (.error error, state)
    | .ok hit => return ((← inspect verify (cacheOf state) address).map fun _ => hit, state)
  else
    return (.error (.outOfRange address.toNat cache.config.addressBits.toNat), state)

/-- Read addresses in turn, on top of what was counted before. -/
def visitAll (cacheOf : σ → Cache) (step : Step σ) (verify : Bool) (state : σ)
    (report : Report) : List Address → Checked (ReplayReply Report × σ)
  | [] => .ok (.ok report, state)
  | address :: rest => do
    let (reply, state) ← visit cacheOf step verify state address
    match reply with
    | .error error => return (.error error, state)
    | .ok hit => visitAll cacheOf step verify state (report.count hit) rest

end Replay

namespace Cache

/-- Read an address; a miss inserts a block with a byte at the address and reads it
again. -/
def readSeeded (cache : Cache) (fillValue : UInt8) (address : Address) :
    Checked (Bool × Cache) := do
  let (found, cache) ← cache.read address
  if found.isSome then
    return (true, cache)
  else
    let (_, cache) ← cache.insert address fillValue
    let (found, cache) ← cache.read address
    require (found == some fillValue) (.rereadMismatch address.toNat found fillValue)
    return (false, cache)

/-- Replay addresses with misses that insert a byte. -/
def replay (cache : Cache) (fillValue : UInt8) (verify : Bool) (addresses : List Address) :
    Checked (ReplayReply Report × Cache) :=
  Replay.visitAll id
    (fun cache address => do
      let (hit, cache) ← cache.readSeeded fillValue address
      return (.ok hit, cache))
    verify cache {} addresses

end Cache

namespace BackedCache

/-- Replay addresses with misses that the store serves. -/
def replay {σ : Type} [BlockStore σ] (backed : BackedCache σ) (verify : Bool)
    (addresses : List Address) : Checked (ReplayReply Report × BackedCache σ) :=
  Replay.visitAll BackedCache.cache
    (fun backed address => do
      let (reply, backed) ← backed.access address .read
      return ((reply.map Prod.snd).mapError .backed, backed))
    verify backed {} addresses

end BackedCache

end TrieCache
