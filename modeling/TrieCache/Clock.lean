import TrieCache.Pool
import TrieCache.Word

/-!
# Victim selection

A sweep looks for a block to build anew.  It starts at the hand and takes the first
block that is free, orphaned or unreferenced.  Other blocks it examines are aged to
zero, and after a set number of them the least referenced one is taken instead.
Locked and pinned blocks are stepped over and do not count as examined.

A sweep ends because every step either examines a block, of which there are at most
`maxAttempts`, or steps over one, of which there are fewer than the capacity in a row.
-/

namespace TrieCache

structure Victim where
  index : Nat
  /-- No block was free for the taking within the allowed attempts. -/
  fallback : Bool
  deriving DecidableEq, Repr

/-- What a sweep remembers between two steps. -/
structure Sweep where
  attempts : Nat := 0
  /-- Blocks stepped over since the last one examined. -/
  skipped : Nat := 0
  /-- The least referenced block examined so far, with its count. -/
  best : Option (Nat × Nat) := none
  deriving DecidableEq, Repr

namespace Block

/-- A block that a sweep takes on sight. -/
def isFreeToTake (block : Block) : Bool :=
  !block.valid || !block.parentValid || block.reference == 0

end Block

namespace Sweep

/-- Remember a block if it is the first or has fewer references than the best one. -/
def consider (sweep : Sweep) (index reference : Nat) : Option (Nat × Nat) :=
  match sweep.best with
  | none => some (index, reference)
  | some (best, bestReference) =>
    if reference < bestReference then some (index, reference) else some (best, bestReference)

def settle (sweep : Sweep) : Checked Victim :=
  match sweep.best with
  | some (index, _) => .ok { index, fallback := true }
  | none => .error .noCandidate

end Sweep

namespace Pool

/-- Sweep on from the hand until a victim is found. -/
def sweep (maxAttempts : Nat) (pinned : List Nat) (state : Sweep) (pool : Pool) :
    Checked (Victim × Pool) :=
  if state.attempts < maxAttempts then
    let capacity := pool.capacity
    let index := pool.hand
    if capacity = 0 then .error .remainderByZero
    else
      match pool.blocks[index]? with
      | none => .error (pool.missing index)
      | some block =>
        let pool := { pool with hand := (index + 1) % capacity }
        if block.locked || pinned.contains index then
          if state.skipped + 1 < capacity then
            pool.sweep maxAttempts pinned { state with skipped := state.skipped + 1 }
          else .error .noVictim
        else if block.isFreeToTake then
          .ok ({ index, fallback := false }, pool)
        else
          sweep maxAttempts pinned
            { attempts := state.attempts + 1, skipped := 0,
              best := state.consider index block.reference }
            (pool.modify index fun block => { block with reference := 0 })
  else do
    return (← state.settle, pool)
termination_by
  (maxAttempts - state.attempts) * (pool.capacity + 1) + (pool.capacity - state.skipped)
decreasing_by
  · show (maxAttempts - state.attempts) * (capacity + 1) + (capacity - (state.skipped + 1)) <
      (maxAttempts - state.attempts) * (capacity + 1) + (capacity - state.skipped)
    omega
  · have unchanged : (pool.modify index fun block => { block with reference := 0 }).capacity =
        capacity :=
      capacity_modify _ _ _
    rw [unchanged]
    show (maxAttempts - (state.attempts + 1)) * (capacity + 1) + (capacity - 0) <
      (maxAttempts - state.attempts) * (capacity + 1) + (capacity - state.skipped)
    have fewer : maxAttempts - state.attempts = (maxAttempts - (state.attempts + 1)) + 1 := by
      omega
    rw [fewer, Nat.add_mul]
    omega

/-- Choose the block to build anew, ageing the blocks examined on the way. -/
def selectVictim (pool : Pool) (maxAttempts : Nat) (pinned : List Nat) :
    Checked (Victim × Pool) :=
  pool.sweep maxAttempts pinned {}

end Pool

end TrieCache
