import TrieCache.Random.Generator

/-!
# Sources of random numbers

What draws numbers below a bound.  All that is asked of a source is that it keeps to the
bound; nothing is said about how its numbers are distributed.
-/

namespace TrieCache

/-- A source of random numbers below a bound, reproducible from a seed. -/
structure Source where
  State : Type
  ofSeed : UInt64 → State
  below : (bound : Nat) → State → Nat × State
  below_lt {bound : Nat} : 0 < bound → ∀ state : State, (below bound state).1 < bound

namespace Source

/-- How many words may be rejected for one number. -/
def attempts : Nat := 2 ^ (16 : Nat)

/-- The stream of words that a run draws from. -/
def chaCha : Source where
  State := Generator
  ofSeed := .ofSeed
  below bound := Generator.below bound attempts
  below_lt positive := Generator.below_lt positive attempts

end Source

end TrieCache
