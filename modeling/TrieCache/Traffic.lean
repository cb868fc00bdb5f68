import TrieCache.Layout
import TrieCache.Random.Source
import TrieCache.Room
import TrieCache.Trace

/-!
# Synthetic traffic

Random addresses, uniform over a range and reproducible from a seed.
-/

namespace TrieCache

structure Traffic where
  length : Nat
  /-- The first address of the range. -/
  base : UInt64 := 0
  /-- Addresses in the range; an empty range counts as one address. -/
  footprint : UInt64
  seed : UInt64 := 0
  deriving DecidableEq, Repr

namespace Traffic

def range (traffic : Traffic) : Nat :=
  max traffic.footprint.toNat 1

/-- Draw addresses, after those drawn before, last one first. -/
def draw (traffic : Traffic) (source : Source) (drawn : List Address) :
    (count : Nat) → source.State → Checked (List Address)
  | 0, _ => .ok drawn.reverse
  | count + 1, state => do
    let (offset, state) := source.below traffic.range state
    let address ← Word.add 64 traffic.base.toNat offset
    traffic.draw source (UInt64.ofNat address :: drawn) count state

def generate (traffic : Traffic) (source : Source := .chaCha) : Checked (List Address) := do
  requireRoom 8 traffic.length
  traffic.draw source [] traffic.length (source.ofSeed traffic.seed)

/-- The addresses as the text of a trace. -/
def traceText (traffic : Traffic) (source : Source := .chaCha) : Checked String := do
  return Trace.print (← traffic.generate source)

end Traffic

end TrieCache
