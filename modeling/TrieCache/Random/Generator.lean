import TrieCache.Power
import TrieCache.Random.ChaCha

/-!
# Random numbers

A reproducible stream of 64-bit words from a 64-bit seed, and numbers below a bound from
that stream.  The seed is stretched to a key by a permuted congruential generator; the
words come in pairs, low half first, from the blocks of that key.

A bounded number is the high half of the product of a word and the bound.  Words whose
low half lies past a threshold are rejected.
-/

namespace TrieCache

structure Generator where
  key : Vector UInt32 8
  /-- The next block to take words from. -/
  block : UInt64 := 0
  /-- The words left of the block before. -/
  ready : List UInt64 := []
  deriving DecidableEq, Repr

namespace Generator

/-- One step of the generator that stretches a seed. -/
def advance (state : UInt64) : UInt64 :=
  state * 6364136223846793005 + 11634580027462260723

/-- The word that a state of the stretching generator gives. -/
def permute (state : UInt64) : UInt32 :=
  let word := (((state >>> 18) ^^^ state) >>> 27).toUInt32
  let amount := (state >>> 59).toUInt32
  (word >>> amount) ||| (word <<< ((32 - amount) % 32))

/-- The state of the stretching generator after a number of steps. -/
def stretched (seed : UInt64) : (steps : Nat) → UInt64
  | 0 => seed
  | steps + 1 => advance (stretched seed steps)

def ofSeed (seed : UInt64) : Generator :=
  { key := Vector.ofFn fun index => permute (stretched seed (index + 1)) }

/-- The words of one block, two by two. -/
def pairs : List UInt32 → List UInt64
  | low :: high :: rest => (low.toUInt64 ||| (high.toUInt64 <<< 32)) :: pairs rest
  | _ => []

def next (generator : Generator) : UInt64 × Generator :=
  match generator.ready with
  | word :: ready => (word, { generator with ready })
  | [] =>
    let words := pairs (ChaCha.block generator.key generator.block).toList
    (words.headD 0, { generator with block := generator.block + 1, ready := words.tail })

/-- The largest low half that is not rejected for a bound: one less than the bound
shifted until its highest bit is set. -/
def threshold (bound : Nat) : Nat :=
  bound * 2 ^ (63 - bound.log2) - 1

/-- A number below a positive bound, from the first word that is not rejected.  Each word
is rejected with a chance of less than one half, so `attempts` words are enough. -/
def below (bound : Nat) : (attempts : Nat) → Generator → Nat × Generator
  | 0, generator => (0, generator)
  | attempts + 1, generator =>
    let (word, generator) := generator.next
    let product := word.toNat * bound
    if product % 2 ^ (64 : Nat) ≤ threshold bound then (product / 2 ^ (64 : Nat), generator)
    else below bound attempts generator

theorem below_lt {bound : Nat} (positive : 0 < bound) (attempts : Nat) (generator : Generator) :
    (below bound attempts generator).1 < bound := by
  induction attempts generalizing generator with
  | zero => exact positive
  | succ attempts ih =>
    simp only [below]
    split
    · have small := generator.next.1.toNat_lt
      exact Nat.div_lt_of_lt_mul (Nat.mul_lt_mul_of_pos_right small positive)
    · exact ih _

end Generator

end TrieCache
