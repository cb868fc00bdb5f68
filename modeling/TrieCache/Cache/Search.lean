import TrieCache.Cache.Basic

/-!
# Search

The walk from the top index down to a data block.  Every block stepped into below
the first level counts one more reference, whether the walk ends in a hit or not.
-/

namespace TrieCache

inductive Walk
  | hit (index : Nat)
  /-- At the deepest block reached, under which an insertion goes on; at none if the
  top slot was empty. -/
  | miss (anchor : Option Nat)
  deriving DecidableEq, Repr

namespace Walk

def isHit : Walk → Bool
  | .hit _ => true
  | .miss _ => false

def anchor : Walk → Option Nat
  | .hit index => some index
  | .miss anchor => anchor

end Walk

namespace Cache

/-- Judge the block at the end of a full walk. -/
def arrive (cache : Cache) (address : Address) (index : Nat) : Checked Walk := do
  let block ← cache.pool.get index
  if block.level = cache.layout.depth ∧ block.valid ∧ block.parentValid then
    let tag ← cache.layout.tag address
    return if block.tag = tag then .hit index else .miss (some index)
  else
    return .miss (some index)

/-- Go down from a block to `level` and on for the given number of steps in all. -/
def descend (cache : Cache) (address : Address) (index level : Nat) :
    (steps : Nat) → Checked (Walk × Cache)
  | 0 => do
    return (← cache.arrive address index, cache)
  | steps + 1 => do
    let selector ← cache.layout.selector address level
    let block ← cache.pool.get index
    match block.child? selector with
    | none => return (.miss (some index), cache)
    | some child =>
      let cache ← cache.updateBlock child (Block.touch cache.maxReference)
      cache.descend address child (level + 1) steps

/-- Walk from the top index towards the data block of an address. -/
def search (cache : Cache) (address : Address) : Checked (Walk × Cache) := do
  let slot ← cache.layout.topIndex address
  let entry ← cache.top.get slot
  if entry.valid then
    cache.descend address entry.target 2 (cache.layout.depth - 1)
  else
    return (.miss none, cache)

end Cache

end TrieCache
