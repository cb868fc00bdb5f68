import Std.Data.TreeSet
import TrieCache.Cache.Basic

/-!
# Integrity

A cross-check of the top index, the pool and the fast path.  Every valid link must
lead to a block that names the link's owner as its parent, no block may have two
owners, every block that claims a parent must have one, and every fast-path entry
must lead to the data block of its tag.
-/

namespace TrieCache

inductive Flaw
  | topSize (found expected : Nat)
  | topEntry (slot index : Nat)
  | twoOwners (index : Nat)
  | reference (index count : Nat)
  | childLink (parent child : Nat)
  | noOwner (index : Nat)
  | fastPathSize (size capacity : Nat)
  | fastPathEntry (tag index : Nat)
  deriving DecidableEq, Repr

def Flaw.message : Flaw → String
  | .topSize found expected => s!"top index holds {found} slots, geometry needs {expected}"
  | .topEntry slot index =>
    s!"top slot {slot} points at pool slot {index} which does not belong to it"
  | .twoOwners index => s!"pool slot {index} has two owners"
  | .reference index count => s!"pool slot {index} reference count {count} above ceiling"
  | .childLink parent child =>
    s!"pool slot {parent} links to pool slot {child} which does not belong to it"
  | .noOwner index => s!"pool slot {index} claims a parent but has none"
  | .fastPathSize size capacity => s!"fast path holds {size} entries, capacity {capacity}"
  | .fastPathEntry tag index =>
    s!"fast path entry {Hexadecimal.literal tag} points at stale pool slot {index}"

/-- A check that may find a flaw, or hit a fault on the way. -/
abbrev Inspection := ExceptT Flaw (Except Fault)

namespace Inspection

def ensure (condition : Bool) (flaw : Flaw) : Inspection Unit :=
  if condition then pure () else throw flaw

end Inspection

namespace Cache

abbrev Owned := Std.TreeSet Nat

/-- Note the owner of a block, which must be its first. -/
def claim (owned : Owned) (index : Nat) : Inspection Owned := do
  Inspection.ensure (!owned.contains index) (.twoOwners index)
  return owned.insert index

/-- Check that the valid top entries lead to first-level blocks of theirs. -/
def inspectTop (cache : Cache) (owned : Owned) : List (Nat × Nat) → Inspection Owned
  | [] => pure owned
  | (slot, index) :: rest => do
    let block ← cache.pool.get index
    Inspection.ensure
      (block.valid && block.parentValid && block.level == 1 && block.parent == slot)
      (.topEntry slot index)
    cache.inspectTop (← claim owned index) rest

/-- Check that the children of a table are blocks of the next level and its own. -/
def inspectChildren (cache : Cache) (parent level : Nat) (owned : Owned) :
    List Nat → Inspection Owned
  | [] => pure owned
  | index :: rest => do
    let block ← cache.pool.get index
    Inspection.ensure
      (block.valid && block.parentValid && block.level == level + 1 && block.parent == parent)
      (.childLink parent index)
    cache.inspectChildren parent level (← claim owned index) rest

/-- Check reference counts, and the children of every table, attached or not. -/
def inspectBlocks (cache : Cache) (owned : Owned) : List Nat → Inspection Owned
  | [] => pure owned
  | index :: rest => do
    let block ← cache.pool.get index
    Inspection.ensure (decide (block.reference ≤ cache.maxReference))
      (.reference index block.reference)
    if block.valid then
      cache.inspectBlocks
        (← cache.inspectChildren index block.level owned block.children) rest
    else
      cache.inspectBlocks owned rest

/-- Check that every block that claims a parent was found under one. -/
def inspectOwners (cache : Cache) (owned : Owned) : List Nat → Inspection Unit
  | [] => pure ()
  | index :: rest => do
    let block ← cache.pool.get index
    Inspection.ensure (!(block.valid && block.parentValid) || owned.contains index)
      (.noOwner index)
    cache.inspectOwners owned rest

/-- Check that fast-path entries lead to the data blocks of their tags. -/
def inspectFastPath (cache : Cache) : List (Nat × Nat) → Inspection Unit
  | [] => pure ()
  | (tag, index) :: rest => do
    let block ← cache.pool.get index
    Inspection.ensure
      (block.valid && block.level == cache.layout.depth && block.tag == tag
        && block.bytes?.isSome)
      (.fastPathEntry tag index)
    cache.inspectFastPath rest

def inspect (cache : Cache) : Inspection Unit := do
  let expected ← cache.config.topEntries
  Inspection.ensure (cache.top.size == expected) (.topSize cache.top.size expected)
  let indices := List.range cache.pool.capacity
  let owned ← cache.inspectTop {} cache.top.validEntries
  let owned ← cache.inspectBlocks owned indices
  cache.inspectOwners owned indices
  Inspection.ensure (decide (cache.fastPath.size ≤ cache.fastPath.capacity))
    (.fastPathSize cache.fastPath.size cache.fastPath.capacity)
  cache.inspectFastPath cache.fastPath.toList

def checkStructure (cache : Cache) : Checked (Except Flaw Unit) :=
  cache.inspect.run

end Cache

end TrieCache
