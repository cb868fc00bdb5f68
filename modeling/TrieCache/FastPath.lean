import Std.Data.TreeMap
import TrieCache.FastPath.Records
import TrieCache.Word

/-!
# Fast path

A bounded table from block tags to pool indices.  When it overflows, the entry that
was inserted first goes; look-ups and changes of target leave the order alone.  The
order is kept as insertion records.  Removing an entry leaves its record behind, and
such stale records are swept out once they could outnumber the live ones.
-/

namespace TrieCache

structure Shortcut where
  target : Nat
  sequence : Nat
  deriving DecidableEq, Repr

/-- A bounded map from tags to pool indices with first-in first-out replacement. -/
structure FastPath where
  capacity : Nat
  nextSequence : Nat := 0
  entries : Std.TreeMap Nat Shortcut := {}
  /-- The insertions, oldest first; some may be of entries removed since. -/
  order : Records := .empty

namespace FastPath

def ofCapacity (capacity : Nat) : Checked FastPath :=
  if 0 < capacity then .ok { capacity } else .error .emptyFastPath

def size (table : FastPath) : Nat :=
  table.entries.size

def contains (table : FastPath) (tag : Nat) : Bool :=
  table.entries.contains tag

def lookup (table : FastPath) (tag : Nat) : Option Nat :=
  table.entries[tag]?.map Shortcut.target

/-- The entries as tag and pool index, by tag. -/
def toList (table : FastPath) : List (Nat × Nat) :=
  table.entries.toList.map fun (tag, shortcut) => (tag, shortcut.target)

/-- Whether a record is that of an entry still in the table. -/
def isLive (table : FastPath) (record : Record) : Bool :=
  table.entries[record.tag]?.any fun shortcut => shortcut.sequence == record.sequence

def evictOldest (table : FastPath) : Option Nat × FastPath :=
  match table.order.popUntil table.isLive with
  | (some record, order) =>
    (some record.tag, { table with order, entries := table.entries.erase record.tag })
  | (none, order) => (none, { table with order })

/-- Drop the stale records when the records outnumber twice the capacity. -/
def compact (table : FastPath) : Checked FastPath := do
  let bound ← Word.mul 64 2 table.capacity
  if bound < table.order.length then
    return { table with order := table.order.filter table.isLive }
  else
    return table

def append (table : FastPath) (tag target : Nat) : Checked FastPath := do
  let next ← Word.add 64 table.nextSequence 1
  return { table with
    nextSequence := next
    entries := table.entries.insert tag { target, sequence := table.nextSequence }
    order := table.order.push { tag, sequence := table.nextSequence } }

/-- Insert a tag or change its target.  The result is the tag that had to go. -/
def insert (table : FastPath) (tag target : Nat) : Checked (Option Nat × FastPath) :=
  match table.entries[tag]? with
  | some shortcut =>
    .ok (none, { table with entries := table.entries.insert tag { shortcut with target } })
  | none => do
    let table ← table.append tag target
    let (evicted, table) :=
      if table.capacity < table.size then table.evictOldest else (none, table)
    let table ← table.compact
    return (evicted, table)

/-- Remove a tag.  The result is its pool index. -/
def remove (table : FastPath) (tag : Nat) : Option Nat × FastPath :=
  match table.entries[tag]? with
  | some shortcut => (some shortcut.target, { table with entries := table.entries.erase tag })
  | none => (none, table)

end FastPath

end TrieCache
