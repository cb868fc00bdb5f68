import TrieCache.Block
import TrieCache.Fault

/-!
# Top index

The flat first level of the trie: slot `i` covers the addresses of the `i`-th span.
-/

namespace TrieCache

structure TopIndex where
  entries : Array Link
  deriving DecidableEq, Repr

namespace TopIndex

/-- A top index without valid entries; it has at least one slot. -/
def ofSize (size : Nat) : Checked TopIndex := do
  return { entries := ← allocate Link.bytes (max size 1) {} }

def size (top : TopIndex) : Nat :=
  top.entries.size

def missing (top : TopIndex) (slot : Nat) : Fault :=
  .indexOutOfBounds top.size slot

def get (top : TopIndex) (slot : Nat) : Checked Link :=
  match top.entries[slot]? with
  | some entry => .ok entry
  | none => .error (top.missing slot)

theorem get_eq_ok_iff {top : TopIndex} {slot : Nat} {entry : Link} :
    top.get slot = .ok entry ↔ top.entries[slot]? = some entry := by
  unfold get
  split <;> simp_all

/-- Change one entry; slots past the end change nothing. -/
def set (top : TopIndex) (slot : Nat) (entry : Link) : TopIndex :=
  { top with entries := top.entries.setIfInBounds slot entry }

@[simp]
theorem size_set (top : TopIndex) (slot : Nat) (entry : Link) :
    (top.set slot entry).size = top.size :=
  Array.size_setIfInBounds

theorem entries_set (top : TopIndex) (slot other : Nat) (entry : Link) :
    (top.set slot entry).entries[other]? =
      if slot = other then (if slot < top.size then some entry else none)
      else top.entries[other]? :=
  Array.getElem?_setIfInBounds

def link (top : TopIndex) (slot target : Nat) : Checked TopIndex :=
  if slot < top.size then .ok (top.set slot { valid := true, target })
  else .error (top.missing slot)

def unlink (top : TopIndex) (slot : Nat) : Checked TopIndex :=
  match top.entries[slot]? with
  | some entry => .ok (top.set slot { entry with valid := false })
  | none => .error (top.missing slot)

/-- The valid entries below a slot as slot and target, in slot order, before others. -/
def validBelow (top : TopIndex) : (slot : Nat) → List (Nat × Nat) → List (Nat × Nat)
  | 0, others => others
  | slot + 1, others =>
    match top.entries[slot]? with
    | some entry =>
      if entry.valid then top.validBelow slot ((slot, entry.target) :: others)
      else top.validBelow slot others
    | none => top.validBelow slot others

/-- The valid entries as slot and target, in slot order. -/
def validEntries (top : TopIndex) : List (Nat × Nat) :=
  top.validBelow top.size []

end TopIndex

end TrieCache
