import TrieCache.Config

/-!
# Address layout

An address splits into the fields that lead to its byte:

    | top index | selector 2 | ... | selector D | offset |

The fields between the offset and the top end form the tag, which is the address of
the block in units of blocks.  Each selector picks one child slot of a table.
-/

namespace TrieCache

abbrev Address := UInt64

structure Layout where
  /-- Levels of the trie. -/
  depth : Nat
  /-- Bits of the offset. -/
  blockBits : Nat
  /-- Bits of one selector. -/
  branchBits : Nat
  /-- Bits below the top index. -/
  spanBits : Nat
  /-- First address past the address space; the largest word stands for no limit. -/
  limit : Nat
  deriving DecidableEq, Repr

namespace Layout

/-- The layout of a configuration, valid or not. -/
def ofConfig (config : Config) : Checked Layout := do
  let spanBits ← config.spanBits
  return {
    depth := config.levels.toNat
    blockBits := config.blockBits
    branchBits := config.branchBits
    spanBits := spanBits
    limit := config.addressLimit }

def blockSize (layout : Layout) : Checked Nat :=
  Word.shiftLeft 1 layout.blockBits

def branching (layout : Layout) : Checked Nat :=
  Word.shiftLeft 1 layout.branchBits

def contains (layout : Layout) (address : Address) : Bool :=
  decide (layout.limit = Word.max64) || decide (address.toNat < layout.limit)

def topIndex (layout : Layout) (address : Address) : Checked Nat :=
  Word.shiftRight address.toNat layout.spanBits

/-- The child slot taken out of a table at `level - 1` on the way down to `level`. -/
def selector (layout : Layout) (address : Address) (level : Nat) : Checked Nat := do
  if 2 ≤ level ∧ level ≤ layout.depth then
    let tables ← Word.sub (level % 2 ^ (32 : Nat)) 1
    let above ← Word.mul 32 layout.branchBits tables
    let below ← Word.sub layout.spanBits above
    let field ← Word.shiftRight address.toNat below
    return field % (← layout.branching)
  else
    throw (.noSelector level)

/-- The block an address belongs to, in units of blocks. -/
def tag (layout : Layout) (address : Address) : Checked Nat :=
  Word.shiftRight address.toNat layout.blockBits

def offset (layout : Layout) (address : Address) : Checked Nat := do
  return address.toNat % (← layout.blockSize)

def blockAddress (layout : Layout) (tag : Nat) : Checked Nat :=
  Word.shiftLeft tag layout.blockBits

structure Fields where
  contained : Bool
  top : Nat
  selectors : List Nat
  tag : Nat
  offset : Nat
  base : Nat
  deriving DecidableEq, Repr

/-- The selectors of the levels from `level` on. -/
def selectorsFrom (layout : Layout) (address : Address) (level : Nat) :
    (count : Nat) → Checked (List Nat)
  | 0 => .ok []
  | count + 1 => do
    let first ← layout.selector address level
    let rest ← layout.selectorsFrom address (level + 1) count
    return first :: rest

/-- The selectors of an address, from level two down. -/
def selectors (layout : Layout) (address : Address) : Checked (List Nat) :=
  layout.selectorsFrom address 2 (layout.depth - 1)

def split (layout : Layout) (address : Address) : Checked Fields := do
  let selectors ← layout.selectors address
  let top ← layout.topIndex address
  let tag ← layout.tag address
  let offset ← layout.offset address
  let base ← layout.blockAddress tag
  return { contained := layout.contains address, top, selectors, tag, offset, base }

end Layout

end TrieCache
