import TrieCache.Fault

/-!
# Stores

A store holds the permanent copy of every block.  It may refuse to serve one, which is
an error a caller can live with.  Every operation answers together with the state that
the store is left in, whether it succeeded or not.

`fetchBlock` and `writebackBlock` are what callers use.  They let only whole blocks pass:
a block of another length that comes from the store is an error, and one that goes to it
is a fault.
-/

namespace TrieCache

/-- Why a store did not serve a block. -/
inductive StoreError
  /-- The store refused to hand out a block. -/
  | fetchRefused (tag : Nat)
  /-- The store refused to take a block back. -/
  | writebackRefused (tag : Nat)
  /-- The store handed out a block of the wrong length. -/
  | wrongLength (tag length expected : Nat)
  deriving DecidableEq, Repr

def StoreError.message : StoreError → String
  | .fetchRefused tag => s!"injected fetch fault at {tag}"
  | .writebackRefused tag => s!"injected writeback fault at {tag}"
  | .wrongLength tag length expected =>
    s!"fetch of block {Hexadecimal.literal tag} returned {length} bytes, expected {expected}"

abbrev StoreReply (α : Type) := Except StoreError α

/-- A memory of blocks, each known by its tag. -/
class BlockStore (σ : Type) where
  blockSize : σ → Nat
  /-- Hand out a block of any length. -/
  fetch : σ → (tag : Nat) → Checked (StoreReply (Array UInt8) × σ)
  writeback : σ → (tag : Nat) → Array UInt8 → Checked (StoreReply Unit × σ)

namespace BlockStore

variable {σ : Type} [BlockStore σ]

def fetchBlock (store : σ) (tag : Nat) : Checked (StoreReply (Array UInt8) × σ) := do
  let (outcome, after) ← fetch store tag
  match outcome with
  | .error error => return (.error error, after)
  | .ok bytes =>
    if bytes.size = blockSize after then
      return (.ok bytes, after)
    else
      return (.error (.wrongLength tag bytes.size (blockSize after)), after)

def writebackBlock (store : σ) (tag : Nat) (bytes : Array UInt8) :
    Checked (StoreReply Unit × σ) :=
  if bytes.size = blockSize store then
    writeback store tag bytes
  else
    .error (.partialWriteback bytes.size (blockSize store))

end BlockStore

end TrieCache
