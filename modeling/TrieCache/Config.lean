import TrieCache.Word

/-!
# Configuration of a cache

The geometry and policy of one cache, the sizes derived from them, and the checks a
configuration must pass before a cache is built.  The derived sizes are checked word
arithmetic of their own: they may be asked for before the configuration is known to
be valid.
-/

namespace TrieCache

structure Config where
  /-- Total capacity in bytes; a table costs as much of it as a data block. -/
  size : UInt64 := 65536
  /-- Bytes per block. -/
  blockSize : UInt64 := 64
  /-- Levels of the trie, the last of which holds the data blocks. -/
  levels : UInt64 := 3
  /-- Bits of an address. -/
  addressBits : UInt32 := 32
  /-- Entries of the fast-path table. -/
  fastPathSize : UInt64 := 65536
  /-- Candidates a victim sweep examines before it settles for the least used one. -/
  maxAttempts : UInt64 := 5
  /-- Ceiling of the reference counts. -/
  maxReference : UInt8 := 31
  deriving DecidableEq, Repr

namespace Config

/-- Largest top index, as a power of two. -/
def maxTopBits : Nat := 24

def capacity (config : Config) : Checked Nat :=
  Word.div config.size.toNat config.blockSize.toNat

/-- Child slots of a table: a slot is half a block wide. -/
def branching (config : Config) : Nat :=
  config.blockSize.toNat / 2

def blockBits (config : Config) : Nat :=
  Word.trailingZeros 64 config.blockSize.toNat

def branchBits (config : Config) : Nat :=
  Word.trailingZeros 64 config.branching

/-- Bits of an address below its top index, in 32-bit arithmetic. -/
def spanBits (config : Config) : Checked Nat := do
  let tables ← Word.sub (config.levels.toNat % 2 ^ (32 : Nat)) 1
  let selectors ← Word.mul 32 config.branchBits tables
  Word.add 32 config.blockBits selectors

/-- Bytes of address space covered by one top entry. -/
def topSpan (config : Config) : Checked Nat := do
  Word.shiftLeft 1 (← config.spanBits)

def topEntries (config : Config) : Checked Nat := do
  let bits ← Word.sub config.addressBits.toNat (← config.spanBits)
  Word.shiftLeft 1 bits

/-- The first address past the address space; the largest word stands for no limit. -/
def addressLimit (config : Config) : Nat :=
  if config.addressBits.toNat < 64 then 2 ^ config.addressBits.toNat else Word.max64

/-- Refuse a geometry that the cache cannot represent. -/
def ensureValid (config : Config) : Checked Unit := do
  require (decide (4 ≤ config.blockSize.toNat) && Word.isPowerOfTwo 64 config.blockSize.toNat)
    .blockSize
  require (decide (1 ≤ config.levels.toNat)) .noLevels
  let capacity ← config.capacity
  require (decide (config.levels.toNat < capacity)) (.poolTooSmall capacity config.levels.toNat)
  require (decide (0 < config.maxAttempts.toNat)) .noAttempts
  require (decide (0 < config.fastPathSize.toNat)) .noFastPath
  require (decide (0 < config.maxReference.toNat)) .noReference
  require (decide (config.addressBits.toNat ≤ 64)) .addressTooWide
  let spanBits ← config.spanBits
  require (decide (spanBits ≤ config.addressBits.toNat))
    (.spanTooWide spanBits config.addressBits.toNat)
  require (decide (config.addressBits.toNat - spanBits ≤ maxTopBits))
    (.topIndexTooLarge (config.addressBits.toNat - spanBits))

end Config

end TrieCache
