import TrieCache.Text.Hexadecimal

/-!
# Faults

A fault ends a run: a caller broke a contract, or machine arithmetic left its word.
Each cause is a constructor; its wording is `Fault.message`.  Failures that a caller
can live with, such as a store refusing a block, are not faults and have their own
error types beside the operations that report them.
-/

namespace TrieCache

inductive Fault
  | addOverflow
  | subtractOverflow
  | multiplyOverflow
  /-- A left shift by at least the width of the word. -/
  | shiftLeftOverflow
  /-- A right shift by at least the width of the word. -/
  | shiftRightOverflow
  | divideByZero
  | remainderByZero
  /-- A table was asked for an entry it does not have. -/
  | indexOutOfBounds (length index : Nat)
  /-- A list would take `2 ^ 63` bytes or more. -/
  | noRoom
  /-- Blocks must have a power of two of at least four bytes. -/
  | blockSize
  | noLevels
  /-- A path from the top to a data block, and one block more, must fit the pool. -/
  | poolTooSmall (capacity levels : Nat)
  /-- A victim sweep must examine at least one block. -/
  | noAttempts
  /-- The fast path of a configuration needs room. -/
  | noFastPath
  | noReference
  | addressTooWide
  /-- One top entry covers more than the whole address space. -/
  | spanTooWide (spanBits addressBits : Nat)
  /-- The top index would have too many entries. -/
  | topIndexTooLarge (bits : Nat)
  /-- Only levels below the first have a selector. -/
  | noSelector (level : Nat)
  | emptyFastPath
  | addressOutOfRange (address addressBits : Nat)
  /-- An inserted block can already be reached by a walk. -/
  | alreadyCached (address : Nat)
  /-- An inserted block is already on the fast path. -/
  | alreadyOnFastPath (address : Nat)
  /-- A block found for an access holds no data. -/
  | noData
  | noVictim
  | noCandidate
  | nothingBuilt
  /-- A block to fill in has the wrong size. -/
  | partialFill (address size expected : Nat)
  /-- A block to write back has the wrong size. -/
  | partialWriteback (size expected : Nat)
  /-- A cache and the store behind it have different block sizes. -/
  | blockSizeMismatch (cache store : Nat)
  /-- A freshly inserted byte did not read back. -/
  | rereadMismatch (address : Nat) (found : Option UInt8) (expected : UInt8)
  | malformedSection
  deriving DecidableEq, Repr

namespace Fault

/-- How an optional byte is shown in a failed comparison. -/
def showByte : Option UInt8 → String
  | none => "None"
  | some byte => s!"Some({byte.toNat})"

/-- The report of a comparison of two values that should agree. -/
def mismatch (subject left right : String) : String :=
  "assertion `left == right` failed: " ++ subject ++ "\n  left: " ++ left ++ "\n right: " ++ right

def message : Fault → String
  | .addOverflow => "attempt to add with overflow"
  | .subtractOverflow => "attempt to subtract with overflow"
  | .multiplyOverflow => "attempt to multiply with overflow"
  | .shiftLeftOverflow => "attempt to shift left with overflow"
  | .shiftRightOverflow => "attempt to shift right with overflow"
  | .divideByZero => "attempt to divide by zero"
  | .remainderByZero => "attempt to calculate the remainder with a divisor of zero"
  | .indexOutOfBounds length index =>
    s!"index out of bounds: the len is {length} but the index is {index}"
  | .noRoom => "capacity overflow"
  | .blockSize => "block_size must be a power of two >= 4"
  | .noLevels => "num_bth must be >= 1"
  | .poolTooSmall capacity levels =>
    s!"cache must hold more than num_bth blocks (capacity {capacity}, num_bth {levels})"
  | .noAttempts => "mna must be > 0"
  | .noFastPath => "tlb_size must be > 0"
  | .noReference => "max_reference must be > 0"
  | .addressTooWide => "addr_bits must be <= 64"
  | .spanTooWide spanBits addressBits =>
    s!"top span of 2^{spanBits} bytes does not fit a {addressBits}-bit address space"
  | .topIndexTooLarge bits => s!"top index of 2^{bits} entries is too large (at most 2^24)"
  | .noSelector level => s!"no selector for level {level}"
  | .emptyFastPath => "fast-path table needs at least one entry"
  | .addressOutOfRange address addressBits =>
    s!"address {Hexadecimal.literal address} outside the {addressBits}-bit address space"
  | .alreadyCached address =>
    s!"insert of {Hexadecimal.literal address} which is already cached"
  | .alreadyOnFastPath address =>
    s!"insert of {Hexadecimal.literal address} which is already in the fast-path table"
  | .noData => "resolved block holds data"
  | .noVictim => "no unlocked block left to replace"
  | .noCandidate => "mna > 0 guarantees a candidate"
  | .nothingBuilt => "insertion builds at least the data block"
  | .partialFill address size expected =>
    mismatch s!"fill of {Hexadecimal.literal address} with a partial block"
      (toString size) (toString expected)
  | .partialWriteback size expected =>
    mismatch "partial block writeback" (toString size) (toString expected)
  | .blockSizeMismatch cache store =>
    mismatch "cache and memory disagree on block size" (toString cache) (toString store)
  | .rereadMismatch address found expected =>
    mismatch s!"reread of {Hexadecimal.literal address} after insert"
      (showByte found) (showByte (some expected))
  | .malformedSection => "cannot deserialize config"

end Fault

/-- The result of a step that may end the run. -/
abbrev Checked (α : Type) := Except Fault α

/-- Pass when the condition holds, and report the fault otherwise. -/
def require (condition : Bool) (fault : Fault) : Checked Unit :=
  if condition then .ok () else .error fault

@[simp]
theorem require_eq_ok_iff {condition : Bool} {fault : Fault} {value : Unit} :
    require condition fault = .ok value ↔ condition = true := by
  cases condition <;> simp [require]

end TrieCache
