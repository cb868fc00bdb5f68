import Mathlib.Algebra.Group.Nat.Defs
import TrieCache.Proofs.Supply
import TrieCache.Store.Memory

/-!
# The sparse memory

A memory of whole blocks serves every request as a flat memory does, with zeros where
nothing was written.  It counts what it serves, and faults only when a count is full.
-/

namespace TrieCache

namespace Memory

open BlockStore

variable {memory after : Memory} {tag : Nat}

/-- Every block that is kept has the size of a block. -/
def Whole (memory : Memory) : Prop :=
  ∀ ⦃tag : Nat⦄ ⦃bytes : Array UInt8⦄, memory.blocks[tag]? = some bytes →
    bytes.size = memory.blockSize

def contents (memory : Memory) : Blocks :=
  fun tag => memory.blocks[tag]?.getD (Array.replicate memory.blockSize 0)

theorem Whole.size_contents (whole : memory.Whole) (tag : Nat) :
    (memory.contents tag).size = memory.blockSize := by
  rw [contents]
  cases found : memory.blocks[tag]? with
  | none => exact Array.size_replicate
  | some bytes => exact whole found

theorem add_one_outcome (count : Nat) :
    Ends (Word.add 64 count 1) (fun next => next = count + 1)
      (fun fault => fault = .addOverflow ∧ 2 ^ 64 ≤ count + 1) := by
  unfold Word.add
  split
  next => exact rfl
  next full => exact ⟨rfl, Nat.le_of_not_lt full⟩

theorem block_outcome (memory : Memory) (tag : Nat) :
    Ends (memory.block tag) (fun bytes => bytes = memory.contents tag)
      (fun _ => 2 ^ 63 ≤ memory.blockSize) := by
  rw [block, contents]
  cases memory.blocks[tag]? with
  | some bytes => exact rfl
  | none =>
    cases made : memory.blank with
    | ok bytes => exact (allocate_eq_ok_iff.mp made).2
    | error fault =>
      refine Nat.le_of_not_lt fun small => ?_
      rw [blank, allocate_eq_ok_iff.mpr ⟨(Nat.one_mul _).symm ▸ small, rfl⟩] at made
      cases made

theorem Whole.insert (whole : memory.Whole) {bytes : Array UInt8}
    (size : bytes.size = memory.blockSize) (fetches writebacks : Nat) :
    Whole { memory with blocks := memory.blocks.insert tag bytes, fetches, writebacks } := by
  intro other found isFound
  rw [Std.TreeMap.getElem?_insert] at isFound
  split at isFound
  · cases isFound
    exact size
  · exact whole isFound

theorem contents_insert (tag : Nat) (bytes : Array UInt8) (fetches writebacks : Nat) :
    contents { memory with blocks := memory.blocks.insert tag bytes, fetches, writebacks } =
      Function.update memory.contents tag bytes := by
  funext other
  rw [contents, Std.TreeMap.getElem?_insert]
  by_cases here : other = tag
  · subst here
    simp
  · have distinct : ¬ tag = other := fun same => here same.symm
    rw [Function.update_of_ne here]
    simp [distinct, contents]

def Unfetched (memory : Memory) (fault : Fault) : Prop :=
  (fault = .addOverflow ∧ 2 ^ 64 ≤ memory.fetches + 1) ∨ 2 ^ 63 ≤ memory.blockSize

theorem fetch_outcome (memory : Memory) (tag : Nat) :
    Ends (memory.fetch tag)
      (fun (bytes, after) => bytes = memory.contents tag ∧
        after = { memory with fetches := memory.fetches + 1 })
      memory.Unfetched := by
  refine (add_one_outcome memory.fetches).andThen (fun _ full => .inl full) ?_
  rintro _ rfl
  refine (block_outcome memory tag).andThen (fun _ large => .inr large) ?_
  rintro _ rfl
  exact ⟨rfl, rfl⟩

theorem Whole.fetchBlock_outcome (whole : memory.Whole) (tag : Nat) :
    Ends (fetchBlock memory tag)
      (fun (outcome, after) => outcome = .ok (memory.contents tag) ∧
        after = { memory with fetches := memory.fetches + 1 })
      memory.Unfetched := by
  have fetched : Ends (BlockStore.fetch memory tag)
      (fun (outcome, after) => outcome = .ok (memory.contents tag) ∧
        after = { memory with fetches := memory.fetches + 1 }) memory.Unfetched := by
    refine Ends.bind (fetch_outcome memory tag) ?_
    rintro ⟨_, _⟩ ⟨rfl, rfl⟩
    exact ⟨rfl, rfl⟩
  refine Ends.bind fetched ?_
  rintro ⟨_, _⟩ ⟨rfl, rfl⟩
  have size : (memory.contents tag).size =
      BlockStore.blockSize { memory with fetches := memory.fetches + 1 } := whole.size_contents tag
  dsimp only
  rw [if_pos size]
  exact ⟨rfl, rfl⟩

theorem writeback_outcome (memory : Memory) (tag : Nat) (bytes : Array UInt8) :
    Ends (memory.writeback tag bytes)
      (fun after => after = { memory with
        blocks := memory.blocks.insert tag bytes, writebacks := memory.writebacks + 1 })
      (fun fault => fault = .addOverflow ∧ 2 ^ 64 ≤ memory.writebacks + 1) := by
  refine Ends.bind (add_one_outcome memory.writebacks) ?_
  rintro _ rfl
  exact rfl

theorem writebackBlock_outcome (memory : Memory) (tag : Nat) (bytes : Array UInt8) :
    Ends (writebackBlock memory tag bytes)
      (fun (outcome, after) => bytes.size = memory.blockSize ∧ outcome = .ok () ∧
        after = { memory with
          blocks := memory.blocks.insert tag bytes, writebacks := memory.writebacks + 1 })
      (fun fault => bytes.size = memory.blockSize → fault = .addOverflow ∧
        2 ^ 64 ≤ memory.writebacks + 1) := by
  unfold writebackBlock
  split
  next size =>
    refine (writeback_outcome memory tag bytes).andThen (fun _ full _ => full) ?_
    rintro _ rfl
    exact ⟨size, rfl, rfl⟩
  next partly => exact fun size => absurd size partly

theorem serves : Serves Memory.Whole Memory.contents where
  fetch := by
    intro store after tag outcome whole served
    obtain ⟨answer, rfl⟩ := (whole.fetchBlock_outcome tag).of_eq_ok served
    exact ⟨answer, whole, rfl, rfl⟩
  writeback := by
    intro store after tag bytes outcome whole served
    obtain ⟨size, answer, rfl⟩ := (writebackBlock_outcome store tag bytes).of_eq_ok served
    exact ⟨answer, whole.insert size _ _, rfl, contents_insert _ _ _ _⟩

theorem count_of_supplied {fetched : Nat} {issued : List Writeback} (whole : memory.Whole)
    (supplied : Supplied memory fetched issued after) :
    after.fetches = memory.fetches + fetched ∧ after.writebacks = memory.writebacks + issued.length := by
  induction supplied with
  | none => exact ⟨rfl, rfl⟩
  | fetch served rest ih =>
    obtain ⟨_, rfl⟩ := (whole.fetchBlock_outcome _).of_eq_ok served
    obtain ⟨fetches, writebacks⟩ := ih whole
    dsimp only at fetches writebacks
    exact ⟨by omega, writebacks⟩
  | writeback served rest ih =>
    obtain ⟨size, _, rfl⟩ := (writebackBlock_outcome _ _ _).of_eq_ok served
    obtain ⟨fetches, writebacks⟩ := ih (whole.insert size _ _)
    dsimp only at fetches writebacks
    rw [List.length_cons]
    exact ⟨fetches, by omega⟩

/-- No count of what was served goes beyond a word. -/
theorem counts_lt_of_supplied {fetched : Nat} {issued : List Writeback} (whole : memory.Whole)
    (fetches_lt : memory.fetches < 2 ^ 64) (writebacks_lt : memory.writebacks < 2 ^ 64)
    (supplied : Supplied memory fetched issued after) :
    after.fetches < 2 ^ 64 ∧ after.writebacks < 2 ^ 64 := by
  induction supplied with
  | none => exact ⟨fetches_lt, writebacks_lt⟩
  | fetch served rest ih =>
    have counted := served
    obtain ⟨_, rfl⟩ := (whole.fetchBlock_outcome _).of_eq_ok served
    obtain ⟨_, fetched, _⟩ := bind_eq_ok_iff.mp counted
    obtain ⟨_, fetched, _⟩ := bind_eq_ok_iff.mp fetched
    obtain ⟨count, isCount, fetched⟩ := bind_eq_ok_iff.mp fetched
    obtain ⟨fits, _⟩ := Word.add_eq_ok_iff.mp isCount
    exact ih whole fits writebacks_lt
  | writeback served rest ih =>
    have counted := served
    obtain ⟨size, _, rfl⟩ := (writebackBlock_outcome _ _ _).of_eq_ok served
    rw [writebackBlock] at counted
    split at counted
    · obtain ⟨_, written, _⟩ := bind_eq_ok_iff.mp counted
      obtain ⟨count, isCount, _⟩ := bind_eq_ok_iff.mp written
      obtain ⟨fits, _⟩ := Word.add_eq_ok_iff.mp isCount
      exact ih (whole.insert size _ _) fetches_lt fits
    · cases counted

/-- A memory breaks only where it cannot count any further. -/
theorem overflow_of_breaks {fetches writebacks : Nat} {fault : Fault} (whole : memory.Whole)
    (small : memory.blockSize < 2 ^ 63) (breaks : Breaks memory fetches writebacks fault) :
    fault = .addOverflow ∧
      (2 ^ 64 ≤ memory.fetches + fetches ∨ 2 ^ 64 ≤ memory.writebacks + writebacks) := by
  obtain ⟨fetched, issued, middle, supplied, failed⟩ := breaks
  obtain ⟨whole', size, _⟩ := supplied.spec serves whole
  change middle.blockSize = memory.blockSize at size
  obtain ⟨countedFetches, countedWritebacks⟩ := count_of_supplied whole supplied
  rcases failed with ⟨tag, failed, few, _⟩ | ⟨tag, bytes, failed, isWhole, _, few⟩
  · have outcome := whole'.fetchBlock_outcome tag
    rw [failed] at outcome
    rcases outcome with ⟨overflow, full⟩ | large
    · exact ⟨overflow, .inl (by omega)⟩
    · omega
  · have outcome := writebackBlock_outcome middle tag bytes
    rw [failed] at outcome
    obtain ⟨overflow, full⟩ := outcome isWhole
    exact ⟨overflow, .inr (by omega)⟩

/-- A memory is whole as long as only its own operations change it. -/
theorem whole_of_empty (blockSize : Nat) : Whole { blockSize } := by
  intro tag bytes found
  simp at found

theorem Whole.poke (whole : memory.Whole) {address : UInt64} {value : UInt8}
    (ran : memory.poke address value = .ok after) : after.Whole := by
  obtain ⟨⟨tag, offset⟩, _, ran⟩ := bind_eq_ok_iff.mp ran
  obtain ⟨bytes, found, ran⟩ := bind_eq_ok_iff.mp ran
  obtain rfl := (block_outcome memory tag).of_eq_ok found
  split at ran
  · cases ran
    exact whole.insert (Array.size_setIfInBounds.trans (whole.size_contents tag)) _ _
  · cases ran

theorem Whole.peek_eq (whole : memory.Whole) (positive : 0 < memory.blockSize) (address : UInt64) :
    ∃ byte, memory.peek address = .ok byte ∧
      (memory.contents (address.toNat / memory.blockSize))[address.toNat % memory.blockSize]? =
        some byte := by
  have tag : Word.div address.toNat memory.blockSize = .ok (address.toNat / memory.blockSize) :=
    Word.div_eq_ok_iff.mpr ⟨by omega, rfl⟩
  have offset : Word.rem address.toNat memory.blockSize = .ok (address.toNat % memory.blockSize) :=
    Word.rem_eq_ok_iff.mpr ⟨by omega, rfl⟩
  have inside : address.toNat % memory.blockSize < memory.blockSize := Nat.mod_lt _ positive
  rw [peek, locate, tag, ok_bind, offset, ok_bind, pure_eq_ok, ok_bind]
  dsimp only
  rw [contents]
  cases found : memory.blocks[address.toNat / memory.blockSize]? with
  | none => exact ⟨0, rfl, by simp [inside]⟩
  | some bytes =>
    have fits : address.toNat % memory.blockSize < bytes.size := by
      rw [whole found]
      exact inside
    have isByte := Array.getElem?_eq_getElem fits
    refine ⟨_, ?_, isByte⟩
    dsimp only
    rw [isByte]
    rfl

end Memory

end TrieCache
