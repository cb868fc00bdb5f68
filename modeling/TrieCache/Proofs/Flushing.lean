import Mathlib.Data.Finset.Card
import TrieCache.Proofs.FlatMemory

/-!
# What a flush leaves

A flush counts the copies that changed, and no two of them are of one block.  It sends them
all, so afterwards the memory itself has what reads answer, and another flush finds nothing
to do.
-/

namespace TrieCache

namespace Cache

variable {cache : Cache} {index : Nat} {block : Block}

def dirtyTags (cache : Cache) : Finset Nat :=
  ((cache.pool.blocks.toList.filter Block.dirty).map Block.tag).toFinset

/-- Only data blocks change. -/
theorem any_dirty_copies (tidy : cache.Tidy) (found : cache.pool.blocks[index]? = some block) :
    (cache.view.copies index).any Copy.dirty = block.dirty := by
  rw [copies_of_block found, Block.copy?]
  cases tidy.shaped index block found with
  | unbuilt valid level payload clean => simp [valid, clean]
  | table valid level_pos level_lt links payload size clean => simp [clean, Nat.ne_of_lt level_lt]
  | leaf valid level bytes payload size => simp [valid, level]

theorem exists_copy_of_dirty (tidy : cache.Tidy) (found : cache.pool.blocks[index]? = some block)
    (dirty : block.dirty = true) :
    ∃ copy, cache.view.copies index = some copy ∧ copy.dirty = true ∧ copy.tag = block.tag := by
  have isDirty := (any_dirty_copies tidy found).trans dirty
  cases holds : cache.view.copies index with
  | none =>
    rw [holds] at isDirty
    cases isDirty
  | some copy =>
    rw [holds] at isDirty
    rw [copies_of_block found] at holds
    obtain ⟨_, _, rfl⟩ := Block.copy?_eq_some_iff.mp holds
    exact ⟨_, rfl, isDirty, rfl⟩

theorem changed_eq_countP (tidy : cache.Tidy) :
    cache.view.changed = cache.pool.blocks.toList.countP Block.dirty := by
  rw [View.changed, countP_eq_range cache.pool.blocks.toList, Array.length_toList]
  refine List.countP_congr fun index inside => ?_
  obtain ⟨block, found⟩ := Pool.exists_block (List.mem_range.mp inside)
  rw [any_dirty_copies tidy found, Array.getElem?_toList, found]
  rfl

/-- Where changed copies are of different blocks, their number is that of the blocks. -/
theorem card_dirtyTags (tidy : cache.Tidy)
    (single : ∀ {first second : Nat} {one other : Copy}, cache.view.copies first = some one →
      cache.view.copies second = some other → one.dirty = true → other.dirty = true →
        one.tag = other.tag → first = second) :
    cache.dirtyTags.card = cache.view.changed := by
  rw [dirtyTags, List.toFinset_card_of_nodup, List.length_map, ← List.countP_eq_length_filter,
    changed_eq_countP tidy]
  rw [List.Nodup, List.pairwise_map, List.pairwise_filter, List.pairwise_iff_getElem]
  intro first second first_lt second_lt before dirty dirty' sameTag
  have found : ∀ {index : Nat} (inside : index < cache.pool.blocks.toList.length),
      cache.pool.blocks[index]? = some cache.pool.blocks.toList[index] := by
    intro index inside
    rw [← Array.getElem?_toList, List.getElem?_eq_getElem inside]
  obtain ⟨one, holds, changed, tagged⟩ := exists_copy_of_dirty tidy (found first_lt) dirty
  obtain ⟨other, holds', changed', tagged'⟩ := exists_copy_of_dirty tidy (found second_lt) dirty'
  have same := single holds holds' changed changed' (tagged.trans (sameTag.trans tagged'.symm))
  exact absurd same (Nat.ne_of_lt before)

theorem flushBlock_counts (tidy : cache.Tidy) (flushed index : Nat) :
    (cache.flushBlock flushed index).1 + cache.view.queue.length =
      flushed + (cache.flushBlock flushed index).2.view.queue.length := by
  unfold flushBlock
  cases found : cache.pool.blocks[index]? with
  | none => rfl
  | some block =>
    dsimp only
    split
    next cleans =>
      obtain ⟨leaf, _⟩ := Bool.and_eq_true_iff.mp cleans
      obtain ⟨copy, _, _, _, _, view⟩ := clean_spec tidy found leaf
      rw [view, List.length_append, List.length_singleton]
      omega
    next => rfl

theorem flushDirty_counts (tidy : cache.Tidy) :
    cache.flushDirty.1 + cache.view.queue.length = cache.flushDirty.2.view.queue.length := by
  have counts : ∀ (indices : List Nat) (state : Nat × Cache), state.2.Tidy →
      (indices.foldl (fun state index => state.2.flushBlock state.1 index) state).1 +
          state.2.view.queue.length =
        state.1 + (indices.foldl (fun state index => state.2.flushBlock state.1 index)
          state).2.view.queue.length := by
    intro indices
    induction indices with
    | nil => exact fun _ _ => rfl
    | cons index rest ih =>
      intro state tidy
      have first := flushBlock_counts tidy state.1 index
      have others := ih (state.2.flushBlock state.1 index) (flushBlock_spec tidy _ _).1
      rw [List.foldl_cons]
      omega
  have whole := counts (List.range cache.pool.capacity) (0, cache) tidy
  rw [Nat.zero_add] at whole
  exact whole

/-- A flush cleans every block, and answers how many there were to clean. -/
theorem flushDirty_cleans (tidy : cache.Tidy) :
    cache.flushDirty.1 = cache.view.changed ∧
      ∀ {index : Nat} {block : Block},
        cache.flushDirty.2.pool.blocks[index]? = some block → block.dirty = false := by
  obtain ⟨tidy', published⟩ := flushDirty_spec tidy
  have clean : ∀ index, (cache.flushDirty.2.view.copies index).any Copy.dirty = false := by
    intro index
    rw [published.copies]
    cases cache.view.copies index <;> simp [Copy.clean]
  have unchanged : cache.flushDirty.2.view.changed = 0 :=
    List.countP_eq_zero.mpr fun index _ => by simp [clean index]
  have counted := flushDirty_counts tidy
  have pending := published.pending
  rw [View.pending, View.pending, unchanged] at pending
  exact ⟨by omega, fun found => (any_dirty_copies tidy' found).symm.trans (clean _)⟩

theorem dirty_eq_false_of_clean (clean : ∀ {index : Nat} {block : Block},
    cache.pool.blocks[index]? = some block → block.dirty = false) {copy : Copy}
    (holds : cache.view.copies index = some copy) : copy.dirty = false := by
  obtain ⟨block, found, seen⟩ := Pool.look_eq_some_iff.mp holds
  obtain ⟨_, _, rfl⟩ := Block.copy?_eq_some_iff.mp seen
  exact clean found

theorem flushDirty_of_clean (clean : ∀ {index : Nat} {block : Block},
    cache.pool.blocks[index]? = some block → block.dirty = false) : cache.flushDirty = (0, cache) := by
  have still : ∀ index, cache.flushBlock 0 index = (0, cache) := by
    intro index
    unfold flushBlock
    cases found : cache.pool.blocks[index]? with
    | none => rfl
    | some block => simp [clean found]
  have fixed : ∀ indices : List Nat, indices.foldl
      (fun progress index => progress.2.flushBlock progress.1 index) (0, cache) = (0, cache) := by
    intro indices
    induction indices with
    | nil => rfl
    | cons index rest ih =>
      rw [List.foldl_cons]
      dsimp only
      rw [still]
      exact ih
  exact fixed _

end Cache

namespace BackedCache

theorem flush_eq_ok {σ : Type} [BlockStore σ] {backed after : BackedCache σ} {flushed : Nat}
    (ran : backed.flush = .ok (.ok flushed, after)) :
    flushed = backed.cache.flushDirty.1 ∧
      after.cache = backed.cache.flushDirty.2.drainWritebacks.2 := by
  obtain ⟨⟨outcome, sent⟩, isSent, same⟩ := bind_eq_ok_iff.mp ran
  cases outcome with
  | error error => cases same
  | ok _ =>
    cases same
    obtain ⟨⟨outcome, store⟩, _, same⟩ := bind_eq_ok_iff.mp isSent
    cases outcome <;> cases same
    exact ⟨rfl, rfl⟩

variable {memory : Memory} {earlier commands : List Command} {locked : Nat → Bool} {flat : Blocks}
  {backed after : BackedCache Memory}

/-- A flush has published all changes: it answered the number of blocks that had a changed
copy, the memory has every byte as it was read before and is read now, and there is nothing
left to flush. -/
structure Flushed (memory : Memory) (count : Nat) (before after : BackedCache Memory)
    (flushed : Nat) : Prop where
  flushed_eq : flushed = before.cache.dirtyTags.card
  published {address : Address} (inRange : before.cache.layout.contains address = true) :
    ∃ value, after.store.peek address = .ok value ∧
      Ends (before.read address) (fun (outcome, _) => outcome = .ok value)
        (Exhausted memory (count + 1)) ∧
      Ends (after.read address) (fun (outcome, _) => outcome = .ok value)
        (Exhausted memory (count + 2))
  clean {index : Nat} {block : Block} : after.cache.pool.blocks[index]? = some block →
    block.dirty = false
  idle : after.cache.writebacks = #[]
  again : after.flush = .ok (.ok 0, after)

namespace Running

variable (running : Running memory earlier locked flat backed)
include running

theorem read {address : Address} {value : UInt8}
    (inRange : backed.cache.layout.contains address = true)
    (isExpected : expected memory earlier address = .ok value) :
    Ends (backed.read address) (fun (outcome, _) => outcome = .ok value)
      (Exhausted memory (earlier.length + 1)) := by
  have admits : Admits backed.cache.layout backed.cache.pool.capacity locked (.read address) :=
    inRange
  refine (Ends.of_wrapped (running.run admits)).mono ?_ fun _ exhausted => exhausted
  rintro ⟨outcome, after⟩ ⟨_, refines, _⟩
  cases outcome with
  | error error => cases refines
  | ok value' =>
    cases isExpected.symm.trans refines
    rfl

theorem flush :
    Ends backed.flush
      (fun (outcome, after) => (∃ flushed, outcome = .ok flushed) ∧
        after.cache.frame = backed.cache.frame ∧
        Running memory (earlier ++ [.flush]) locked flat after)
      (Exhausted memory (earlier.length + 1)) := by
  have admits : Admits backed.cache.layout backed.cache.pool.capacity locked .flush := trivial
  refine (Ends.of_wrapped (running.run admits)).mono ?_ fun _ exhausted => exhausted
  rintro ⟨outcome, after⟩ ⟨frame, refines, running'⟩
  cases outcome with
  | error error => cases refines
  | ok flushed => exact ⟨⟨flushed, rfl⟩, frame, running'⟩

/-- With every block clean, the memory has the bytes that are expected. -/
theorem peek_eq (clean : ∀ {index : Nat} {block : Block},
    backed.cache.pool.blocks[index]? = some block → block.dirty = false) (address : Address) :
    ∃ value, backed.store.peek address = .ok value ∧
      expected memory earlier address = .ok value := by
  have faithful := running.faithful
  have whole : backed.store.Whole := faithful.good
  have size : backed.store.blockSize = backed.cache.layout.blockBytes := faithful.blockSize_eq
  have positive : 0 < backed.store.blockSize := size ▸ backed.cache.layout.blockBytes_pos
  obtain ⟨value, peeked, found⟩ := whole.peek_eq positive address
  have stored : backed.store.contents (backed.cache.layout.blockOf address) =
      flat (backed.cache.layout.blockOf address) :=
    faithful.coherent.stored_eq running.idle fun holds _ => Cache.dirty_eq_false_of_clean clean holds
  rw [size] at found
  change (backed.store.contents (backed.cache.layout.blockOf address))[
    backed.cache.layout.placeOf address]? = some value at found
  rw [stored] at found
  exact ⟨value, peeked, running.pictures.eq_expected found⟩

theorem flushed_of_flush {flushed : Nat} (ran : backed.flush = .ok (.ok flushed, after))
    (frame : after.cache.frame = backed.cache.frame)
    (running' : Running memory (earlier ++ [.flush]) locked flat after) :
    Flushed memory earlier.length backed after flushed := by
  have tidy := running.faithful.tidy
  obtain ⟨rfl, drained⟩ := flush_eq_ok ran
  obtain ⟨counted, cleaned⟩ := Cache.flushDirty_cleans tidy
  have clean : ∀ {index : Nat} {block : Block},
      after.cache.pool.blocks[index]? = some block → block.dirty = false := by
    rw [drained]
    exact cleaned
  have idle : after.cache.writebacks = #[] := by
    rw [drained]
    rfl
  refine ⟨?_, fun {address} inRange => ?_, clean, idle, ?_⟩
  · rw [counted, Cache.card_dirtyTags tidy running.faithful.coherent.single]
  · have layout : after.cache.layout = backed.cache.layout := congrArg Frame.layout frame
    obtain ⟨value, peeked, isExpected⟩ := running'.peek_eq clean address
    have reads := running'.read (layout ▸ inRange) isExpected
    rw [List.length_append] at reads
    rw [expected_append] at isExpected
    exact ⟨value, peeked, running.read inRange isExpected, reads⟩
  · rw [BackedCache.flush, Cache.flushDirty_of_clean clean]
    dsimp only
    rw [drain_of_idle idle]
    rfl

end Running

/-- Before a memory that serves every request, a flush at any point of a run publishes all
changes, and leaves another flush nothing to do. -/
theorem flushed_of_ofConfig {config : Config} {cache : Cache} (usable : config.Usable)
    (made : Cache.ofConfig config = .ok cache) (whole : memory.Whole)
    (sized : memory.blockSize = config.blockSize.toNat)
    (admissible : Admissible cache.layout cache.pool.capacity (fun _ => false) commands) :
    ∃ backed, ofCache cache memory = .ok backed ∧
      Ends (backed.runAll commands)
        (fun (_, reached) =>
          Ends reached.flush
            (fun (outcome, after) => ∃ flushed, outcome = .ok flushed ∧
              Flushed memory commands.length reached after flushed)
            (Exhausted memory (commands.length + 1)))
        (Exhausted memory commands.length) := by
  obtain ⟨joined, running⟩ := joins_of_ofConfig usable made whole sized
  refine ⟨_, joined, ?_⟩
  have outcome := running.reaches admissible
  rw [List.length_nil, Nat.zero_add] at outcome
  refine outcome.mono ?_ fun _ exhausted => exhausted
  rintro ⟨replies, reached⟩ ⟨_, _, locked, flat, running'⟩
  rw [List.nil_append] at running'
  refine running'.flush.attach.mono ?_ fun _ exhausted => exhausted
  rintro ⟨outcome, after⟩ ⟨ran, ⟨flushed, rfl⟩, frame, running''⟩
  exact ⟨flushed, rfl, running'.flushed_of_flush ran frame running''⟩

/-- Two of the three blocks that were written are still in the cache, and changed. -/
theorem flushed_after_eviction : ∃ cache backed replies reached after,
    Cache.ofConfig .tiny = .ok cache ∧ ofCache cache ({ blockSize := 4 } : Memory) = .ok backed ∧
      backed.runAll [.write 0x01 7, .write 0x08 9, .read 0x10, .read 0x18, .read 0x20,
        .write 0x22 5] = .ok (replies, reached) ∧
      reached.flush = .ok (.ok 2, after) ∧ Flushed { blockSize := 4 } 6 reached after 2 := by
  have answers : (do
      let cache ← Cache.ofConfig .tiny
      let result ← BackedCache.runAll { cache, store := ({ blockSize := 4 } : Memory) }
        [.write 0x01 7, .write 0x08 9, .read 0x10, .read 0x18, .read 0x20, .write 0x22 5]
      let result' ← result.2.flush
      return (result'.1, decide (Admissible cache.layout cache.pool.capacity (fun _ => false)
        [.write 0x01 7, .write 0x08 9, .read 0x10, .read 0x18, .read 0x20, .write 0x22 5]))) =
      .ok (.ok 2, true) := by decide +kernel
  obtain ⟨cache, made, answers⟩ := bind_eq_ok_iff.mp answers
  obtain ⟨⟨replies, reached⟩, ran, answers⟩ := bind_eq_ok_iff.mp answers
  obtain ⟨⟨outcome, after⟩, flushes, answers⟩ := bind_eq_ok_iff.mp answers
  simp only [pure_eq_ok, Except.ok.injEq, Prod.mk.injEq, decide_eq_true_eq] at answers
  obtain ⟨rfl, admissible⟩ := answers
  obtain ⟨backed, joined, outcome⟩ :=
    flushed_of_ofConfig usable_tiny made (Memory.whole_of_empty 4) rfl admissible
  obtain ⟨joined', _⟩ := joins_of_ofConfig usable_tiny made (Memory.whole_of_empty 4) rfl
  cases joined.symm.trans joined'
  obtain ⟨flushed, same, leaves⟩ := (outcome.of_eq_ok ran).of_eq_ok flushes
  cases same
  exact ⟨cache, _, replies, reached, after, made, joined, ran, flushes, leaves⟩

end BackedCache

end TrieCache
