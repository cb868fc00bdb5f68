import TrieCache.Proofs.Growth
import TrieCache.Proofs.Records

/-!
# Caches that are only read

A cache that is read and filled, and never written to or locked, holds nothing to write
back: evictions queue no block, and every copy is what it was filled with.  Nothing stops
an access to it but the count of insertions into the fast path.  A read finds its byte, or
the block can be filled in and is found by the next read.
-/

namespace TrieCache

namespace Stats

/-- What replacement did, without the counts of what was found where. -/
def work (stats : Stats) : Stats :=
  { stats with
    accesses := 0, hits := 0, misses := 0, fastPathHits := 0, slowPathHits := 0,
    fastPathEvictions := 0 }

end Stats

theorem View.Accessed.copies_eq {before after : View} {tag place : Nat} {byte : Option UInt8}
    (accessed : before.Accessed tag place .read byte after) : after.copies = before.copies := by
  cases accessed with
  | miss unresolved => rfl
  | @hit middle index copy byte rerouted resolves direct holds tagged answer =>
    change Function.update before.copies index (some copy) = before.copies
    rw [← holds, Function.update_eq_self]

namespace Cache

variable {cache middle after : Cache} {address : Address} {index : Nat} {block : Array UInt8}

section Reading

/-- What a read leaves alone. -/
structure Browsed (before after : Cache) : Prop where
  work : after.stats.work = before.stats.work
  writebacks : after.writebacks = before.writebacks
  cursor : after.cursor = before.cursor

theorem Browsed.trans (first : cache.Browsed middle) (second : middle.Browsed after) :
    cache.Browsed after where
  work := second.work.trans first.work
  writebacks := second.writebacks.trans first.writebacks
  cursor := second.cursor.trans first.cursor

theorem stable_cursor : Stable fun before after => after.cursor = before.cursor where
  refl _ := rfl
  trans first second := second.trans first
  block _ _ _ := rfl
  top _ _ := rfl
  shortcut _ _ := rfl
  queued _ _ _ := rfl
  orphans _ _ := rfl
  leafEviction _ := rfl

theorem browsed_of_search {walk : Walk} (ran : cache.search address = .ok (walk, after)) :
    cache.Browsed after := by
  obtain ⟨pool, _, hand, rfl⟩ := aged_of_search ran
  exact ⟨rfl, rfl, hand⟩

theorem browsed_of_installFastPath {tag : Nat}
    (ran : cache.installFastPath tag index = .ok after) : cache.Browsed after := by
  obtain ⟨evicted, fastPath, _, rfl⟩ := filed_of_installFastPath ran
  cases evicted <;> exact ⟨rfl, rfl, rfl⟩

theorem browsed_of_resolve {found : Option Nat}
    (ran : cache.resolve address = .ok (found, after)) : cache.Browsed after := by
  cases resolved_of_resolve ran with
  | direct searched => exact (browsed_of_search searched).trans ⟨rfl, rfl, rfl⟩
  | @walked walked _ _ _ searched _ _ filed =>
    have counted : walked.Browsed (walked.record Stats.recordSlowPathHit) := ⟨rfl, rfl, rfl⟩
    exact ((browsed_of_search searched).trans counted).trans (browsed_of_installFastPath filed)
  | missed searched => exact (browsed_of_search searched).trans ⟨rfl, rfl, rfl⟩

theorem browsed_of_read {found : Option UInt8} (ran : cache.read address = .ok (found, after)) :
    cache.Browsed after := by
  obtain ⟨_, resolved⟩ := resolve_of_read ran
  have counted : cache.Browsed (cache.record Stats.recordAccess) := ⟨rfl, rfl, rfl⟩
  exact counted.trans (browsed_of_resolve resolved)

end Reading

section Tallying

/-- Every block that is counted as written back joins the queue. -/
structure Tallied (before after : Cache) : Prop where
  size_le : before.writebacks.size ≤ after.writebacks.size
  same : after.writebacks.size = before.writebacks.size →
    after.stats.writebacks = before.stats.writebacks

theorem Tallied.trans (first : cache.Tallied middle) (second : middle.Tallied after) :
    cache.Tallied after where
  size_le := first.size_le.trans second.size_le
  same := by
    intro same
    have first_le := first.size_le
    have second_le := second.size_le
    exact (second.same (by omega)).trans (first.same (by omega))

theorem stable_tallied : Stable Tallied where
  refl _ := ⟨le_rfl, fun _ => rfl⟩
  trans := .trans
  block _ _ _ := ⟨le_rfl, fun _ => rfl⟩
  top _ _ := ⟨le_rfl, fun _ => rfl⟩
  shortcut _ _ := ⟨le_rfl, fun _ => rfl⟩
  queued cache tag bytes := by
    have size : (cache.queueWriteback tag bytes).writebacks.size = cache.writebacks.size + 1 :=
      Array.size_push ..
    exact ⟨by omega, fun same => by omega⟩
  orphans _ _ := ⟨le_rfl, fun _ => rfl⟩
  leafEviction _ := ⟨le_rfl, fun _ => rfl⟩

theorem tallied_of_swept (cache : Cache) (pool : Pool) (fallback : Bool) :
    cache.Tallied { cache with pool, stats := cache.stats.recordVictim fallback } := by
  cases fallback <;> exact ⟨le_rfl, fun _ => rfl⟩

theorem Browsed.issued (browsed : cache.Browsed after) :
    after.stats.writebacks = cache.stats.writebacks :=
  show after.stats.work.writebacks = cache.stats.work.writebacks from
    congrArg Stats.writebacks browsed.work

theorem Browsed.tallied (browsed : cache.Browsed after) : cache.Tallied after where
  size_le := (congrArg Array.size browsed.writebacks).ge
  same := fun _ => browsed.issued

theorem Staged.tallied {content : Nat → Array UInt8 → Array UInt8} {built : List Nat}
    (staged : cache.Staged address content built after) : cache.Tallied after := by
  cases staged with
  | mk _ searched _ _ _ _ _ _ path _ changed installed =>
    have hung := (browsed_of_search searched).tallied.trans
      (stable_tallied.buildPath tallied_of_swept path)
    have labelled := hung.trans (stable_tallied.updateBlock changed)
    have indexed := labelled.trans (browsed_of_installFastPath installed).tallied
    exact ⟨indexed.size_le, indexed.same⟩

end Tallying

section Recording

theorem stable_trimmed :
    Stable fun before after => before.fastPath.Trimmed → after.fastPath.Trimmed where
  refl _ := id
  trans first second := second ∘ first
  block _ _ _ := id
  top _ _ := id
  shortcut _ tag trimmed := (trimmed.remove tag).1
  queued _ _ _ := id
  orphans _ _ := id
  leafEviction _ := id

theorem trimmed_of_installFastPath {tag : Nat} (trimmed : cache.fastPath.Trimmed)
    (ran : cache.installFastPath tag index = .ok after) : after.fastPath.Trimmed := by
  obtain ⟨evicted, fastPath, inserted, rfl⟩ := filed_of_installFastPath ran
  exact ((trimmed.insert tag index).of_eq_ok inserted).1

theorem trimmed_of_search {walk : Walk} (trimmed : cache.fastPath.Trimmed)
    (ran : cache.search address = .ok (walk, after)) : after.fastPath.Trimmed :=
  stable_trimmed.search ran trimmed

theorem trimmed_of_read {found : Option UInt8} (trimmed : cache.fastPath.Trimmed)
    (ran : cache.read address = .ok (found, after)) : after.fastPath.Trimmed := by
  obtain ⟨_, resolved⟩ := resolve_of_read ran
  have counted : (cache.record Stats.recordAccess).fastPath.Trimmed := trimmed
  cases resolved_of_resolve resolved with
  | direct searched =>
    have walked := trimmed_of_search counted searched
    exact walked
  | @walked walked _ _ _ searched _ _ filed =>
    have found := trimmed_of_search counted searched
    have recorded : (walked.record Stats.recordSlowPathHit).fastPath.Trimmed := found
    exact trimmed_of_installFastPath recorded filed
  | missed searched =>
    have walked := trimmed_of_search counted searched
    exact walked

theorem Staged.trimmed {content : Nat → Array UInt8 → Array UInt8} {built : List Nat}
    (staged : cache.Staged address content built after) (trimmed : cache.fastPath.Trimmed) :
    after.fastPath.Trimmed := by
  cases staged with
  | mk _ searched _ _ _ _ _ _ path _ changed installed =>
    have hung := stable_trimmed.buildPath (fun _ _ _ => id) path (trimmed_of_search trimmed searched)
    have indexed := trimmed_of_installFastPath (stable_trimmed.updateBlock changed hung) installed
    exact indexed

end Recording

/-- Nothing in a cache was ever written to, and nothing is locked. -/
structure Unwritten (cache : Cache) : Prop where
  tidy : cache.Tidy
  sound : cache.view.Sound
  clean {index : Nat} {copy : Copy} : cache.view.copies index = some copy → copy.dirty = false
  idle : cache.writebacks = #[]
  issued : cache.stats.writebacks = 0
  unlocked {index : Nat} : index < cache.pool.capacity → cache.view.locked index = some false
  fastPath_lt : cache.fastPath.capacity < 2 ^ 63
  trimmed : cache.fastPath.Trimmed

theorem unwritten_of_ofConfig {config : Config} (usable : config.Usable)
    (made : ofConfig config = .ok cache) : cache.Unwritten := by
  obtain ⟨_, _, _, _, _, _, _, isFastPath, _⟩ := ofConfig_spec made
  have blank := blank_of_ofConfig made
  have capacity := (FastPath.recorded_of_ofCapacity isFastPath).2.1
  refine ⟨tidy_of_ofConfig made, blank.sound (founded_of_ofConfig made usable.span usable.levels_lt),
    fun {index copy} holds => ?_, Array.toList_eq_nil_iff.mp blank.queue, ?_,
    BackedCache.locked_of_ofConfig made, capacity ▸ usable.fastPathSize_lt,
    (FastPath.trimmed_of_ofCapacity isFastPath).1⟩
  · rw [blank.copies] at holds
    cases holds
  · rw [stats_of_ofConfig made]

namespace Unwritten

variable (unwritten : cache.Unwritten)
include unwritten

theorem not_dirty {block : Block} (found : cache.pool.blocks[index]? = some block) :
    block.dirty = false := by
  cases unwritten.tidy.shaped _ _ found with
  | unbuilt _ _ _ dirty => exact dirty
  | table _ _ _ _ _ _ dirty => exact dirty
  | leaf valid level _ _ _ =>
    have holds : cache.view.copies index = some _ :=
      (Pool.look_of_block found _).trans (Block.copy?_eq_some_iff.mpr ⟨valid, level, rfl⟩)
    exact unwritten.clean holds

theorem unlocked_eq : cache.view.unlocked = cache.pool.capacity := by
  have all : (List.range cache.pool.capacity).filter
      (fun index => cache.view.locked index == some false) = List.range cache.pool.capacity := by
    refine List.filter_eq_self.mpr fun index inside => ?_
    rw [unwritten.unlocked (List.mem_range.mp inside)]
    rfl
  exact (congrArg List.length all).trans List.length_range

theorem not_fastPathOverflow (countable : cache.view.sequence + 1 < 2 ^ 64) (fault : Fault) :
    ¬ FastPathOverflow cache.view fault := by
  rintro (⟨_, full⟩ | ⟨_, large⟩)
  · exact absurd countable (Nat.not_lt_of_le full)
  · exact absurd unwritten.fastPath_lt (Nat.not_lt_of_le large)

theorem of_read {found : Option UInt8} (ran : cache.read address = .ok (found, after)) :
    after.Unwritten ∧ cache.view.Accessed (cache.layout.blockOf address)
      (cache.layout.placeOf address) .read found after.view := by
  obtain ⟨tidy, accessed⟩ :=
    (access_outcome unwritten.sound unwritten.tidy address .read).of_eq_ok ran
  have browsed := browsed_of_read ran
  have capacity : after.pool.capacity = cache.pool.capacity :=
    congrArg Frame.capacity accessed.frame
  have fastPath : after.fastPath.capacity = cache.fastPath.capacity :=
    congrArg Frame.fastPathCapacity accessed.frame
  refine ⟨⟨tidy, accessed.sound unwritten.sound, ?_, ?_, ?_, ?_, ?_,
    trimmed_of_read unwritten.trimmed ran⟩, accessed⟩
  · rw [accessed.copies_eq]
    exact unwritten.clean
  · rw [browsed.writebacks, unwritten.idle]
  · rw [browsed.issued, unwritten.issued]
  · rw [accessed.locked, capacity]
    exact unwritten.unlocked
  · rw [fastPath]
    exact unwritten.fastPath_lt

theorem read (inRange : cache.layout.contains address = true)
    (countable : cache.view.sequence + 1 < 2 ^ 64) :
    ∃ found after, cache.read address = .ok (found, after) := by
  obtain ⟨⟨found, after⟩, ran, _⟩ :=
    (access_outcome unwritten.sound unwritten.tidy address .read).exists_ok fun fault failed => by
      rcases failed with outside | ⟨_, overflow⟩
      · rw [inRange] at outside
        cases outside
      · exact unwritten.not_fastPathOverflow countable fault overflow
  exact ⟨found, after, ran⟩

theorem read_of_shortcut {leaf : Nat} {copy : Copy}
    (inRange : cache.layout.contains address = true)
    (leads : cache.view.shortcut (cache.layout.blockOf address) = some leaf)
    (holds : cache.view.copies leaf = some copy) :
    ∃ byte after, cache.read address = .ok (some byte, after) ∧ after.Unwritten ∧
      after.view = cache.view ∧ copy.bytes[cache.layout.placeOf address]? = some byte := by
  obtain ⟨⟨found, after⟩, ran, _⟩ :=
    (access_outcome unwritten.sound unwritten.tidy address .read).exists_ok fun fault failed => by
      rcases failed with outside | ⟨absent, _⟩
      · rw [inRange] at outside
        cases outside
      · rw [leads] at absent
        cases absent
  obtain ⟨unwritten', accessed⟩ := unwritten.of_read ran
  have copies := accessed.copies_eq
  generalize view_eq : after.view = view at accessed copies
  cases accessed with
  | miss unresolved => exact absurd (.inl leads) (unresolved leaf)
  | @hit middle target held byte rerouted resolves direct holds' tagged answer =>
    have isLeaf : target = leaf := unwritten.sound.resolves_unique resolves (.inl leads)
    rw [isLeaf, holds] at holds'
    cases holds'
    have same : middle = cache.view := direct (by rw [leads]; exact Option.some_ne_none _)
    refine ⟨byte, after, ran, unwritten', ?_, answer⟩
    rw [view_eq, same]
    exact congrArg (fun copies => { cache.view with copies }) copies

/-- Whatever got through an insertion left nothing to write back. -/
theorem of_installPath {content : Nat → Array UInt8 → Array UInt8} {bytes : Array UInt8}
    (bytes_eq : content (cache.layout.placeOf address)
      (Array.replicate cache.layout.blockBytes 0) = bytes)
    (whole : bytes.size = cache.layout.blockBytes) {built : List Nat}
    (ran : cache.installPath address content = .ok (built, after)) : after.Unwritten := by
  obtain ⟨leaf, _, tidy, sound, inserted⟩ :=
    (installPath_outcome unwritten.sound unwritten.tidy bytes_eq whole).of_eq_ok ran
  have staged := staged_of_installPath unwritten.sound unwritten.tidy ran
  have frame := inserted.frame
  have capacity : after.pool.capacity = cache.pool.capacity := congrArg Frame.capacity frame
  have fastPath : after.fastPath.capacity = cache.fastPath.capacity :=
    congrArg Frame.fastPathCapacity frame
  have idle : after.writebacks = #[] := by
    obtain ⟨added, queue, fromBefore, _⟩ := inserted.queue
    have nothing : added = [] := by
      refine List.eq_nil_iff_forall_not_mem.mpr fun writeback isAdded => ?_
      obtain ⟨_, copy, holds, dirty, _⟩ := fromBefore writeback isAdded
      rw [unwritten.clean holds] at dirty
      cases dirty
    have none : cache.view.queue = [] := congrArg Array.toList unwritten.idle
    rw [nothing, none] at queue
    exact Array.toList_eq_nil_iff.mp queue
  refine ⟨tidy, sound, fun {index copy} holds => ?_, idle, ?_, ?_, ?_,
    staged.trimmed unwritten.trimmed⟩
  · by_cases isLeaf : index = leaf
    · rw [isLeaf, inserted.held] at holds
      cases holds
      rfl
    · exact unwritten.clean (inserted.copies isLeaf holds)
  · exact (staged.tallied.same (by rw [idle, unwritten.idle])).trans unwritten.issued
  · rw [inserted.locked, capacity]
    exact unwritten.unlocked
  · rw [fastPath]
    exact unwritten.fastPath_lt

theorem fill (inRange : cache.layout.contains address = true)
    (unresolved : ∀ index, ¬ cache.view.Resolves (cache.layout.blockOf address) index)
    (whole : block.size = cache.layout.blockBytes)
    (countable : cache.view.sequence + 1 < 2 ^ 64) :
    ∃ built leaf after, cache.installPath address (fun _ _ => block) = .ok (built, after) ∧
      cache.fill address block = .ok (leaf, after) ∧ after.Unwritten ∧
      cache.view.Inserted (cache.layout.blockOf address) block leaf after.view := by
  have regular : cache.layout.Regular := unwritten.sound.founded.regular
  have room : cache.layout.depth < cache.pool.capacity := unwritten.sound.founded.depth_lt
  have outcome : Ends (cache.installPath address fun _ _ => block) _ _ :=
    installPath_outcome unwritten.sound unwritten.tidy rfl whole
  obtain ⟨⟨built, after⟩, ran, leaf, isLast, _, _, inserted⟩ :=
    outcome.exists_ok fun fault failed => by
      cases failed with
      | outside outside => exact absurd (inRange.symm.trans outside) (by simp)
      | present index resolves => exact unresolved index resolves
      | noRoom noRoom =>
        have few := noRoom.2
        rw [unwritten.unlocked_eq] at few
        exact absurd few (Nat.not_lt_of_lt room)
      | overflow overflow => exact unwritten.not_fastPathOverflow countable fault overflow
  refine ⟨built, leaf, after, ran, ?_, unwritten.of_installPath rfl whole ran, inserted⟩
  have passed : require (decide (block.size = cache.layout.blockBytes))
      (.partialFill address.toNat block.size cache.layout.blockBytes) = .ok () :=
    require_eq_ok_iff.mpr (decide_eq_true whole)
  rw [Cache.fill, regular.blockSize_eq, ok_bind, passed, ok_bind, install, ran, ok_bind]
  dsimp only
  rw [isLast]
  rfl

end Unwritten

/-- An access to a block: a hit, or a miss after which the block was filled in and found. -/
inductive Served (cache : Cache) (address : Address) (block : Array UInt8) :
    (hit : Bool) → (after : Cache) → Prop
  | hit {byte : UInt8} {after : Cache} (found : cache.read address = .ok (some byte, after)) :
    Served cache address block true after
  | miss {built : List Nat} {leaf : Nat} {byte : UInt8} {missed filled after : Cache}
    (absent : cache.read address = .ok (none, missed)) (kept : missed.view = cache.view)
    (unwritten : missed.Unwritten)
    (installed : missed.installPath address (fun _ _ => block) = .ok (built, filled))
    (isFilled : missed.fill address block = .ok (leaf, filled)) (unwritten' : filled.Unwritten)
    (again : filled.read address = .ok (some byte, after))
    (same : after.view = filled.view)
    (answer : block[cache.layout.placeOf address]? = some byte) :
    Served cache address block false after

/-- An access to a cache that was only read gets through. -/
theorem Unwritten.served (unwritten : cache.Unwritten)
    (inRange : cache.layout.contains address = true)
    (whole : block.size = cache.layout.blockBytes)
    (countable : cache.view.sequence + 1 < 2 ^ 64) :
    ∃ hit after, cache.Served address block hit after ∧ after.Unwritten ∧
      after.frame = cache.frame ∧ after.view.sequence ≤ cache.view.sequence + 1 := by
  obtain ⟨found, missed, ran⟩ := unwritten.read inRange countable
  obtain ⟨unwritten', accessed⟩ := unwritten.of_read ran
  cases found with
  | some byte =>
    exact ⟨true, missed, .hit ran, unwritten', accessed.frame, accessed.sequence_le⟩
  | none =>
    obtain ⟨unresolved, view⟩ := accessed.unresolved
    have layout : missed.layout = cache.layout :=
      congrArg (fun view : View => view.frame.layout) view
    rw [← view, ← layout] at unresolved
    rw [← layout] at inRange whole
    rw [← view] at countable
    obtain ⟨built, leaf, filled, installed, isFilled, unwritten'', inserted⟩ :=
      unwritten'.fill inRange unresolved whole countable
    have layout' : filled.layout = missed.layout := congrArg Frame.layout inserted.frame
    have leads := inserted.shortcut
    change filled.view.shortcut (missed.layout.blockOf address) = _ at leads
    rw [← layout'] at inRange leads
    obtain ⟨byte, after, again, unwritten_after, same, answer⟩ :=
      unwritten''.read_of_shortcut inRange leads inserted.held
    rw [layout', layout] at answer
    refine ⟨false, after, .miss ran view unwritten' installed isFilled unwritten'' again same answer,
      unwritten_after, ?_, ?_⟩
    · exact (congrArg View.frame same).trans (inserted.frame.trans (congrArg View.frame view))
    · rw [same, ← view]
      exact inserted.sequence_le

end Cache

end TrieCache
