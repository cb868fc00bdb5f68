import TrieCache.Proofs.Consistency
import TrieCache.Proofs.Counters

/-!
# Where blocks stand

Whether a block was built, for which level, and whether it has a parent: few operations
change any of this.  Taking a block out of the structure changes it for the children, and
building a block changes it for that block.  Everything else leaves every block as it
stands, and spends what its counters say.
-/

namespace TrieCache

/-- Where a block stands in the structure. -/
@[ext]
structure Status where
  valid : Bool
  attached : Bool
  level : Nat
  deriving DecidableEq, Repr

namespace Status

def isLeaf (depth : Nat) (status : Status) : Bool :=
  status.valid && status.level == depth

def isOrphaned (status : Status) : Bool :=
  status.valid && !status.attached

end Status

namespace Block

def status (block : Block) : Status where
  valid := block.valid
  attached := block.parentValid
  level := block.level

theorem status_setLink (slot : Nat) (link : Link) (block : Block) :
    (block.setLink slot link).status = block.status := by
  obtain ⟨payload, same⟩ := setLink_eq slot link block
  rw [same]
  rfl

theorem status_dropChild (child : Nat) (block : Block) :
    (block.dropChild child).status = block.status := by
  obtain ⟨payload, same⟩ := dropChild_fields child block
  rw [same]
  rfl

theorem status_mapBytes (change : Array UInt8 → Array UInt8) (block : Block) :
    (block.mapBytes change).status = block.status := by
  unfold mapBytes
  split <;> rfl

end Block

namespace Pool

def statuses (pool : Pool) : Nat → Option Status :=
  pool.look fun block => some block.status

theorem statuses_of_block {pool : Pool} {index : Nat} {block : Block}
    (found : pool.blocks[index]? = some block) : pool.statuses index = some block.status :=
  look_of_block found _

theorem block_of_statuses {pool : Pool} {index : Nat} {status : Status}
    (stands : pool.statuses index = some status) :
    ∃ block, pool.blocks[index]? = some block ∧ block.status = status := by
  obtain ⟨block, found, same⟩ := look_eq_some_iff.mp stands
  exact ⟨block, found, Option.some.inj same⟩

theorem statuses_modify_eq_self (pool : Pool) (index : Nat) {change : Block → Block}
    (kept : ∀ block, (change block).status = block.status) :
    (pool.modify index change).statuses = pool.statuses := by
  funext other
  rw [statuses, look, blocks_modify]
  split
  · rw [Option.bind_map]
    simp only [Function.comp_def, kept]
    rfl
  · rfl

theorem statuses_modify {pool : Pool} {index : Nat} {block : Block}
    (found : pool.blocks[index]? = some block) (change : Block → Block) :
    (pool.modify index change).statuses =
      Function.update pool.statuses index (some (change block).status) :=
  look_modify found _

end Pool

namespace Cache

variable {cache middle after : Cache} {index : Nat} {address : Address}

/-- The counters grew by what was spent.  What was counted for the store joined the queue,
unless it was handed out. -/
structure Spends (before after : Cache) (spent : Stats) (handedOut : Nat) : Prop where
  layout : after.layout = before.layout
  capacity : after.pool.capacity = before.pool.capacity
  grew : before.stats.Grew after.stats spent
  queued : after.writebacks.size + handedOut = before.writebacks.size + spent.writebacks

theorem Spends.trans {before middle after : Cache} {spent spent' : Stats} {early late : Nat}
    (first : before.Spends middle spent early) (second : middle.Spends after spent' late) :
    before.Spends after (spent + spent') (early + late) where
  layout := second.layout.trans first.layout
  capacity := second.capacity.trans first.capacity
  grew := first.grew.trans second.grew
  queued := by
    have before := first.queued
    have after := second.queued
    simp only [Stats.add_eq, Stats.plus]
    omega

structure Idle (before after : Cache) (spent : Stats) : Prop
    extends before.Spends after spent 0 where
  statuses : after.pool.statuses = before.pool.statuses

namespace Idle

variable {before middle after : Cache} {spent spent' : Stats}

theorem refl (cache : Cache) : cache.Idle cache {} :=
  ⟨⟨rfl, rfl, .refl _, rfl⟩, rfl⟩

theorem trans (first : before.Idle middle spent) (second : middle.Idle after spent') :
    before.Idle after (spent + spent') :=
  ⟨first.toSpends.trans second.toSpends, second.statuses.trans first.statuses⟩

theorem andThen (first : before.Idle middle spent) (second : middle.Idle after {}) :
    before.Idle after spent := by
  have both := first.trans second
  rwa [Stats.add_none] at both

theorem record {change : Stats → Stats} (grew : cache.stats.Grew (change cache.stats) spent)
    (unqueued : spent.writebacks = 0) : cache.Idle (cache.record change) spent :=
  ⟨⟨rfl, rfl, grew, by rw [unqueued]; rfl⟩, rfl⟩

theorem updateBlock {change : Block → Block} (ran : cache.updateBlock index change = .ok after)
    (kept : ∀ block, (change block).status = block.status) : cache.Idle after {} := by
  obtain ⟨_, rfl⟩ := updateBlock_eq_ok_iff.mp ran
  exact ⟨⟨rfl, Pool.capacity_modify _ _ _, .refl _, rfl⟩, Pool.statuses_modify_eq_self _ _ kept⟩

theorem queueWriteback (cache : Cache) (tag : Nat) (bytes : Array UInt8) :
    cache.Idle (cache.queueWriteback tag bytes) { writebacks := 1 } :=
  ⟨⟨rfl, rfl, .recordWriteback _, Array.size_push ..⟩, rfl⟩

theorem of_aged {pool : Pool} {stats : Stats} (aged : cache.pool.Aged pool)
    (grew : cache.stats.Grew stats spent) (unqueued : spent.writebacks = 0) :
    cache.Idle { cache with pool, stats } spent :=
  ⟨⟨rfl, aged.capacity, grew, by rw [unqueued]⟩, aged.look fun _ => rfl⟩

end Idle

theorem idle_of_search {walk : Walk} (ran : cache.search address = .ok (walk, after)) :
    cache.Idle after {} := by
  obtain ⟨pool, aged, _, rfl⟩ := aged_of_search ran
  exact .of_aged aged (.refl _) rfl

theorem idle_of_installFastPath {tag : Nat} (ran : cache.installFastPath tag index = .ok after) :
    ∃ evictions, cache.Idle after { fastPathEvictions := evictions } := by
  obtain ⟨evicted, fastPath, _, rfl⟩ := filed_of_installFastPath ran
  cases evicted with
  | none => exact ⟨0, ⟨rfl, rfl, .refl _, rfl⟩, rfl⟩
  | some tag => exact ⟨1, ⟨rfl, rfl, .recordFastPathEviction _, rfl⟩, rfl⟩

theorem idle_of_resolve {found : Option Nat} (ran : cache.resolve address = .ok (found, after)) :
    ∃ fast slow misses evictions, cache.Idle after {
        hits := fast + slow, misses, fastPathHits := fast, slowPathHits := slow,
        fastPathEvictions := evictions } ∧
      fast + slow + misses = 1 ∧ misses = if found = none then 1 else 0 := by
  cases resolved_of_resolve ran with
  | direct searched =>
    have recorded := (idle_of_search searched).trans (.record (.recordFastPathHit _) rfl)
    exact ⟨1, 0, 0, 0, recorded, rfl, rfl⟩
  | walked searched _ _ filed =>
    obtain ⟨evictions, installs⟩ := idle_of_installFastPath filed
    have recorded :=
      ((idle_of_search searched).trans (.record (.recordSlowPathHit _) rfl)).trans installs
    exact ⟨0, 1, 0, evictions, by simpa [Stats.add_eq, Stats.plus] using recorded, rfl, rfl⟩
  | missed searched =>
    have recorded := (idle_of_search searched).trans (.record (.recordMiss _) rfl)
    exact ⟨0, 0, 1, 0, recorded, rfl, rfl⟩

theorem idle_of_perform {offset : Nat} {access : Access} {byte : UInt8}
    (ran : cache.perform index offset access = .ok (byte, after)) : cache.Idle after {} := by
  obtain ⟨block, _, ran⟩ := bind_eq_ok_iff.mp ran
  dsimp only at ran
  split at ran
  · cases ran
  · split at ran
    · cases ran
    · cases access with
      | read =>
        cases ran
        exact .refl _
      | write _ =>
        obtain ⟨changed, written, same⟩ := bind_eq_ok_iff.mp ran
        cases same
        refine Idle.updateBlock written fun block => ?_
        exact Block.status_mapBytes (fun bytes => bytes.setIfInBounds offset byte) block

/-- An access counts itself, and either one hit or one miss. -/
theorem idle_of_access {access : Access} {byte : Option UInt8}
    (ran : cache.access address access = .ok (byte, after)) :
    ∃ fast slow misses evictions, cache.Idle after (.ofAccess fast slow misses evictions) ∧
      fast + slow + misses = 1 ∧ misses = if byte = none then 1 else 0 := by
  obtain ⟨_, _, ran⟩ := bind_eq_ok_iff.mp ran
  obtain ⟨⟨found, resolved⟩, isFound, ran⟩ := bind_eq_ok_iff.mp ran
  obtain ⟨fast, slow, misses, evictions, idle, once, missed⟩ := idle_of_resolve isFound
  have counted : cache.Idle resolved (.ofAccess fast slow misses evictions) := by
    have counted := (Idle.record (.recordAccess cache.stats) rfl).trans idle
    simpa [Stats.add_eq, Stats.plus, Stats.ofAccess] using counted
  cases found with
  | none =>
    cases ran
    exact ⟨fast, slow, misses, evictions, counted, once, missed⟩
  | some index =>
    obtain ⟨offset, _, ran⟩ := bind_eq_ok_iff.mp ran
    obtain ⟨⟨byte, performed⟩, isByte, same⟩ := bind_eq_ok_iff.mp ran
    cases same
    exact ⟨fast, slow, misses, evictions, counted.andThen (idle_of_perform isByte), once, missed⟩

theorem idle_of_clean (cache : Cache) (index : Nat) (block : Block) :
    ∃ writebacks, cache.Idle (cache.clean index block) { writebacks } := by
  have cleaned : ∀ middle : Cache, middle.Idle { middle with
      pool := middle.pool.modify index fun block => { block with dirty := false } } {} :=
    fun middle => ⟨⟨rfl, Pool.capacity_modify _ _ _, .refl _, rfl⟩,
      Pool.statuses_modify_eq_self _ _ fun _ => rfl⟩
  unfold clean
  split
  next bytes _ => exact ⟨1, (Idle.queueWriteback cache block.tag bytes).andThen (cleaned _)⟩
  next => exact ⟨0, cleaned cache⟩

/-- Cleaning blocks queues some of them and counts them. -/
theorem idle_of_cleaned (cleaned : cache.Cleaned after) :
    ∃ writebacks, cache.Idle after { writebacks } := by
  induction cleaned with
  | refl => exact ⟨0, .refl cache⟩
  | @step middle index block _ _ _ _ ih =>
    obtain ⟨early, others⟩ := ih
    obtain ⟨late, last⟩ := idle_of_clean middle index block
    have both := others.trans last
    exact ⟨early + late, both⟩

section Replacing

theorem idle_of_unlink (ran : cache.unlink index = .ok after) : cache.Idle after {} := by
  obtain ⟨block, _, ran⟩ := bind_eq_ok_iff.mp ran
  split at ran
  · obtain ⟨entry, _, ran⟩ := bind_eq_ok_iff.mp ran
    split at ran
    · cases ran
      exact ⟨⟨rfl, rfl, .refl _, rfl⟩, rfl⟩
    · cases ran
      exact .refl _
  · exact .updateBlock ran (Block.status_dropChild index)

/-- Emptying a data block counts its eviction, and its bytes if they are queued. -/
theorem idle_of_retireData (ran : cache.retireData index = .ok after) :
    ∃ writebacks, cache.Idle after { leafEvictions := 1, writebacks } := by
  obtain ⟨block, _, ran⟩ := bind_eq_ok_iff.mp ran
  obtain ⟨middle, changed, same⟩ := bind_eq_ok_iff.mp ran
  cases same
  obtain ⟨writebacks, queued⟩ : ∃ writebacks, cache.Idle middle { writebacks } := by
    have emptied : Idle (if block.dirty then
        cache.queueWriteback block.tag (block.bytes?.getD #[]) else cache) middle {} :=
      .updateBlock changed fun _ => rfl
    split at emptied
    · exact ⟨1, (Idle.queueWriteback cache _ _).andThen emptied⟩
    · exact ⟨0, emptied⟩
  refine ⟨writebacks, ?_⟩
  have forgotten : middle.Idle (if middle.fastPath.lookup block.tag = some index then
      { middle with fastPath := (middle.fastPath.remove block.tag).2 } else middle) {} := by
    split
    · exact ⟨⟨rfl, rfl, .refl _, rfl⟩, rfl⟩
    · exact .refl _
  have counted := (queued.andThen forgotten).trans (.record (.recordLeafEviction _) rfl)
  simpa [Stats.add_eq, Stats.plus] using counted

theorem statuses_of_orphan {children : List Nat} (ran : cache.orphan children = .ok after) :
    after.layout = cache.layout ∧ after.pool.capacity = cache.pool.capacity ∧
      after.stats = cache.stats ∧ after.writebacks = cache.writebacks ∧
      ∀ index, after.pool.statuses index = (cache.pool.statuses index).map fun status =>
        if index ∈ children then { status with attached := false } else status := by
  induction children generalizing cache with
  | nil =>
    cases ran
    exact ⟨rfl, rfl, rfl, rfl, fun index => by simp⟩
  | cons child rest ih =>
    obtain ⟨middle, changed, ran⟩ := bind_eq_ok_iff.mp ran
    obtain ⟨child_lt, rfl⟩ := updateBlock_eq_ok_iff.mp changed
    obtain ⟨block, found⟩ := Pool.exists_block child_lt
    obtain ⟨layout, capacity, stats, writebacks, statuses⟩ := ih ran
    refine ⟨layout, capacity.trans (Pool.capacity_modify _ _ _), stats, writebacks, fun index => ?_⟩
    rw [statuses, Pool.statuses_modify found]
    by_cases here : index = child
    · subst here
      rw [Function.update_self, Pool.statuses_of_block found]
      simp [Block.status]
    · rw [Function.update_of_ne here]
      simp [here]

/-- Emptying a table takes the parent from its children, and counts them. -/
theorem spends_of_retireTable {block : Block} (found : cache.pool.blocks[index]? = some block)
    (ran : cache.retireTable index = .ok after) :
    cache.Spends after { orphanedChildren := block.children.length } 0 ∧
      ∀ other, after.pool.statuses other = (cache.pool.statuses other).map fun status =>
        if other ∈ block.children then { status with attached := false } else status := by
  obtain ⟨block', found', ran⟩ := bind_eq_ok_iff.mp ran
  cases (Pool.get_eq_ok_iff.mp found').symm.trans found
  obtain ⟨middle, orphaned, same⟩ := bind_eq_ok_iff.mp ran
  cases same
  obtain ⟨layout, capacity, stats, writebacks, statuses⟩ := statuses_of_orphan orphaned
  refine ⟨⟨layout, capacity, ?_, congrArg Array.size writebacks⟩, statuses⟩
  rw [← stats]
  exact .recordOrphans _ _

/-- A block was taken out: its children lost their parent. -/
structure Emptied (before after : Cache) (index : Nat) (children : List Nat) (spent : Stats) :
    Prop extends before.Spends after spent 0 where
  nodup : children.Nodup
  attached {child : Nat} : child ∈ children →
    ∃ status, before.pool.statuses child = some status ∧ status.attached = true
  statuses (other : Nat) : after.pool.statuses other = (before.pool.statuses other).map
    fun status => if other ∈ children then { status with attached := false } else status
  spent_eq : ∃ writebacks, spent = {
    orphanedChildren := children.length
    leafEvictions := ((before.pool.statuses index).any (Status.isLeaf before.layout.depth)).toNat
    writebacks }

section Emptying

variable {block : Block} (found : cache.pool.blocks[index]? = some block)
include found

theorem emptied_of_unbuilt (depth_pos : 1 ≤ cache.layout.depth)
    (unbuilt : ¬ (block.valid = true ∧ block.level ≠ 0)) : cache.Emptied cache index [] {} := by
  refine ⟨(Idle.refl cache).toSpends, List.nodup_nil, by simp, by simp, 0, ?_⟩
  have notLeaf : ¬ (block.valid = true ∧ block.level = cache.layout.depth) :=
    fun leaf => unbuilt ⟨leaf.1, by omega⟩
  have unlike : Status.isLeaf cache.layout.depth block.status = false := by
    simpa [Status.isLeaf, Block.status] using notLeaf
  simp [Pool.statuses_of_block found, unlike]

theorem emptied_of_leaf (valid : block.valid = true) (level : block.level = cache.layout.depth)
    (idle : cache.Idle middle {}) (ran : middle.retireData index = .ok after) :
    ∃ spent, cache.Emptied after index [] spent := by
  obtain ⟨writebacks, retired⟩ := idle_of_retireData ran
  have whole := idle.trans retired
  rw [Stats.none_add] at whole
  refine ⟨_, whole.toSpends, List.nodup_nil, by simp, fun other => ?_, writebacks, ?_⟩
  · simp [whole.statuses]
  · simp [Pool.statuses_of_block found, Block.status, Status.isLeaf, valid, level]

/-- No child hangs in a table twice, and each child has its parent until then. -/
theorem emptied_of_table (linked : cache.trie.Linked) (valid : block.valid = true)
    (level : block.level ≠ cache.layout.depth) (idle : cache.Idle middle {})
    (found' : middle.pool.blocks[index]? = some block)
    (ran : middle.retireTable index = .ok after) :
    ∃ spent, cache.Emptied after index block.children spent := by
  obtain ⟨retired, statuses⟩ := spends_of_retireTable found' ran
  have whole := idle.toSpends.trans retired
  rw [Stats.none_add] at whole
  refine ⟨_, whole, ?_, fun {child} isChild => ?_, fun other => ?_, 0, ?_⟩
  · have isNode := (node_of_block found).trans (Block.node?_eq_some_iff.mpr ⟨valid, rfl⟩)
    exact Block.nodup_children fun one other => linked.single
      (Trie.link_some_eq_some_iff.mpr ⟨_, isNode, one⟩)
      (Trie.link_some_eq_some_iff.mpr ⟨_, isNode, other⟩)
  · obtain ⟨slot, leads⟩ := (mem_children_iff_link found valid child).mp isChild
    obtain ⟨node, isNode, attached, _⟩ := linked.target leads
    obtain ⟨below, found'', _, rfl⟩ := block_of_node isNode
    exact ⟨_, Pool.statuses_of_block found'', attached⟩
  · rw [statuses, idle.statuses]
  · have unlike : Status.isLeaf cache.layout.depth block.status = false := by
      simp [Status.isLeaf, Block.status, level]
    simp [Pool.statuses_of_block found, unlike]

end Emptying

/-- An eviction counts the children that it takes the parent from, and a leaf that it
empties. -/
theorem emptied_of_evict (sound : cache.view.Sound) (tidy : cache.Tidy)
    (ran : cache.evict index = .ok after) :
    ∃ children spent, cache.Emptied after index children spent := by
  obtain ⟨block, isBlock, rest⟩ := bind_eq_ok_iff.mp ran
  have found := Pool.get_eq_ok_iff.mp isBlock
  by_cases built : block.valid = true ∧ block.level ≠ 0
  · obtain ⟨valid, level_ne⟩ := built
    obtain ⟨middle, unlinked, _, _, found'⟩ := unlink_or_keep_spec sound tidy found valid
    have idle : cache.Idle middle {} := by
      split at unlinked
      · exact idle_of_unlink unlinked
      · cases unlinked
        exact .refl _
    rw [evict_of_valid found valid level_ne unlinked, idle.layout] at ran
    split at ran
    next level => exact ⟨[], emptied_of_leaf found valid level idle ran⟩
    next level => exact ⟨_, emptied_of_table found sound.linked valid level idle found' ran⟩
  · rw [if_neg built] at rest
    cases rest
    exact ⟨[], {}, emptied_of_unbuilt found sound.founded.regular.depth_pos built⟩

theorem idle_of_hangFromTop {former : Link}
    (ran : cache.hangFromTop index address = .ok (former, after)) : cache.Idle after {} := by
  obtain ⟨slot, _, ran⟩ := bind_eq_ok_iff.mp ran
  obtain ⟨entry, _, ran⟩ := bind_eq_ok_iff.mp ran
  obtain ⟨named, changed, same⟩ := bind_eq_ok_iff.mp ran
  cases same
  have linked : cache.Idle { cache with top := cache.top.set slot { valid := true, target := index } }
      {} := ⟨⟨rfl, rfl, .refl _, rfl⟩, rfl⟩
  exact linked.andThen (.updateBlock changed fun _ => rfl)

theorem idle_of_hangFromTable {level parent : Nat} {former : Link}
    (ran : cache.hangFromTable index level address parent = .ok (former, after)) :
    cache.Idle after {} := by
  obtain ⟨slot, _, ran⟩ := bind_eq_ok_iff.mp ran
  obtain ⟨table, _, ran⟩ := bind_eq_ok_iff.mp ran
  split at ran
  · cases ran
  · obtain ⟨linked, changed, ran⟩ := bind_eq_ok_iff.mp ran
    obtain ⟨named, changed', same⟩ := bind_eq_ok_iff.mp ran
    cases same
    refine (Idle.updateBlock changed (Block.status_setLink slot _)).andThen ?_
    exact .updateBlock changed' fun _ => rfl

/-- A block was built anew and is attached; no other block stands differently. -/
structure Rebuilt (before after : Cache) (index level : Nat) : Prop
    extends before.Spends after {} 0 where
  index_lt : index < before.pool.capacity
  statuses : after.pool.statuses = Function.update before.pool.statuses index
    (some { valid := true, attached := true, level })

theorem rebuilt_of_build {attachment : Attachment} (apart : attachment.parent ≠ some index)
    (free : cache.SlotFree address attachment)
    (ran : cache.build index attachment.level address attachment.parent = .ok after) :
    cache.Rebuilt after index attachment.level := by
  obtain ⟨payload, rebuilt, former, changed, hangs, _⟩ := hung_of_build apart free ran
  have idle : rebuilt.Idle after {} := by
    cases parent : attachment.parent with
    | none =>
      rw [parent] at hangs
      exact idle_of_hangFromTop hangs
    | some table =>
      rw [parent] at hangs
      exact idle_of_hangFromTable hangs
  obtain ⟨index_lt, rfl⟩ := updateBlock_eq_ok_iff.mp changed
  obtain ⟨block, found⟩ := Pool.exists_block index_lt
  refine ⟨⟨idle.layout, idle.capacity.trans (Pool.capacity_modify _ _ _), idle.grew,
    idle.queued⟩, index_lt, ?_⟩
  rw [idle.statuses, Pool.statuses_modify found]
  rfl

end Replacing

end Cache

end TrieCache
