import TrieCache.Cache.Writeback
import TrieCache.Proofs.FastPath
import TrieCache.Proofs.Trie

/-!
# Views of a cache

What the invariants of a cache speak about: the trie of its links, and the copies of
blocks that its leaves hold.  Both are read off the pool block by block, so a change of
one block either leaves a view alone or changes it in that one place.
-/

namespace TrieCache

@[ext]
structure Copy where
  tag : Nat
  bytes : Array UInt8
  dirty : Bool
  deriving DecidableEq, Repr

namespace Copy

def clean (copy : Copy) : Copy :=
  { copy with dirty := false }

def writeback (copy : Copy) : Writeback :=
  { tag := copy.tag, bytes := copy.bytes }

end Copy

namespace Link

def leads? (link : Link) : Option Nat :=
  if link.valid then some link.target else none

end Link

namespace Block

def unaged (block : Block) : Block :=
  { block with reference := 0 }

def node? (block : Block) : Option Node :=
  if block.valid then
    some {
      attached := block.parentValid
      level := block.level
      tag := block.tag
      parent := block.parent
      child := block.child? }
  else none

/-- What a block holds, if it is a leaf of a trie of the given depth. -/
def copy? (depth : Nat) (block : Block) : Option Copy :=
  if block.valid = true ∧ block.level = depth then
    some { tag := block.tag, bytes := block.bytes?.getD #[], dirty := block.dirty }
  else none

/-- The kinds of blocks in a pool of a given layout. -/
inductive Shaped (layout : Layout) (block : Block) : Prop
  | unbuilt (valid : block.valid = false) (level : block.level = 0)
      (payload : block.payload = .empty) (dirty : block.dirty = false)
  | table (valid : block.valid = true) (level_pos : 1 ≤ block.level)
      (level_lt : block.level < layout.depth) (links : Array Link)
      (payload : block.payload = .table links) (size : links.size = layout.fanout)
      (dirty : block.dirty = false)
  | leaf (valid : block.valid = true) (level : block.level = layout.depth) (bytes : Array UInt8)
      (payload : block.payload = .data bytes) (size : bytes.size = layout.blockBytes)

theorem node?_unaged (block : Block) : block.unaged.node? = block.node? :=
  rfl

theorem copy?_unaged (depth : Nat) (block : Block) :
    block.unaged.copy? depth = block.copy? depth :=
  rfl

theorem node?_eq_some_iff {block : Block} {node : Node} :
    block.node? = some node ↔ block.valid = true ∧ node = {
      attached := block.parentValid
      level := block.level
      tag := block.tag
      parent := block.parent
      child := block.child? } := by
  unfold node?
  split
  next valid => simp [valid, eq_comm]
  next invalid => simp [invalid]

theorem copy?_eq_some_iff {depth : Nat} {block : Block} {copy : Copy} :
    block.copy? depth = some copy ↔ block.valid = true ∧ block.level = depth ∧
      copy = { tag := block.tag, bytes := block.bytes?.getD #[], dirty := block.dirty } := by
  unfold copy?
  split
  next leaf => simp [leaf.1, leaf.2, eq_comm]
  next other =>
    constructor
    · exact nofun
    · rintro ⟨valid, level, _⟩
      exact absurd ⟨valid, level⟩ other

theorem child?_eq_some_iff {block : Block} {slot child : Nat} :
    block.child? slot = some child ↔ block.links[slot]? = some { valid := true, target := child } := by
  unfold child?
  cases found : block.links[slot]? with
  | none => simp
  | some link =>
    rcases link with ⟨valid, target⟩
    cases valid <;> simp

theorem mem_children_iff {block : Block} {child : Nat} :
    child ∈ block.children ↔ ∃ slot, block.child? slot = some child := by
  simp only [children, List.mem_map, List.mem_filter, child?_eq_some_iff]
  constructor
  · rintro ⟨link, ⟨isLink, valid⟩, rfl⟩
    obtain ⟨slot, found⟩ := List.mem_iff_getElem?.mp isLink
    rcases link with ⟨_, target⟩
    cases valid
    exact ⟨slot, by simpa using found⟩
  · rintro ⟨slot, found⟩
    have isLink : ({ valid := true, target := child } : Link) ∈ block.links.toList :=
      List.mem_iff_getElem?.mpr ⟨slot, by simpa using found⟩
    exact ⟨_, ⟨isLink, rfl⟩, rfl⟩

/-- A table that leads to a block in one way only lists it once. -/
theorem nodup_children {block : Block} (single : ∀ {first second child : Nat},
    block.child? first = some child → block.child? second = some child → first = second) :
    block.children.Nodup := by
  rw [children, List.Nodup, List.pairwise_map, List.pairwise_filter, List.pairwise_iff_getElem]
  intro first second first_lt second_lt before valid valid' same
  have leads : ∀ (slot : Nat) (inside : slot < block.links.toList.length),
      block.links.toList[slot].valid = true →
      block.child? slot = some block.links.toList[slot].target := by
    intro slot inside isValid
    have found : block.links[slot]? = some block.links.toList[slot] := by
      rw [← Array.getElem?_toList, List.getElem?_eq_getElem]
    rw [child?, found]
    exact if_pos isValid
  have one := leads first first_lt valid
  rw [same] at one
  exact Nat.ne_of_lt before (single one (leads second second_lt valid'))

theorem reference_mapBytes (change : Array UInt8 → Array UInt8) (block : Block) :
    (block.mapBytes change).reference = block.reference := by
  unfold mapBytes
  split <;> rfl

namespace Shaped

variable {layout : Layout} {block : Block}

theorem congr {other : Block} (shaped : block.Shaped layout) (valid : other.valid = block.valid)
    (level : other.level = block.level) (payload : other.payload = block.payload)
    (dirty : other.dirty = block.dirty) : other.Shaped layout := by
  cases shaped with
  | unbuilt isValid isLevel isPayload isDirty =>
    exact .unbuilt (valid.trans isValid) (level.trans isLevel) (payload.trans isPayload)
      (dirty.trans isDirty)
  | table isValid level_pos level_lt links isPayload size isDirty =>
    exact .table (valid.trans isValid) (level ▸ level_pos) (level ▸ level_lt) links
      (payload.trans isPayload) size (dirty.trans isDirty)
  | leaf isValid isLevel bytes isPayload size =>
    exact .leaf (valid.trans isValid) (level.trans isLevel) bytes (payload.trans isPayload) size

end Shaped

end Block

namespace Pool

variable {α : Type}

/-- A view of one block of the pool. -/
def look (pool : Pool) (view : Block → Option α) (index : Nat) : Option α :=
  pool.blocks[index]?.bind view

theorem look_eq_some_iff {pool : Pool} {view : Block → Option α} {index : Nat} {seen : α} :
    pool.look view index = some seen ↔
      ∃ block, pool.blocks[index]? = some block ∧ view block = some seen :=
  Option.bind_eq_some_iff

theorem look_of_block {pool : Pool} {index : Nat} {block : Block}
    (found : pool.blocks[index]? = some block) (view : Block → Option α) :
    pool.look view index = view block := by
  rw [look, found, Option.bind_some]

theorem lt_capacity_of_block {pool : Pool} {index : Nat} {block : Block}
    (found : pool.blocks[index]? = some block) : index < pool.capacity := by
  obtain ⟨bound, _⟩ := Array.getElem?_eq_some_iff.mp found
  exact bound

theorem exists_block {pool : Pool} {index : Nat} (bound : index < pool.capacity) :
    ∃ block, pool.blocks[index]? = some block :=
  ⟨_, Array.getElem?_eq_getElem bound⟩

theorem blocks_modify_self {pool : Pool} {index : Nat} {block : Block}
    (found : pool.blocks[index]? = some block) (change : Block → Block) :
    (pool.modify index change).blocks[index]? = some (change block) := by
  rw [blocks_modify, if_pos rfl, found, Option.map_some]

theorem blocks_modify_of_ne {pool : Pool} {index other : Nat} (distinct : other ≠ index)
    (change : Block → Block) :
    (pool.modify index change).blocks[other]? = pool.blocks[other]? := by
  rw [blocks_modify, if_neg (Ne.symm distinct)]

theorem look_modify {pool : Pool} {index : Nat} {block : Block} {change : Block → Block}
    (found : pool.blocks[index]? = some block) (view : Block → Option α) :
    (pool.modify index change).look view =
      Function.update (pool.look view) index (view (change block)) := by
  funext other
  by_cases here : other = index
  · subst here
    rw [look_of_block (blocks_modify_self found change), Function.update_self]
  · rw [Function.update_of_ne here, look, look, blocks_modify_of_ne here]

def All (pool : Pool) (good : Block → Prop) : Prop :=
  ∀ (index : Nat) (block : Block), pool.blocks[index]? = some block → good block

theorem All.modify {pool : Pool} {index : Nat} {change : Block → Block} {good : Block → Prop}
    (all : pool.All good)
    (kept : ∀ block, pool.blocks[index]? = some block → good (change block)) :
    (pool.modify index change).All good := by
  intro other block found
  by_cases here : other = index
  · subst here
    rw [blocks_modify, if_pos rfl, Option.map_eq_some_iff] at found
    obtain ⟨before, isBefore, rfl⟩ := found
    exact kept before isBefore
  · rw [blocks_modify_of_ne here] at found
    exact all other block found

/-- Two pools with the same blocks up to their reference counts. -/
def Aged (before after : Pool) : Prop :=
  ∀ index : Nat, after.blocks[index]?.map Block.unaged = before.blocks[index]?.map Block.unaged

namespace Aged

variable {before middle after : Pool}

theorem refl (pool : Pool) : pool.Aged pool :=
  fun _ => rfl

theorem trans (first : before.Aged middle) (second : middle.Aged after) : before.Aged after :=
  fun index => (second index).trans (first index)

theorem modify (pool : Pool) (index : Nat) (change : Block → Nat) :
    pool.Aged (pool.modify index fun block => { block with reference := change block }) := by
  intro other
  rw [blocks_modify]
  split
  · cases pool.blocks[other]? <;> rfl
  · rfl

theorem block {index : Nat} {block : Block} (aged : before.Aged after)
    (found : after.blocks[index]? = some block) :
    ∃ reference, before.blocks[index]? = some { block with reference } := by
  have same := aged index
  rw [found] at same
  obtain ⟨older, isOlder, equal⟩ := Option.map_eq_some_iff.mp same.symm
  refine ⟨older.reference, isOlder.trans (congrArg some ?_)⟩
  have fields := congrArg (fun unaged : Block => { unaged with reference := older.reference }) equal
  exact fields

theorem look (aged : before.Aged after) {view : Block → Option α}
    (blind : ∀ block : Block, view block.unaged = view block) : after.look view = before.look view := by
  funext index
  have same := congrArg (Option.bind · view) (aged index)
  simp only [Option.bind_map, Function.comp_def, blind] at same
  exact same

theorem capacity (aged : before.Aged after) : after.capacity = before.capacity := by
  apply Nat.le_antisymm
  · by_contra larger
    obtain ⟨block, found⟩ := exists_block (Nat.lt_of_not_le larger)
    obtain ⟨reference, older⟩ := aged.block found
    exact absurd (lt_capacity_of_block older) (Nat.lt_irrefl _)
  · by_contra larger
    obtain ⟨block, found⟩ := exists_block (Nat.lt_of_not_le larger)
    have same := aged after.capacity
    rw [found] at same
    obtain ⟨newer, isNewer, _⟩ := Option.map_eq_some_iff.mp same
    exact absurd (lt_capacity_of_block isNewer) (Nat.lt_irrefl _)

end Aged

def locked? (pool : Pool) : Nat → Option Bool :=
  pool.look fun block => some block.locked

end Pool

/-- The sizes and the policy of a cache, which no operation changes. -/
structure Frame where
  config : Config
  layout : Layout
  topSize : Nat
  capacity : Nat
  fastPathCapacity : Nat

/-- A cache as its invariants see it.  Statistics, reference counts, the hand of the clock
and the order of the fast path are left out. -/
@[ext]
structure View where
  frame : Frame
  trie : Trie
  /-- The copies of blocks, by the place of the leaf that holds them. -/
  copies : Nat → Option Copy
  locked : Nat → Option Bool
  /-- Where the fast path leads from a tag. -/
  shortcut : Nat → Option Nat
  /-- The number of insertions into the fast path. -/
  sequence : Nat
  queue : List Writeback

namespace Cache

def frame (cache : Cache) : Frame where
  config := cache.config
  layout := cache.layout
  topSize := cache.top.size
  capacity := cache.pool.capacity
  fastPathCapacity := cache.fastPath.capacity

def trie (cache : Cache) : Trie where
  top slot := cache.top.entries[slot]?.bind Link.leads?
  node := cache.pool.look Block.node?

def view (cache : Cache) : View where
  frame := cache.frame
  trie := cache.trie
  copies := cache.pool.look (Block.copy? cache.layout.depth)
  locked := cache.pool.locked?
  shortcut := cache.fastPath.lookup
  sequence := cache.fastPath.nextSequence
  queue := cache.writebacks.toList

theorem frame_modify (cache : Cache) (index : Nat) (change : Block → Block) :
    { cache with pool := cache.pool.modify index change }.frame = cache.frame := by
  simp only [frame, Pool.capacity_modify]

theorem view_modify {cache : Cache} {index : Nat} {block : Block}
    (found : cache.pool.blocks[index]? = some block) (change : Block → Block) :
    { cache with pool := cache.pool.modify index change }.view =
      { cache.view with
        trie := { cache.trie with
          node := Function.update cache.trie.node index (change block).node? }
        copies := Function.update cache.view.copies index
          ((change block).copy? cache.layout.depth)
        locked := Function.update cache.view.locked index (some (change block).locked) } := by
  exact View.ext (frame_modify cache index change)
    (Trie.ext rfl (Pool.look_modify found Block.node?))
    (Pool.look_modify found (Block.copy? cache.layout.depth))
    (Pool.look_modify found fun block => some block.locked) rfl rfl rfl

/-- Reference counts, the hand of the clock and statistics do not show. -/
theorem view_of_aged {cache : Cache} {pool : Pool} (aged : cache.pool.Aged pool) (stats : Stats) :
    { cache with pool, stats }.view = cache.view := by
  have frame : { cache with pool, stats }.frame = cache.frame := by
    simp only [Cache.frame, aged.capacity]
  exact View.ext frame (Trie.ext rfl (aged.look Block.node?_unaged))
    (aged.look (Block.copy?_unaged _)) (aged.look fun _ => rfl) rfl rfl rfl

theorem trie_setTop (cache : Cache) {slot : Nat} (slot_lt : slot < cache.top.size) (link : Link) :
    { cache with top := cache.top.set slot link }.trie =
      { cache.trie with top := Function.update cache.trie.top slot link.leads? } := by
  have top : { cache with top := cache.top.set slot link }.trie.top =
      Function.update cache.trie.top slot link.leads? := by
    funext other
    change (cache.top.set slot link).entries[other]?.bind Link.leads? = _
    rw [TopIndex.entries_set]
    by_cases same : slot = other
    · subst same
      rw [Function.update_self, if_pos rfl, if_pos slot_lt, Option.bind_some]
    · rw [Function.update_of_ne (Ne.symm same), if_neg same]
      rfl
  exact Trie.ext top rfl

theorem view_setTop (cache : Cache) {slot : Nat} (slot_lt : slot < cache.top.size) (link : Link) :
    { cache with top := cache.top.set slot link }.view =
      { cache.view with
        trie := { cache.trie with top := Function.update cache.trie.top slot link.leads? } } := by
  refine View.ext ?_ (trie_setTop cache slot_lt link) rfl rfl rfl rfl rfl
  simp only [view, frame, TopIndex.size_set]

theorem view_queueWriteback (cache : Cache) (tag : Nat) (bytes : Array UInt8) :
    (cache.queueWriteback tag bytes).view =
      { cache.view with queue := cache.view.queue ++ [{ tag, bytes }] } :=
  View.ext rfl rfl rfl rfl rfl rfl (Array.toList_push ..)

theorem node_of_block {cache : Cache} {index : Nat} {block : Block}
    (found : cache.pool.blocks[index]? = some block) :
    cache.trie.node index = block.node? :=
  Pool.look_of_block found Block.node?

theorem block_of_node {cache : Cache} {index : Nat} {node : Node}
    (isNode : cache.trie.node index = some node) :
    ∃ block, cache.pool.blocks[index]? = some block ∧ block.valid = true ∧ node = {
      attached := block.parentValid
      level := block.level
      tag := block.tag
      parent := block.parent
      child := block.child? } := by
  obtain ⟨block, found, seen⟩ := Pool.look_eq_some_iff.mp isNode
  obtain ⟨valid, same⟩ := Block.node?_eq_some_iff.mp seen
  exact ⟨block, found, valid, same⟩

theorem exists_copy_iff {cache : Cache} {index tag : Nat} :
    (∃ copy, cache.view.copies index = some copy ∧ copy.tag = tag) ↔
      ∃ node, cache.view.trie.node index = some node ∧ node.level = cache.layout.depth ∧
        node.tag = tag := by
  constructor
  · rintro ⟨copy, holds, rfl⟩
    obtain ⟨block, found, seen⟩ := Pool.look_eq_some_iff.mp holds
    obtain ⟨valid, level, rfl⟩ := Block.copy?_eq_some_iff.mp seen
    exact ⟨_, (node_of_block found).trans (Block.node?_eq_some_iff.mpr ⟨valid, rfl⟩), level, rfl⟩
  · rintro ⟨node, isNode, level, rfl⟩
    obtain ⟨block, found, valid, rfl⟩ := block_of_node isNode
    exact ⟨_, (Pool.look_of_block found _).trans
      (Block.copy?_eq_some_iff.mpr ⟨valid, level, rfl⟩), rfl⟩

theorem lt_capacity_of_copy {cache : Cache} {index : Nat} {copy : Copy}
    (holds : cache.view.copies index = some copy) : index < cache.view.frame.capacity := by
  obtain ⟨block, found, _⟩ := Pool.look_eq_some_iff.mp holds
  exact Pool.lt_capacity_of_block found

/-- What holds of a cache beyond its view. -/
structure Tidy (cache : Cache) : Prop where
  hand_lt : cache.pool.hand < cache.pool.capacity
  shaped : cache.pool.All (Block.Shaped cache.layout)
  bounded : cache.pool.All fun block => block.reference ≤ cache.maxReference
  recorded : cache.fastPath.Recorded

theorem Tidy.modify {cache : Cache} (tidy : cache.Tidy) {index : Nat} {change : Block → Block}
    (shaped : ∀ block, cache.pool.blocks[index]? = some block → block.Shaped cache.layout →
      (change block).Shaped cache.layout)
    (bounded : ∀ block : Block, block.reference ≤ cache.maxReference →
      (change block).reference ≤ cache.maxReference) :
    Tidy { cache with pool := cache.pool.modify index change } where
  hand_lt := by
    rw [Pool.capacity_modify]
    exact tidy.hand_lt
  shaped := tidy.shaped.modify fun block found => shaped block found (tidy.shaped index block found)
  bounded := tidy.bounded.modify fun block found => bounded block (tidy.bounded index block found)
  recorded := tidy.recorded

theorem Tidy.data_of_leaf {cache : Cache} (tidy : cache.Tidy) {index : Nat} {block : Block}
    (found : cache.pool.blocks[index]? = some block) (valid : block.valid = true)
    (level : block.level = cache.layout.depth) :
    ∃ bytes, block.payload = .data bytes ∧ bytes.size = cache.layout.blockBytes := by
  cases tidy.shaped _ _ found with
  | unbuilt invalid _ _ _ => exact absurd (invalid.symm.trans valid) (by simp)
  | table _ _ level_lt _ _ _ _ => exact absurd level (Nat.ne_of_lt level_lt)
  | leaf _ _ bytes payload size => exact ⟨bytes, payload, size⟩

theorem Tidy.size_of_copy {cache : Cache} (tidy : cache.Tidy) {index : Nat} {copy : Copy}
    (holds : cache.view.copies index = some copy) :
    copy.bytes.size = cache.layout.blockBytes := by
  obtain ⟨block, found, seen⟩ := Pool.look_eq_some_iff.mp holds
  obtain ⟨valid, level, rfl⟩ := Block.copy?_eq_some_iff.mp seen
  obtain ⟨bytes, payload, size⟩ := tidy.data_of_leaf found valid level
  rw [Block.bytes?, payload]
  exact size

/-- Changing what a leaf holds, or whether it changed, shows in its copy only. -/
theorem view_modify_leaf {cache : Cache} {index : Nat} {block : Block} {bytes : Array UInt8}
    (found : cache.pool.blocks[index]? = some block) (valid : block.valid = true)
    (level : block.level = cache.layout.depth) (payload : block.payload = .data bytes)
    {change : Block → Block} {bytes' : Array UInt8} {dirty : Bool}
    (changed : change block = { block with payload := .data bytes', dirty }) :
    { cache with pool := cache.pool.modify index change }.view =
      { cache.view with
        copies := Function.update cache.view.copies index
          (some { tag := block.tag, bytes := bytes', dirty }) } := by
  have child : (change block).child? = block.child? := by
    funext slot
    simp [changed, Block.child?, Block.links, payload]
  have node : (change block).node? = cache.trie.node index := by
    rw [node_of_block found, Block.node?, Block.node?, child, changed]
  have copy : (change block).copy? cache.layout.depth =
      some { tag := block.tag, bytes := bytes', dirty } := by
    rw [changed]
    exact Block.copy?_eq_some_iff.mpr ⟨valid, level, rfl⟩
  have locked : some (change block).locked = cache.view.locked index := by
    rw [changed]
    exact (Pool.look_of_block found fun block => some block.locked).symm
  rw [view_modify found, node, copy, locked, Function.update_eq_self, Function.update_eq_self]
  rfl

theorem updateBlock_eq_ok {cache : Cache} {index : Nat} (index_lt : index < cache.pool.capacity)
    (change : Block → Block) :
    cache.updateBlock index change = .ok { cache with pool := cache.pool.modify index change } :=
  if_pos index_lt

theorem updateBlock_eq_ok_iff {cache after : Cache} {index : Nat} {change : Block → Block} :
    cache.updateBlock index change = .ok after ↔
      index < cache.pool.capacity ∧ after = { cache with pool := cache.pool.modify index change } := by
  unfold updateBlock
  split
  next inside => simp [inside, eq_comm]
  next outside => simp [outside]

end Cache

end TrieCache
