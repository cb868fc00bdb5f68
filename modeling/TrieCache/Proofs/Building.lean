import TrieCache.Proofs.Clock
import TrieCache.Proofs.Eviction

/-!
# Building puts a block in place

A block that was taken out is built anew in a slot that nothing occupies.  So there is no
former occupant to lose its parent, and the cache is as before but for the new block and
the one link to it.
-/

namespace TrieCache

/-- What the structure knows about a block that was just built. -/
def Node.blank (level tag parent : Nat) : Node where
  attached := true
  level := level
  tag := tag
  parent := parent
  child _ := none

namespace Layout

def blankPayload (layout : Layout) (level : Nat) : Payload :=
  if level = layout.depth then .data (Array.replicate layout.blockBytes 0)
  else .table (Array.replicate layout.fanout {})

/-- The copy that a block of a level holds at first. -/
def blankCopy (layout : Layout) (level tag : Nat) : Option Copy :=
  if level = layout.depth then
    some { tag, bytes := Array.replicate layout.blockBytes 0, dirty := false }
  else none

/-- Tables of a trie are small, for a whole way down fits a word. -/
theorem Regular.fanout_le {layout : Layout} (regular : layout.Regular) (tables : 1 < layout.depth) :
    layout.fanout ≤ 2 ^ 32 := by
  have span_lt := regular.spanBits_lt
  have half := regular.branchBits_succ
  have once : layout.branchBits * 1 ≤ layout.branchBits * (layout.depth - 1) :=
    Nat.mul_le_mul_left _ (by omega)
  rw [regular.spanBits_eq] at span_lt
  exact Nat.pow_le_pow_right (by omega) (by omega)

end Layout

namespace Block

def rebuilt (payload : Payload) (level parent : Nat) (block : Block) : Block :=
  { block with
    payload, level, parent, valid := true, parentValid := true, reference := 1, dirty := false }

theorem node?_rebuilt (layout : Layout) (level parent : Nat) (block : Block) :
    (block.rebuilt (layout.blankPayload level) level parent).node? =
      some (Node.blank level block.tag parent) := by
  refine node?_eq_some_iff.mpr ⟨rfl, ?_⟩
  have child : (block.rebuilt (layout.blankPayload level) level parent).child? = fun _ => none := by
    funext slot
    unfold rebuilt Layout.blankPayload child? links
    by_cases isLeaf : level = layout.depth
    · simp [isLeaf]
    · by_cases inside : slot < layout.fanout <;>
        simp [isLeaf, inside]
  rw [child]
  rfl

theorem copy?_rebuilt (layout : Layout) (level parent : Nat) (block : Block) :
    (block.rebuilt (layout.blankPayload level) level parent).copy? layout.depth =
      layout.blankCopy level block.tag := by
  unfold rebuilt Layout.blankPayload Layout.blankCopy copy? bytes?
  by_cases isLeaf : level = layout.depth
  · simp [isLeaf]
  · simp [isLeaf]

theorem shaped_rebuilt {layout : Layout} {level : Nat} (level_pos : 1 ≤ level)
    (level_le : level ≤ layout.depth) (parent : Nat) (block : Block) :
    (block.rebuilt (layout.blankPayload level) level parent).Shaped layout := by
  by_cases isLeaf : level = layout.depth
  · refine .leaf rfl isLeaf (Array.replicate layout.blockBytes 0) ?_ Array.size_replicate
    exact if_pos isLeaf
  · refine .table rfl level_pos (Nat.lt_of_le_of_ne level_le isLeaf)
      (Array.replicate layout.fanout {}) ?_ Array.size_replicate rfl
    exact if_neg isLeaf

end Block

namespace Cache

variable {cache : Cache} {index level slot : Nat} {block : Block} {address : Address}

theorem freshPayload_eq (founded : cache.frame.Founded) (level_pos : 1 ≤ level)
    (level_le : level ≤ cache.layout.depth) :
    cache.freshPayload level = .ok (cache.layout.blankPayload level) := by
  have regular : cache.layout.Regular := founded.regular
  rw [freshPayload, Layout.blankPayload]
  by_cases isLeaf : level = cache.layout.depth
  · have bound : cache.layout.blockBytes ≤ 2 ^ 62 :=
      Nat.pow_le_pow_right (by omega) (by have lt := regular.blockBits_lt; omega)
    have blank : allocate 1 cache.layout.blockBytes (0 : UInt8) =
        .ok (Array.replicate cache.layout.blockBytes 0) :=
      allocate_eq_ok_iff.mpr ⟨by omega, rfl⟩
    rw [if_pos isLeaf, if_pos isLeaf, regular.blockSize_eq, ok_bind, Payload.blankData, blank]
    rfl
  · have few := regular.fanout_le (Nat.lt_of_le_of_lt level_pos (Nat.lt_of_le_of_ne level_le isLeaf))
    have blank : allocate Link.bytes cache.layout.fanout ({} : Link) =
        .ok (Array.replicate cache.layout.fanout {}) :=
      allocate_eq_ok_iff.mpr ⟨by rw [Link.bytes]; omega, rfl⟩
    rw [if_neg isLeaf, if_neg isLeaf, regular.branching_eq, ok_bind, Payload.blankTable, blank]
    rfl

/-- The pool once a block is built: the block itself is new, and perhaps its parent has a
new link. -/
theorem view_rebuilt {middle : Cache} (layout : middle.layout = cache.layout)
    (found : middle.pool.blocks[index]? = some block) {before : Block}
    (parent : Nat) (change : Block → Block)
    (rebuilt : change block =
      before.rebuilt (cache.layout.blankPayload level) level parent)
    (locked : block.locked = before.locked) :
    { middle with pool := middle.pool.modify index change }.view =
      { middle.view with
        trie := { middle.trie with
          node := Function.update middle.trie.node index
            (some (Node.blank level before.tag parent)) }
        copies := Function.update middle.view.copies index
          (cache.layout.blankCopy level before.tag) } := by
  have kept : some before.locked = middle.view.locked index :=
    locked ▸ (Pool.look_of_block found fun block => some block.locked).symm
  have lock : (change block).locked = before.locked := by rw [rebuilt]; rfl
  rw [view_modify found, lock, kept, Function.update_eq_self, rebuilt, Block.node?_rebuilt,
    layout, Block.copy?_rebuilt]

/-- A block built anew that hangs where its predecessor hung. -/
def refreshed (cache : Cache) (index level : Nat) : Cache :=
  { cache with
    pool := cache.pool.modify index fun block =>
      block.rebuilt (cache.layout.blankPayload level) level block.parent }

theorem Tidy.refreshed (tidy : cache.Tidy) (founded : cache.frame.Founded) (level_pos : 1 ≤ level)
    (level_le : level ≤ cache.layout.depth) (index : Nat) : (cache.refreshed index level).Tidy :=
  tidy.modify (fun block _ _ => Block.shaped_rebuilt level_pos level_le block.parent block)
    fun _ _ => founded.maxReference_pos

theorem view_refreshed (found : cache.pool.blocks[index]? = some block) :
    (cache.refreshed index level).view =
      { cache.view with
        trie := { cache.trie with
          node := Function.update cache.trie.node index
            (some (Node.blank level block.tag block.parent)) }
        copies := Function.update cache.view.copies index
          (cache.layout.blankCopy level block.tag) } :=
  view_rebuilt rfl found _ _ rfl rfl

theorem block_refreshed (found : cache.pool.blocks[index]? = some block) :
    (cache.refreshed index level).pool.blocks[index]? =
      some (block.rebuilt (cache.layout.blankPayload level) level block.parent) :=
  Pool.blocks_modify_self found _

theorem build_eq (founded : cache.frame.Founded) (level_pos : 1 ≤ level)
    (level_le : level ≤ cache.layout.depth) (found : cache.pool.blocks[index]? = some block)
    {parent : Option Nat} {former : Link} {after : Cache}
    (hung : (match parent with
      | none => (cache.refreshed index level).hangFromTop index address
      | some parent => (cache.refreshed index level).hangFromTable index level address parent) =
        .ok (former, after))
    (vacant : former.valid = false) : cache.build index level address parent = .ok after := by
  have changed : cache.updateBlock index (fun block => { block with
      payload := cache.layout.blankPayload level, level, valid := true, parentValid := true,
      reference := 1, dirty := false }) = .ok (cache.refreshed index level) :=
    updateBlock_eq_ok (Pool.lt_capacity_of_block found) _
  rw [build, freshPayload_eq founded level_pos level_le, ok_bind, changed, ok_bind]
  cases parent with
  | none =>
    dsimp only at hung ⊢
    rw [hung, ok_bind]
    simp [vacant]
  | some parent =>
    dsimp only at hung ⊢
    rw [hung, ok_bind]
    simp [vacant]

theorem nameParent_spec {middle : Cache} (tidy : middle.Tidy) (layout : middle.layout = cache.layout)
    {former : Nat} (found : middle.pool.blocks[index]? =
      some (block.rebuilt (cache.layout.blankPayload level) level former)) (parent : Nat) :
    ∃ after, middle.updateBlock index (fun block => { block with parent }) = .ok after ∧
      after.Tidy ∧ after.stats = middle.stats ∧ after.view = { middle.view with
        trie := { middle.trie with
          node := Function.update middle.trie.node index
            (some (Node.blank level block.tag parent)) }
        copies := Function.update middle.view.copies index
          (cache.layout.blankCopy level block.tag) } :=
  ⟨_, updateBlock_eq_ok (Pool.lt_capacity_of_block found) _,
    tidy.modify (fun _ _ shaped => shaped.congr rfl rfl rfl rfl) fun _ bound => bound, rfl,
    view_rebuilt layout found parent _ rfl rfl⟩

theorem build_spec_of_top (founded : cache.frame.Founded) (tidy : cache.Tidy)
    (found : cache.pool.blocks[index]? = some block)
    (inRange : cache.layout.contains address = true)
    (slot_eq : cache.layout.slot (cache.layout.blockOf address) 1 = slot)
    (free : cache.trie.link none slot = none) :
    ∃ after, cache.build index 1 address none = .ok after ∧ after.Tidy ∧
      after.stats = cache.stats ∧ after.view = cache.view.place none slot index (Node.blank 1 block.tag slot)
        (cache.layout.blankCopy 1 block.tag) := by
  have regular : cache.layout.Regular := founded.regular
  have slot_lt : slot < cache.top.size := slot_eq ▸ (founded.covers address).mp inRange
  obtain ⟨former, isFormer⟩ : ∃ former, cache.top.entries[slot]? = some former :=
    ⟨_, Array.getElem?_eq_getElem slot_lt⟩
  have vacant : former.valid = false := by
    change cache.top.entries[slot]?.bind Link.leads? = none at free
    rw [isFormer, Option.bind_some, Link.leads?] at free
    simpa using free
  let middle : Cache := { cache.refreshed index 1 with
    top := cache.top.set slot { valid := true, target := index } }
  have tidy' := tidy.refreshed founded le_rfl regular.depth_pos index
  have tidy_middle : middle.Tidy := ⟨tidy'.hand_lt, tidy'.shaped, tidy'.bounded, tidy'.recorded⟩
  have found' : (cache.refreshed index 1).pool.blocks[index]? = _ := block_refreshed found
  obtain ⟨after, named, tidy_after, stats_after, view_after⟩ :=
    nameParent_spec tidy_middle rfl found' slot
  have hung : (cache.refreshed index 1).hangFromTop index address = .ok (former, after) := by
    have topIndex : (cache.refreshed index 1).layout.topIndex address = .ok slot :=
      slot_eq ▸ regular.topIndex_eq address
    have entry : (cache.refreshed index 1).top.get slot = .ok former :=
      TopIndex.get_eq_ok_iff.mpr isFormer
    rw [hangFromTop, topIndex, ok_bind, entry, ok_bind]
    dsimp only
    exact congrArg (· >>= fun cache => pure (former, cache)) named
  refine ⟨after, build_eq founded le_rfl regular.depth_pos found hung vacant, tidy_after,
    stats_after, ?_⟩
  have view_middle : middle.view = { (cache.refreshed index 1).view with
      trie := { (cache.refreshed index 1).view.trie with
        top := Function.update (cache.refreshed index 1).view.trie.top slot (some index) } } :=
    view_setTop (cache.refreshed index 1) slot_lt { valid := true, target := index }
  have trie_middle : middle.trie = middle.view.trie := rfl
  rw [view_after, trie_middle, view_middle, view_refreshed found, View.place, Trie.graft_top]
  exact View.ext rfl (Trie.ext rfl (Function.update_idem _ _ _)) (Function.update_idem _ _ _)
    rfl rfl rfl rfl

/-- The cache with a new link out of a table. -/
def pointed (cache : Cache) (table slot index : Nat) : Cache :=
  { cache with
    pool := cache.pool.modify table (Block.setLink slot { valid := true, target := index }) }

theorem Tidy.pointed (tidy : cache.Tidy) (table slot index : Nat) :
    (cache.pointed table slot index).Tidy := by
  refine tidy.modify (fun _ _ shaped => shaped.setLink _ _) fun block bound => ?_
  obtain ⟨payload, fields⟩ := Block.setLink_eq slot { valid := true, target := index } block
  rw [fields]
  exact bound

theorem view_pointed {parent : Nat} {table : Block} {former : Link}
    (found : cache.pool.blocks[parent]? = some table) (valid : table.valid = true)
    (isFormer : table.links[slot]? = some former) :
    (cache.pointed parent slot index).view = { cache.view with
      trie := { cache.trie with
        node := Function.update cache.trie.node parent (some {
          attached := table.parentValid
          level := table.level
          tag := table.tag
          parent := table.parent
          child := Function.update table.child? slot (some index) }) } } := by
  obtain ⟨payload, fields⟩ := Block.setLink_eq slot { valid := true, target := index } table
  have child : (table.setLink slot { valid := true, target := index }).child? =
      Function.update table.child? slot (some index) := by
    have inside : slot < table.links.size := (Array.getElem?_eq_some_iff.mp isFormer).1
    funext other
    rw [Block.child?_setLink]
    by_cases same : other = slot
    · rw [if_pos ⟨same.symm, inside⟩, same, Function.update_self]
      rfl
    · rw [if_neg fun here => same here.1.symm, Function.update_of_ne same]
  have node : (table.setLink slot { valid := true, target := index }).node? = some {
      attached := table.parentValid
      level := table.level
      tag := table.tag
      parent := table.parent
      child := Function.update table.child? slot (some index) } := by
    rw [← child, fields]
    exact Block.node?_eq_some_iff.mpr ⟨valid, rfl⟩
  have copy : (table.setLink slot { valid := true, target := index }).copy? cache.layout.depth =
      cache.view.copies parent := by
    change _ = cache.pool.look _ _
    rw [Pool.look_of_block found, Block.copy?, Block.copy?, Block.bytes?_setLink, fields]
  have locked : some (table.setLink slot { valid := true, target := index }).locked =
      cache.view.locked parent := by
    change _ = cache.pool.look _ _
    rw [Pool.look_of_block found, fields]
  rw [pointed, view_modify found, node, copy, locked, Function.update_eq_self,
    Function.update_eq_self]

/-- A built block above the leaves is a table, and it has a link for every selector. -/
theorem Tidy.exists_link (tidy : cache.Tidy) {table : Block} {parent : Nat}
    (found : cache.pool.blocks[parent]? = some table) (valid : table.valid = true)
    (level_lt : table.level < cache.layout.depth) (slot_lt : slot < cache.layout.fanout) :
    ∃ former, table.links[slot]? = some former := by
  cases tidy.shaped _ _ found with
  | unbuilt invalid _ _ _ => exact absurd (invalid.symm.trans valid) (by simp)
  | leaf _ isLeaf _ _ _ => exact absurd isLeaf (Nat.ne_of_lt level_lt)
  | table _ _ _ links payload size _ =>
    have isLinks : table.links = links := by rw [Block.links, payload]
    refine ⟨_, Array.getElem?_eq_getElem ?_⟩
    rw [isLinks, size]
    exact slot_lt

theorem build_spec_of_table (founded : cache.frame.Founded) (tidy : cache.Tidy)
    (found : cache.pool.blocks[index]? = some block) (below : 2 ≤ level)
    (level_le : level ≤ cache.layout.depth) {parent : Nat} (distinct : parent ≠ index)
    {above : Node} (isAbove : cache.trie.node parent = some above)
    (level_eq : level = above.level + 1)
    (slot_eq : cache.layout.slot (cache.layout.blockOf address) level = slot)
    (free : cache.trie.link (some parent) slot = none) :
    ∃ after, cache.build index level address (some parent) = .ok after ∧ after.Tidy ∧
      after.stats = cache.stats ∧ after.view = cache.view.place (some parent) slot index (Node.blank level block.tag parent)
        (cache.layout.blankCopy level block.tag) := by
  have regular : cache.layout.Regular := founded.regular
  have level_pos : 1 ≤ level := Nat.le_of_succ_le below
  obtain ⟨table, isTable, valid, rfl⟩ := block_of_node isAbove
  change level = table.level + 1 at level_eq
  have isTable' : (cache.refreshed index level).pool.blocks[parent]? = some table :=
    (Pool.blocks_modify_of_ne distinct _).trans isTable
  obtain ⟨former, isFormer⟩ := tidy.exists_link isTable valid (by omega)
    (slot_eq ▸ Layout.slot_lt (by omega) _)
  have vacant : former.valid = false := by
    simp only [Trie.link, isAbove, Option.bind_some, Block.child?, isFormer] at free
    simpa using free
  have tidy_middle := (tidy.refreshed founded level_pos level_le index).pointed parent slot index
  have found' : ((cache.refreshed index level).pointed parent slot index).pool.blocks[index]? = _ :=
    (Pool.blocks_modify_of_ne (Ne.symm distinct) _).trans (block_refreshed found)
  obtain ⟨after, named, tidy_after, stats_after, view_after⟩ :=
    nameParent_spec tidy_middle rfl found' parent
  have hung : (cache.refreshed index level).hangFromTable index level address parent =
      .ok (former, after) := by
    have selector : (cache.refreshed index level).layout.selector address level = .ok slot :=
      slot_eq ▸ regular.selector_eq address below level_le
    have linked : (cache.refreshed index level).updateBlock parent
        (Block.setLink slot { valid := true, target := index }) =
          .ok ((cache.refreshed index level).pointed parent slot index) :=
      updateBlock_eq_ok (Pool.lt_capacity_of_block isTable') _
    rw [hangFromTable, selector, ok_bind, Pool.get_eq_ok_iff.mpr isTable', ok_bind, isFormer]
    dsimp only
    rw [linked, ok_bind, named]
    rfl
  refine ⟨after, build_eq founded level_pos level_le found hung vacant, tidy_after, stats_after,
    ?_⟩
  have view_middle : ((cache.refreshed index level).pointed parent slot index).view = _ :=
    view_pointed isTable' valid isFormer
  have trie_middle : ((cache.refreshed index level).pointed parent slot index).trie =
      ((cache.refreshed index level).pointed parent slot index).view.trie := rfl
  have trie_refreshed :
      (cache.refreshed index level).trie = (cache.refreshed index level).view.trie := rfl
  have grafted : cache.view.trie.graft (some parent) slot index
      (Node.blank level block.tag parent) = _ := Trie.graft_table isAbove distinct
  rw [view_after, trie_middle, view_middle, trie_refreshed, view_refreshed found, View.place,
    grafted]
  refine View.ext rfl (Trie.ext rfl ?_) (Function.update_idem _ _ _) rfl rfl rfl rfl
  -- the two changes of the new block stand around that of its parent
  dsimp only
  rw [Function.update_comm (Ne.symm distinct), Function.update_idem]
  rfl

/-- A block that was taken out is built where it fits. -/
theorem build_spec (founded : cache.frame.Founded) (tidy : cache.Tidy)
    (found : cache.pool.blocks[index]? = some block)
    (inRange : cache.layout.contains address = true) (level_le : level ≤ cache.layout.depth)
    {parent : Option Nat} (slot_eq : cache.layout.slot (cache.layout.blockOf address) level = slot)
    (fits : (cache.trie.erase index).Fits parent slot index
      (Node.blank level block.tag (parent.getD slot)))
    (positive : ∀ other node, other ≠ index → cache.trie.node other = some node →
      1 ≤ node.level) :
    ∃ after, cache.build index level address parent = .ok after ∧ after.Tidy ∧
      after.stats = cache.stats ∧ after.view = cache.view.place parent slot index
        (Node.blank level block.tag (parent.getD slot)) (cache.layout.blankCopy level block.tag) := by
  have hangs := fits.hangs
  have free := fits.free
  cases parent with
  | none =>
    obtain ⟨isTop, _⟩ := hangs
    change level = 1 at isTop
    subst isTop
    exact build_spec_of_top founded tidy found inRange slot_eq free
  | some parent =>
    obtain ⟨_, above, isAbove, level_eq⟩ := hangs
    change level = above.level + 1 at level_eq
    have distinct : parent ≠ index := fun same => fits.owner_ne (congrArg some same)
    simp only [Trie.erase, if_neg distinct] at isAbove
    simp only [Trie.link, Trie.erase, if_neg distinct] at free
    have above_pos := positive parent above distinct isAbove
    exact build_spec_of_table founded tidy found (by omega) level_le distinct isAbove level_eq
      slot_eq free

theorem Tidy.of_swept (tidy : cache.Tidy) {pool : Pool} (swept : cache.pool.Swept pool)
    (stats : Stats) : { cache with pool, stats }.Tidy where
  hand_lt := swept.hand_lt
  shaped := by
    intro index block found
    obtain ⟨reference, older⟩ := swept.aged.block found
    exact (tidy.shaped _ _ older).congr rfl rfl rfl rfl
  bounded := swept.bounded tidy.bounded
  recorded := tidy.recorded

end Cache

end TrieCache
