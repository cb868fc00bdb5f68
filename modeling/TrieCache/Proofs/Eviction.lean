import TrieCache.Cache.Replace
import TrieCache.Proofs.Shed

/-!
# Eviction takes a block out

The parts of an eviction follow its block: the link that leads to it is cleared, its
children lose their parent, and what it held is queued.  What is left of the cache is the
same cache without the block.
-/

namespace TrieCache

namespace Block

theorem setLink_eq (slot : Nat) (link : Link) (block : Block) :
    ∃ payload, block.setLink slot link = { block with payload } := by
  unfold setLink
  split
  · exact ⟨_, rfl⟩
  · exact ⟨block.payload, rfl⟩

theorem links_setLink (slot : Nat) (link : Link) (block : Block) :
    (block.setLink slot link).links = block.links.setIfInBounds slot link := by
  cases payload : block.payload <;> simp [setLink, links, payload]

theorem bytes?_setLink (slot : Nat) (link : Link) (block : Block) :
    (block.setLink slot link).bytes? = block.bytes? := by
  cases payload : block.payload <;> simp [setLink, bytes?, payload]

theorem child?_setLink (slot : Nat) (link : Link) (block : Block) (other : Nat) :
    (block.setLink slot link).child? other =
      if slot = other ∧ slot < block.links.size then link.leads? else block.child? other := by
  rw [child?, links_setLink, Array.getElem?_setIfInBounds]
  by_cases same : slot = other
  · subst same
    by_cases inside : slot < block.links.size
    · simp [inside, Link.leads?]
    · simp [inside, child?]
  · simp [same, child?]

theorem Shaped.setLink {layout : Layout} {block : Block} (shaped : block.Shaped layout)
    (slot : Nat) (link : Link) : (block.setLink slot link).Shaped layout := by
  cases shaped with
  | unbuilt valid level payload dirty =>
    rw [Block.setLink, payload]
    exact .unbuilt valid level payload dirty
  | table valid level_pos level_lt links payload size dirty =>
    rw [Block.setLink, payload]
    exact .table valid level_pos level_lt _ rfl (by simpa using size) dirty
  | leaf valid level bytes payload size =>
    rw [Block.setLink, payload]
    exact .leaf valid level bytes payload size

theorem dropChild_eq (child : Nat) (block : Block) :
    (∃ slot, block.child? slot = some child ∧ slot < block.links.size ∧
      block.dropChild child = block.setLink slot { valid := false, target := child }) ∨
    ((∀ slot, block.child? slot ≠ some child) ∧ block.dropChild child = block) := by
  unfold dropChild
  split
  next slot found =>
    obtain ⟨slot_lt, leads, _⟩ := Array.findIdx?_eq_some_iff_getElem.mp found
    refine .inl ⟨slot, ?_, slot_lt, rfl⟩
    simp only [Bool.and_eq_true, beq_iff_eq] at leads
    rw [child?_eq_some_iff, Array.getElem?_eq_getElem slot_lt, ← leads.1, ← leads.2]
  next none =>
    refine .inr ⟨fun slot leads => ?_, rfl⟩
    have isLink := Array.mem_of_getElem? (child?_eq_some_iff.mp leads)
    have unlike := Array.findIdx?_eq_none_iff.mp none _ isLink
    simp at unlike

theorem child?_dropChild {child : Nat} {block : Block}
    (single : ∀ first second, block.child? first = some child → block.child? second = some child →
      first = second) (slot : Nat) :
    (block.dropChild child).child? slot = (block.child? slot).filter (· != child) := by
  rcases dropChild_eq child block with ⟨here, leads, here_lt, dropped⟩ | ⟨unlinked, same⟩
  · rw [dropped, child?_setLink]
    by_cases isHere : here = slot
    · subst isHere
      rw [if_pos ⟨rfl, here_lt⟩, leads]
      simp [Link.leads?, Option.filter]
    · rw [if_neg (fun found => isHere found.1)]
      exact (Trie.filter_ne_eq_self fun leads' => isHere (single _ _ leads leads')).symm
  · rw [same]
    exact (Trie.filter_ne_eq_self (unlinked slot)).symm

theorem dropChild_fields (child : Nat) (block : Block) :
    ∃ payload, block.dropChild child = { block with payload } := by
  rcases dropChild_eq child block with ⟨slot, _, _, dropped⟩ | ⟨_, same⟩
  · rw [dropped]
    exact setLink_eq _ _ _
  · exact ⟨block.payload, same⟩

theorem bytes?_dropChild (child : Nat) (block : Block) :
    (block.dropChild child).bytes? = block.bytes? := by
  rcases dropChild_eq child block with ⟨slot, _, _, dropped⟩ | ⟨_, same⟩
  · rw [dropped, bytes?_setLink]
  · rw [same]

theorem Shaped.dropChild {layout : Layout} {block : Block} (shaped : block.Shaped layout)
    (child : Nat) : (block.dropChild child).Shaped layout := by
  rcases dropChild_eq child block with ⟨slot, _, _, dropped⟩ | ⟨_, same⟩
  · rw [dropped]
    exact shaped.setLink _ _
  · rwa [same]

end Block

namespace Cache

variable {cache : Cache} {victim : Nat} {block : Block}

section Unlinking

theorem unlink_of_top (sound : cache.view.Sound) (tidy : cache.Tidy)
    (found : cache.pool.blocks[victim]? = some block) (level : block.level = 1)
    (leads : cache.trie.link none block.parent = some victim) :
    ∃ after, cache.unlink victim = .ok after ∧ after.Tidy ∧
      after.view = { cache.view with trie := cache.trie.unhang victim } ∧
      after.pool.blocks[victim]? = some block := by
  have linked : cache.trie.Linked := sound.linked
  obtain ⟨⟨valid, target⟩, isEntry, here⟩ := Option.bind_eq_some_iff.mp leads
  have slot_lt : block.parent < cache.top.size := (Array.getElem?_eq_some_iff.mp isEntry).1
  simp only [Link.leads?, Option.ite_none_right_eq_some, Option.some.injEq] at here
  obtain ⟨rfl, rfl⟩ := here
  have ran : cache.unlink target =
      .ok { cache with top := cache.top.set block.parent { valid := false, target } } := by
    rw [unlink, Pool.get_eq_ok_iff.mpr found, ok_bind, if_pos level,
      TopIndex.get_eq_ok_iff.mpr isEntry, ok_bind, if_pos ⟨rfl, rfl⟩]
    rfl
  refine ⟨_, ran, ⟨tidy.hand_lt, tidy.shaped, tidy.bounded, tidy.recorded⟩, ?_, found⟩
  rw [view_setTop cache slot_lt, linked.unhang_of_top leads]
  rfl

theorem unlink_of_table (sound : cache.view.Sound) (tidy : cache.Tidy)
    (found : cache.pool.blocks[victim]? = some block) (level : block.level ≠ 1) {slot : Nat}
    (distinct : block.parent ≠ victim)
    (leads : cache.trie.link (some block.parent) slot = some victim) :
    ∃ after, cache.unlink victim = .ok after ∧ after.Tidy ∧
      after.view = { cache.view with trie := cache.trie.unhang victim } ∧
      after.pool.blocks[victim]? = some block := by
  have linked : cache.trie.Linked := sound.linked
  obtain ⟨above, isAbove, _⟩ := Trie.link_some_eq_some_iff.mp leads
  obtain ⟨table, isTable, valid, rfl⟩ := block_of_node isAbove
  have single : ∀ first second, table.child? first = some victim →
      table.child? second = some victim → first = second := by
    intro first second one another
    have oneLeads := Trie.link_some_eq_some_iff.mpr ⟨_, isAbove, one⟩
    exact linked.single oneLeads (Trie.link_some_eq_some_iff.mpr ⟨_, isAbove, another⟩)
  obtain ⟨payload, fields⟩ := Block.dropChild_fields victim table
  have child : (table.dropChild victim).child? =
      fun slot => (table.child? slot).filter (· != victim) :=
    funext (Block.child?_dropChild single)
  have ran : cache.unlink victim =
      .ok { cache with pool := cache.pool.modify block.parent (Block.dropChild victim) } := by
    rw [unlink, Pool.get_eq_ok_iff.mpr found, ok_bind, if_neg level,
      updateBlock_eq_ok (Pool.lt_capacity_of_block isTable)]
  refine ⟨_, ran, tidy.modify (fun _ _ shaped => shaped.dropChild _) ?_, ?_, ?_⟩
  · intro table' bound
    obtain ⟨payload', fields'⟩ := Block.dropChild_fields victim table'
    rw [fields']
    exact bound
  · have node : (table.dropChild victim).node? = some {
        attached := table.parentValid
        level := table.level
        tag := table.tag
        parent := table.parent
        child := fun slot => (table.child? slot).filter (· != victim) } := by
      rw [← child, fields]
      exact Block.node?_eq_some_iff.mpr ⟨valid, rfl⟩
    have copy : (table.dropChild victim).copy? cache.layout.depth =
        cache.view.copies block.parent := by
      change _ = cache.pool.look _ _
      rw [Pool.look_of_block isTable, Block.copy?, Block.copy?, Block.bytes?_dropChild, fields]
    have locked : some (table.dropChild victim).locked = cache.view.locked block.parent := by
      change _ = cache.pool.look _ _
      rw [Pool.look_of_block isTable, fields]
    rw [view_modify isTable, node, copy, locked, Function.update_eq_self, Function.update_eq_self,
      linked.unhang_of_table isAbove leads]
  · change (cache.pool.modify _ _).blocks[victim]? = _
    rw [Pool.blocks_modify_of_ne (Ne.symm distinct), found]

/-- The link to an attached block is cleared, and nothing else. -/
theorem unlink_spec (sound : cache.view.Sound) (tidy : cache.Tidy)
    (found : cache.pool.blocks[victim]? = some block) (valid : block.valid = true)
    (attached : block.parentValid = true) :
    ∃ after, cache.unlink victim = .ok after ∧ after.Tidy ∧
      after.view = { cache.view with trie := cache.trie.unhang victim } ∧
      after.pool.blocks[victim]? = some block := by
  have linked : cache.trie.Linked := sound.linked
  have isNode := (node_of_block found).trans (Block.node?_eq_some_iff.mpr ⟨valid, rfl⟩)
  obtain ⟨owner, slot, leads⟩ := linked.owned isNode attached
  obtain ⟨node, isNode', _, hangs⟩ := linked.target leads
  rw [isNode, Option.some.injEq] at isNode'
  subst isNode'
  cases owner with
  | none =>
    obtain ⟨level, parent⟩ := hangs
    change block.parent = slot at parent
    subst parent
    exact unlink_of_top sound tidy found level leads
  | some table =>
    obtain ⟨parent, above, isAbove, level⟩ := hangs
    change block.parent = table at parent
    change block.level = above.level + 1 at level
    subst parent
    have positive := linked.level_pos isAbove
    refine unlink_of_table sound tidy found (by omega) ?_ leads
    intro same
    rw [same] at isAbove
    rw [isNode, Option.some.injEq] at isAbove
    rw [← isAbove] at level
    change block.level = block.level + 1 at level
    omega

end Unlinking

section Retiring

theorem orphan_spec (tidy : cache.Tidy) (children : List Nat)
    (built : ∀ index ∈ children, ∃ node, cache.trie.node index = some node) :
    ∃ after, cache.orphan children = .ok after ∧ after.Tidy ∧
      after.view = { cache.view with trie := cache.trie.orphan children } := by
  induction children generalizing cache with
  | nil => exact ⟨cache, rfl, tidy, by rw [Trie.orphan_nil]; rfl⟩
  | cons index rest ih =>
    obtain ⟨node, isNode⟩ := built index List.mem_cons_self
    obtain ⟨child, found, valid, rfl⟩ := block_of_node isNode
    let middle : Cache := { cache with
      pool := cache.pool.modify index fun block => { block with parentValid := false } }
    have tidy' : middle.Tidy :=
      tidy.modify (fun _ _ shaped => shaped.congr rfl rfl rfl rfl) fun _ bound => bound
    have node' : ({ child with parentValid := false } : Block).node? = some {
        attached := false
        level := child.level
        tag := child.tag
        parent := child.parent
        child := child.child? } :=
      Block.node?_eq_some_iff.mpr ⟨valid, rfl⟩
    have view : middle.view = { cache.view with trie := cache.trie.orphan [index] } := by
      have copy : ({ child with parentValid := false } : Block).copy? cache.layout.depth =
          cache.view.copies index :=
        (Pool.look_of_block found (Block.copy? cache.layout.depth)).symm
      have locked : some child.locked = cache.view.locked index :=
        (Pool.look_of_block found fun block => some block.locked).symm
      rw [view_modify found, node', copy, locked, Function.update_eq_self,
        Function.update_eq_self, Trie.orphan_singleton isNode]
    have trie : middle.trie = cache.trie.orphan [index] := congrArg View.trie view
    have built' : ∀ other ∈ rest, ∃ node, middle.trie.node other = some node := by
      intro other isOther
      obtain ⟨node, isNode⟩ := built other (List.mem_cons_of_mem _ isOther)
      rw [trie]
      exact ⟨_, congrArg (Option.map _) isNode⟩
    obtain ⟨after, ran, tidy'', view'⟩ := ih tidy' built'
    refine ⟨after, ?_, tidy'', ?_⟩
    · rw [orphan, updateBlock_eq_ok (Pool.lt_capacity_of_block found), ok_bind]
      exact ran
    · rw [view', view, trie, ← Trie.orphan_cons]

theorem retireTable_spec (tidy : cache.Tidy) (found : cache.pool.blocks[victim]? = some block)
    (built : ∀ index ∈ block.children, ∃ node, cache.trie.node index = some node) :
    ∃ after, cache.retireTable victim = .ok after ∧ after.Tidy ∧
      after.view = { cache.view with trie := cache.trie.orphan block.children } := by
  obtain ⟨after, ran, tidy', view⟩ := orphan_spec tidy block.children built
  refine ⟨after.record (Stats.recordOrphans · block.children.length), ?_, ?_, view⟩
  · rw [retireTable, Pool.get_eq_ok_iff.mpr found, ok_bind, ran]
    rfl
  · exact ⟨tidy'.hand_lt, tidy'.shaped, tidy'.bounded, tidy'.recorded⟩

theorem erase_view_modify (found : cache.pool.blocks[victim]? = some block)
    (change : Block → Block) (locked : (change block).locked = block.locked) :
    { cache with pool := cache.pool.modify victim change }.view.erase victim =
      cache.view.erase victim := by
  have kept : some block.locked = cache.view.locked victim :=
    (Pool.look_of_block found fun block => some block.locked).symm
  have node : (Trie.erase { cache.trie with
        node := Function.update cache.trie.node victim (change block).node? } victim) =
      cache.trie.erase victim := by
    refine Trie.ext rfl (funext fun other => ?_)
    by_cases isVictim : other = victim
    · simp [Trie.erase, isVictim]
    · simp [Trie.erase, isVictim]
  rw [view_modify found, locked, kept, Function.update_eq_self]
  exact View.ext rfl node (Function.update_idem _ _ _) rfl rfl rfl rfl

/-- The fast path forgets a leaf, which it knows under one tag only. -/
theorem removeShortcut_spec (tidy : cache.Tidy) {tag : Nat}
    (tagged : ∀ other, cache.view.shortcut other = some victim → other = tag) {after : Cache}
    (settled : after = if cache.fastPath.lookup tag = some victim then
      { cache with fastPath := (cache.fastPath.remove tag).2 } else cache) :
    after.Tidy ∧ after.view = { cache.view with
      shortcut := fun other => (cache.view.shortcut other).filter (· != victim) } := by
  obtain ⟨recorded, capacity, sequence, lookup⟩ := FastPath.remove_spec tidy.recorded tag
  split at settled
  next leads =>
    subst settled
    refine ⟨⟨tidy.hand_lt, tidy.shaped, tidy.bounded, recorded⟩, View.ext ?_ rfl rfl rfl ?_ sequence rfl⟩
    · simp only [view, frame, capacity]
    · funext other
      change (cache.fastPath.remove tag).2.lookup other = (cache.fastPath.lookup other).filter _
      rw [lookup other]
      by_cases same : other = tag
      · rw [if_pos same, same, leads]
        simp [Option.filter]
      · rw [if_neg same]
        exact (Trie.filter_ne_eq_self fun leads' => same (tagged other leads')).symm
  next none =>
    subst settled
    refine ⟨tidy, View.ext rfl rfl rfl rfl (funext fun other => ?_) rfl rfl⟩
    refine (Trie.filter_ne_eq_self fun leads => none ?_).symm
    rw [← tagged other leads]
    exact leads

theorem queueDirty_spec (tidy : cache.Tidy) (found : cache.pool.blocks[victim]? = some block)
    (valid : block.valid = true) (level : block.level = cache.layout.depth) {after : Cache}
    (queued : after =
      if block.dirty then cache.queueWriteback block.tag (block.bytes?.getD #[]) else cache) :
    after.Tidy ∧ after.pool = cache.pool ∧ after.view = { cache.view with
      queue := cache.view.queue ++
        ((cache.view.copies victim).filter Copy.dirty).toList.map Copy.writeback } := by
  have copy : cache.view.copies victim =
      some { tag := block.tag, bytes := block.bytes?.getD #[], dirty := block.dirty } :=
    (Pool.look_of_block found _).trans (Block.copy?_eq_some_iff.mpr ⟨valid, level, rfl⟩)
  rw [copy]
  cases dirty : block.dirty with
  | false =>
    rw [dirty] at queued
    subst queued
    exact ⟨tidy, rfl, by simp [Option.filter]⟩
  | true =>
    rw [dirty, if_pos rfl] at queued
    subst queued
    refine ⟨⟨tidy.hand_lt, tidy.shaped, tidy.bounded, tidy.recorded⟩, rfl, ?_⟩
    rw [view_queueWriteback]
    simp [Option.filter, Copy.writeback]

theorem Tidy.emptied (tidy : cache.Tidy) (victim : Nat) :
    Tidy { cache with
      pool := cache.pool.modify victim fun block => { block with tag := 0, dirty := false } } := by
  refine tidy.modify (fun block _ shaped => ?_) fun _ bound => bound
  cases shaped with
  | unbuilt valid level payload _ => exact .unbuilt valid level payload rfl
  | table valid level_pos level_lt links payload size _ =>
    exact .table valid level_pos level_lt links payload size rfl
  | leaf valid level bytes payload size => exact .leaf valid level bytes payload size

theorem retireData_spec (tidy : cache.Tidy) (found : cache.pool.blocks[victim]? = some block)
    (valid : block.valid = true) (level : block.level = cache.layout.depth)
    (tagged : ∀ tag, cache.view.shortcut tag = some victim → tag = block.tag) :
    ∃ after, cache.retireData victim = .ok after ∧ after.Tidy ∧
      after.view.erase victim = { cache.view.erase victim with
        shortcut := fun tag => (cache.view.shortcut tag).filter (· != victim)
        queue := cache.view.queue ++
          ((cache.view.copies victim).filter Copy.dirty).toList.map Copy.writeback } := by
  obtain ⟨queued, queued_eq⟩ : ∃ queued, queued =
      if block.dirty then cache.queueWriteback block.tag (block.bytes?.getD #[]) else cache :=
    ⟨_, rfl⟩
  obtain ⟨tidy_queued, pool, view_queued⟩ := queueDirty_spec tidy found valid level queued_eq
  have found' : queued.pool.blocks[victim]? = some block := pool ▸ found
  have shortcut : queued.view.shortcut = cache.view.shortcut := by rw [view_queued]
  let emptied : Cache := { queued with
    pool := queued.pool.modify victim fun block => { block with tag := 0, dirty := false } }
  obtain ⟨settled, settled_eq⟩ : ∃ settled, settled =
      if emptied.fastPath.lookup block.tag = some victim then
        { emptied with fastPath := (emptied.fastPath.remove block.tag).2 } else emptied :=
    ⟨_, rfl⟩
  obtain ⟨tidy_settled, view_settled⟩ := removeShortcut_spec (tidy_queued.emptied victim)
    (fun tag leads => tagged tag (shortcut ▸ leads)) settled_eq
  refine ⟨settled.record Stats.recordLeafEviction, ?_,
    ⟨tidy_settled.hand_lt, tidy_settled.shaped, tidy_settled.bounded, tidy_settled.recorded⟩, ?_⟩
  · rw [retireData, Pool.get_eq_ok_iff.mpr found, ok_bind, ← queued_eq]
    dsimp only
    rw [updateBlock_eq_ok (Pool.lt_capacity_of_block found'), ok_bind, settled_eq]
    rfl
  · have erased : emptied.view.erase victim = queued.view.erase victim :=
      erase_view_modify found' _ rfl
    calc
      settled.view.erase victim = { emptied.view.erase victim with
          shortcut := fun tag => (emptied.view.shortcut tag).filter (· != victim) } := by
        rw [view_settled]
        rfl
      _ = { queued.view.erase victim with
          shortcut := fun tag => (queued.view.shortcut tag).filter (· != victim) } := by
        rw [erased]
        rfl
      _ = _ := by
        rw [view_queued]
        rfl

end Retiring

/-- The children of a block in the trie are the children of the block. -/
theorem mem_children_iff_link (found : cache.pool.blocks[victim]? = some block)
    (valid : block.valid = true) (index : Nat) :
    index ∈ block.children ↔ ∃ slot, cache.view.trie.link (some victim) slot = some index := by
  have isNode := (node_of_block found).trans (Block.node?_eq_some_iff.mpr ⟨valid, rfl⟩)
  rw [Block.mem_children_iff]
  refine exists_congr fun slot => ?_
  change _ ↔ (cache.trie.node victim).bind _ = _
  rw [isNode, Option.bind_some]

theorem evict_of_unbuilt (sound : cache.view.Sound)
    (found : cache.pool.blocks[victim]? = some block) (invalid : block.valid = false) :
    cache.evict victim = .ok cache ∧ cache.view.erase victim = cache.view.remove victim [] := by
  have vacant : cache.trie.node victim = none := by
    rw [node_of_block found, Block.node?, if_neg (by simp [invalid])]
  have copy : cache.view.copies victim = none := by
    refine (Pool.look_of_block found _).trans (if_neg ?_)
    simp [invalid]
  have unlinked : ∀ owner slot, cache.trie.link owner slot ≠ some victim :=
    sound.linked.link_ne_of_node_eq_none vacant
  have ran : cache.evict victim = .ok cache := by
    rw [evict, Pool.get_eq_ok_iff.mpr found, ok_bind, if_neg (by simp [invalid])]
    rfl
  refine ⟨ran, View.ext rfl ?_ rfl rfl (funext fun tag => ?_) rfl ?_⟩
  · change cache.trie.erase victim = Trie.erase ((cache.trie.unhang victim).orphan []) victim
    rw [Trie.unhang_eq_self unlinked, Trie.orphan_nil]
  · refine (Trie.filter_ne_eq_self fun leads => ?_).symm
    obtain ⟨node, isNode, _⟩ := sound.tagged leads
    exact absurd (vacant.symm.trans isNode) (by simp)
  · simp [View.remove, View.erase, copy]

theorem unlink_or_keep_spec (sound : cache.view.Sound) (tidy : cache.Tidy)
    (found : cache.pool.blocks[victim]? = some block) (valid : block.valid = true) :
    ∃ after, (if block.parentValid then cache.unlink victim else .ok cache) = .ok after ∧
      after.Tidy ∧ after.view = { cache.view with trie := cache.trie.unhang victim } ∧
      after.pool.blocks[victim]? = some block := by
  cases attached : block.parentValid with
  | true =>
    rw [if_pos rfl]
    exact unlink_spec sound tidy found valid attached
  | false =>
    have unlinked : ∀ owner slot, cache.trie.link owner slot ≠ some victim := by
      intro owner slot leads
      obtain ⟨node, isNode, isAttached, _⟩ := sound.linked.target leads
      have same := (node_of_block found).symm.trans isNode
      obtain ⟨_, rfl⟩ := Block.node?_eq_some_iff.mp same
      exact absurd (attached.symm.trans isAttached) (by simp)
    refine ⟨cache, if_neg (by simp), tidy, ?_, found⟩
    rw [Trie.unhang_eq_self unlinked]
    rfl

theorem evict_of_valid (found : cache.pool.blocks[victim]? = some block)
    (valid : block.valid = true) (level_ne : block.level ≠ 0) {middle : Cache}
    (ran : (if block.parentValid then cache.unlink victim else .ok cache) = .ok middle) :
    cache.evict victim =
      if block.level = middle.layout.depth then middle.retireData victim
      else middle.retireTable victim := by
  rw [evict, Pool.get_eq_ok_iff.mpr found, ok_bind, if_pos ⟨valid, level_ne⟩]
  dsimp only
  split at ran
  next attached => rw [if_pos attached, ran, ok_bind]
  next detached => rw [if_neg detached, ran, ok_bind]

theorem evict_of_leaf (sound : cache.view.Sound) (tidy : cache.Tidy)
    (found : cache.pool.blocks[victim]? = some block) (valid : block.valid = true)
    (level : block.level = cache.layout.depth) (level_ne : block.level ≠ 0) :
    ∃ after, cache.evict victim = .ok after ∧ after.Tidy ∧
      after.view.erase victim = cache.view.remove victim [] := by
  obtain ⟨middle, ran, tidy', view, found'⟩ := unlink_or_keep_spec sound tidy found valid
  have frame : middle.frame = cache.frame := congrArg View.frame view
  have level' : block.level = middle.layout.depth :=
    level.trans (congrArg (fun frame : Frame => frame.layout.depth) frame).symm
  have shortcut : middle.view.shortcut = cache.view.shortcut := by rw [view]
  have tagged : ∀ tag, middle.view.shortcut tag = some victim → tag = block.tag := by
    intro tag leads
    obtain ⟨node, isNode, _, rfl⟩ := sound.tagged (shortcut ▸ leads)
    have same := (node_of_block found).symm.trans isNode
    obtain ⟨_, rfl⟩ := Block.node?_eq_some_iff.mp same
    rfl
  obtain ⟨after, ran', tidy'', erased⟩ := retireData_spec tidy' found' valid level' tagged
  refine ⟨after, ?_, tidy'', ?_⟩
  · rw [evict_of_valid found valid level_ne ran, if_pos level', ran']
  · rw [erased, view]
    refine View.ext rfl ?_ rfl rfl rfl rfl rfl
    change (cache.trie.unhang victim).erase victim =
      Trie.erase ((cache.trie.unhang victim).orphan []) victim
    rw [Trie.orphan_nil]

theorem evict_of_table (sound : cache.view.Sound) (tidy : cache.Tidy)
    (found : cache.pool.blocks[victim]? = some block) (valid : block.valid = true)
    (level : block.level ≠ cache.layout.depth) (level_ne : block.level ≠ 0) :
    ∃ after, cache.evict victim = .ok after ∧ after.Tidy ∧
      after.view.erase victim = cache.view.remove victim block.children := by
  obtain ⟨middle, ran, tidy', view, found'⟩ := unlink_or_keep_spec sound tidy found valid
  have trie : middle.trie = cache.trie.unhang victim := congrArg View.trie view
  have built : ∀ index ∈ block.children, ∃ node, middle.trie.node index = some node := by
    intro index isChild
    obtain ⟨slot, leads⟩ := (mem_children_iff_link found valid index).mp isChild
    obtain ⟨node, isNode, _⟩ := sound.linked.target leads
    rw [trie]
    exact ⟨_, congrArg (Option.map _) isNode⟩
  have copy : cache.view.copies victim = none := by
    refine (Pool.look_of_block found _).trans (if_neg ?_)
    simp [level]
  obtain ⟨after, ran', tidy'', view'⟩ := retireTable_spec tidy' found' built
  refine ⟨after, ?_, tidy'', ?_⟩
  · have frame : middle.frame = cache.frame := congrArg View.frame view
    have level' : block.level ≠ middle.layout.depth :=
      fun same => level (same.trans (congrArg (fun frame : Frame => frame.layout.depth) frame))
    rw [evict_of_valid found valid level_ne ran, if_neg level', ran']
  · rw [view', view, trie]
    refine View.ext rfl rfl rfl rfl (funext fun tag => ?_) rfl ?_
    · refine (Trie.filter_ne_eq_self fun leads => ?_).symm
      obtain ⟨node, isNode, isLeaf, _⟩ := sound.tagged leads
      have same := (node_of_block found).symm.trans isNode
      obtain ⟨_, rfl⟩ := Block.node?_eq_some_iff.mp same
      exact level isLeaf
    · simp [View.remove, View.erase, copy]

/-- An eviction takes the block out and leaves the rest as it is. -/
theorem evict_spec (sound : cache.view.Sound) (tidy : cache.Tidy)
    (victim_lt : victim < cache.pool.capacity) :
    ∃ after children, cache.evict victim = .ok after ∧ after.Tidy ∧
      (∀ index, index ∈ children ↔ ∃ slot, cache.view.trie.link (some victim) slot = some index) ∧
      after.view.erase victim = cache.view.remove victim children := by
  obtain ⟨block, found⟩ := Pool.exists_block victim_lt
  cases valid : block.valid with
  | false =>
    have vacant : cache.trie.node victim = none := by
      rw [node_of_block found, Block.node?, if_neg (by simp [valid])]
    obtain ⟨ran, erased⟩ := evict_of_unbuilt sound found valid
    refine ⟨cache, [], ran, tidy, fun index => ?_, erased⟩
    constructor
    · intro mem
      cases mem
    · rintro ⟨slot, leads⟩
      change (cache.trie.node victim).bind _ = _ at leads
      rw [vacant] at leads
      cases leads
  | true =>
    have isNode := (node_of_block found).trans (Block.node?_eq_some_iff.mpr ⟨valid, rfl⟩)
    have level_pos : 1 ≤ block.level := sound.linked.level_pos isNode
    by_cases level : block.level = cache.layout.depth
    · obtain ⟨after, ran, tidy', erased⟩ :=
        evict_of_leaf sound tidy found valid level (Nat.ne_of_gt level_pos)
      have none : block.children = [] := by
        cases tidy.shaped _ _ found with
        | unbuilt invalid _ _ _ => exact absurd (invalid.symm.trans valid) (by simp)
        | table _ _ level_lt _ _ _ _ => exact absurd level (Nat.ne_of_lt level_lt)
        | leaf _ _ bytes payload _ => simp [Block.children, Block.links, payload]
      exact ⟨after, [], ran, tidy', none ▸ mem_children_iff_link found valid, erased⟩
    · obtain ⟨after, ran, tidy', erased⟩ :=
        evict_of_table sound tidy found valid level (Nat.ne_of_gt level_pos)
      exact ⟨after, block.children, ran, tidy', mem_children_iff_link found valid, erased⟩

end Cache

end TrieCache
