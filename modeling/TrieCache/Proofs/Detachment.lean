import TrieCache.Proofs.Cutting
import TrieCache.Proofs.Status

/-!
# What an eviction detaches

A built block that is evicted loses the one link that leads to it, if it is attached, and its
children lose their parent.  Everything else stays as it is, so an eviction is described here by
the cache it leaves and not only by its view.

Evictions are made in the middle of insertions.  As long as an insertion builds tables the cache
stays sound between one level and the next, so every eviction starts from a sound cache, also
one of an insertion that does not get through.
-/

namespace TrieCache

namespace Pool

variable {pool : Pool}

/-- The same pool with some blocks left without a parent. -/
def orphan (children : List Nat) (pool : Pool) : Pool :=
  { pool with
    blocks := pool.blocks.mapIdx fun index block =>
      { block with parentValid := block.parentValid && !children.contains index } }

theorem blocks_orphan (children : List Nat) (other : Nat) (pool : Pool) :
    (pool.orphan children).blocks[other]? = pool.blocks[other]?.map fun block =>
      { block with parentValid := block.parentValid && !children.contains other } :=
  Array.getElem?_mapIdx

theorem orphan_nil (pool : Pool) : pool.orphan [] = pool := by
  refine ext_blocks rfl fun index => ?_
  simp [blocks_orphan]

theorem orphan_cons (child : Nat) (rest : List Nat) (pool : Pool) :
    pool.orphan (child :: rest) =
      (pool.modify child fun block => { block with parentValid := false }).orphan rest := by
  refine ext_blocks rfl fun index => ?_
  rw [blocks_orphan, blocks_orphan, blocks_modify]
  by_cases here : child = index
  · simp [here, Function.comp_def]
  · simp [here, Ne.symm here]

end Pool

namespace FastPath

/-- The same table without a tag, if the tag leads to a block. -/
def forget (table : FastPath) (tag index : Nat) : FastPath :=
  if table.lookup tag = some index then (table.remove tag).2 else table

variable {table : FastPath}

theorem lookup_forget (recorded : table.Recorded) (tag index other : Nat) :
    (table.forget tag index).lookup other =
      if other = tag ∧ table.lookup other = some index then none else table.lookup other := by
  obtain ⟨_, _, _, lookup⟩ := remove_spec recorded tag
  unfold forget
  split
  next leads =>
    rw [lookup]
    by_cases same : other = tag
    · simp [same, leads]
    · simp [same]
  next unlisted =>
    rw [if_neg]
    rintro ⟨rfl, leads⟩
    exact unlisted leads

theorem capacity_forget (recorded : table.Recorded) (tag index : Nat) :
    (table.forget tag index).capacity = table.capacity := by
  unfold forget
  split
  · exact (remove_spec recorded tag).2.1
  · rfl

end FastPath

namespace Cache

variable {cache after : Cache} {index : Nat} {block : Block}

section Retiring

/-- What a cache is once a data block was emptied. -/
def emptied (cache : Cache) (index : Nat) (block : Block) : Cache :=
  { cache with
    pool := cache.pool.modify index fun block => { block with tag := 0, dirty := false }
    fastPath := cache.fastPath.forget block.tag index
    writebacks :=
      if block.dirty then
        cache.writebacks.push { tag := block.tag, bytes := block.bytes?.getD #[] }
      else cache.writebacks
    stats :=
      (if block.dirty then cache.stats.recordWriteback else cache.stats).recordLeafEviction }

theorem retireData_eq (found : cache.pool.blocks[index]? = some block) :
    cache.retireData index = .ok (cache.emptied index block) := by
  have index_lt := Pool.lt_capacity_of_block found
  rw [retireData, Pool.get_eq_ok_iff.mpr found, ok_bind, emptied, FastPath.forget]
  cases block.dirty with
  | false =>
    simp only [updateBlock_eq_ok index_lt, ok_bind, Bool.false_eq_true, if_false]
    split <;> rfl
  | true =>
    simp only [queueWriteback, updateBlock, if_pos index_lt, ok_bind, if_true]
    split <;> rfl

theorem orphan_eq {children : List Nat} (inside : ∀ child ∈ children, child < cache.pool.capacity) :
    cache.orphan children = .ok { cache with pool := cache.pool.orphan children } := by
  induction children generalizing cache with
  | nil => rw [Pool.orphan_nil, orphan]
  | cons child rest ih =>
    have inside' : ∀ other ∈ rest,
        other < (cache.pool.modify child fun block => { block with parentValid := false }).capacity := by
      intro other mem
      rw [Pool.capacity_modify]
      exact inside other (List.mem_cons_of_mem _ mem)
    rw [orphan, updateBlock_eq_ok (inside child List.mem_cons_self), ok_bind, ih inside',
      Pool.orphan_cons]

/-- What a cache is once the children of a table were orphaned. -/
def withOrphans (cache : Cache) (children : List Nat) : Cache :=
  { cache with
    pool := cache.pool.orphan children
    stats := cache.stats.recordOrphans children.length }

theorem retireTable_eq (found : cache.pool.blocks[index]? = some block)
    (inside : ∀ child ∈ block.children, child < cache.pool.capacity) :
    cache.retireTable index = .ok (cache.withOrphans block.children) := by
  rw [retireTable, Pool.get_eq_ok_iff.mpr found, ok_bind, orphan_eq inside]
  rfl

end Retiring

/-- How a built block hangs in the structure, and what hangs in it. -/
structure Hung (cache : Cache) (index : Nat) (block : Block) : Prop where
  /-- One link leads to an attached block: a slot of the top index, or one of its parent. -/
  hangs : block.parentValid = true → ∃ owner slot,
    (block.level = 1 ∧ owner = none ∧ slot = block.parent ∨
      block.level ≠ 1 ∧ owner = some block.parent) ∧
      ∀ owner' slot', cache.leads owner' slot' = some index ↔ owner' = owner ∧ slot' = slot
  loose : block.parentValid = false → ∀ owner slot, cache.leads owner slot ≠ some index
  nodup : block.children.Nodup
  attached {child : Nat} : child ∈ block.children →
    ∃ below, cache.pool.blocks[child]? = some below ∧ below.valid = true ∧
      below.parentValid = true
  childless : block.level = cache.layout.depth → block.children = []

/-- A built block was taken out of the structure, and nothing else happened. -/
structure Detaches (before after : Cache) (index : Nat) (block : Block) : Prop
    extends before.Hung index block where
  /-- The link to the block is cleared, and all others lead where they did. -/
  links (owner : Option Nat) (slot : Nat) :
    after.leads owner slot = (before.leads owner slot).filter (· != index)
  clear (owner : Option Nat) (slot : Nat) : after.leads owner slot ≠ some index
  top : after.top.entries = before.top.entries.map (Link.cut index)
  /-- The children lose their parent; the other blocks change only if they led to this one. -/
  others {other : Nat} : other ≠ index →
    after.pool.blocks[other]? = before.pool.blocks[other]?.map fun was =>
      { was.cut index with parentValid := was.parentValid && !block.children.contains other }
  own : after.pool.blocks[index]? = some
    (if block.level = before.layout.depth then { block with tag := 0, dirty := false } else block)
  fastPath : after.fastPath =
    if block.level = before.layout.depth then before.fastPath.forget block.tag index
    else before.fastPath
  shortcuts (tag : Nat) : after.fastPath.lookup tag =
    if block.level = before.layout.depth ∧ tag = block.tag ∧
      before.fastPath.lookup tag = some index then none else before.fastPath.lookup tag
  writebacks : after.writebacks =
    if block.level = before.layout.depth ∧ block.dirty = true then
      before.writebacks.push { tag := block.tag, bytes := block.bytes?.getD #[] }
    else before.writebacks
  stats : after.stats =
    if block.level = before.layout.depth then
      (if block.dirty then before.stats.recordWriteback else before.stats).recordLeafEviction
    else before.stats.recordOrphans block.children.length
  frame : after.frame = before.frame
  cursor : after.cursor = before.cursor

/-- The links of a cache are in the top index and in the tables. -/
theorem leads_eq_of_links {before after : Cache} (top : after.top = before.top)
    (links : ∀ table : Nat, after.pool.blocks[table]?.map Block.links =
      before.pool.blocks[table]?.map Block.links) (owner : Option Nat) (slot : Nat) :
    after.leads owner slot = before.leads owner slot := by
  cases owner with
  | none => simp only [leads, top]
  | some table =>
    have same := congrArg (Option.bind · fun links => links[slot]?.bind Link.leads?) (links table)
    simp only [Option.bind_map, Function.comp_def, ← Block.child?_eq_bind] at same
    exact same

/-- Where the links are those of the cut cache, none leads to the block. -/
theorem leads_of_cut (top : after.top = (cache.cut index).top)
    (links : ∀ table : Nat, after.pool.blocks[table]?.map Block.links =
      (cache.cut index).pool.blocks[table]?.map Block.links) (owner : Option Nat) (slot : Nat) :
    after.leads owner slot = (cache.leads owner slot).filter (· != index) ∧
      after.leads owner slot ≠ some index := by
  have leads := (leads_eq_of_links top links owner slot).trans (leads_cut ..)
  exact ⟨leads, by simp [leads, Option.filter_eq_some_iff]⟩

section Evicting

variable (sound : cache.view.Sound) (tidy : cache.Tidy)
  (found : cache.pool.blocks[index]? = some block) (valid : block.valid = true)
include sound tidy found valid

theorem hung_of_sound : cache.Hung index block := by
  have linked : cache.trie.Linked := sound.linked
  have isNode := (node_of_block found).trans (Block.node?_eq_some_iff.mpr ⟨valid, rfl⟩)
  refine ⟨fun attached => ?_, fun loose owner slot leads => ?_, ?_, fun {child} isChild => ?_,
    fun level => ?_⟩
  · obtain ⟨owner, slot, leads⟩ := linked.owned isNode attached
    rw [← leads_eq_link tidy] at leads
    refine ⟨owner, slot, ?_, fun owner' slot' => ⟨fun leads' => ?_, ?_⟩⟩
    · rcases (attached_of_leads tidy linked found leads).2 with inTop | ⟨level, inTable, _⟩
      · exact .inl inTop
      · exact .inr ⟨level, inTable⟩
    · exact leads_injective tidy linked leads' leads
    · rintro ⟨rfl, rfl⟩
      exact leads
  · rw [(attached_of_leads tidy linked found leads).1] at loose
    cases loose
  · exact Block.nodup_children fun one other => linked.single
      (Trie.link_some_eq_some_iff.mpr ⟨_, isNode, one⟩)
      (Trie.link_some_eq_some_iff.mpr ⟨_, isNode, other⟩)
  · obtain ⟨slot, leads⟩ := (mem_children_iff_link found valid child).mp isChild
    obtain ⟨node, isNode', attached, _⟩ := linked.target leads
    obtain ⟨below, found', valid', rfl⟩ := block_of_node isNode'
    exact ⟨below, found', valid', attached⟩
  · obtain ⟨bytes, payload, _⟩ := tidy.data_of_leaf found valid level
    simp [Block.children, Block.links, payload]

omit valid in
theorem child?_ne_self (slot : Nat) : block.child? slot ≠ some index := by
  intro leads
  have leads' : cache.leads (some index) slot = some index :=
    (Pool.look_of_block found _).trans leads
  rcases (attached_of_leads tidy sound.linked found leads').2 with ⟨_, inTop, _⟩ | ⟨_, own, apart⟩
  · cases inTop
  · exact apart (Option.some.inj own).symm

omit valid in
theorem blocks_cut_self : (cache.cut index).pool.blocks[index]? = some block := by
  refine (Pool.blocks_cut index index cache.pool).trans ?_
  rw [found, Option.map_some, Block.cut_eq_self (child?_ne_self sound tidy found)]

/-- An eviction cuts its block and retires it. -/
theorem evict_eq_retire : cache.evict index =
    if block.level = cache.layout.depth then (cache.cut index).retireData index
    else (cache.cut index).retireTable index := by
  have isNode := (node_of_block found).trans (Block.node?_eq_some_iff.mpr ⟨valid, rfl⟩)
  have level_pos : 1 ≤ block.level := sound.linked.level_pos isNode
  have ran : (if block.parentValid then cache.unlink index else .ok cache) =
      .ok (cache.cut index) := by
    cases attached : block.parentValid with
    | true => exact unlink_eq_cut tidy sound.linked found valid attached
    | false =>
      exact congrArg Except.ok (cut_eq_self ((hung_of_sound sound tidy found valid).loose attached)).symm
  exact evict_of_valid found valid (by omega) ran

/-- What is left once a data block was cut and emptied. -/
theorem detaches_emptied (level : block.level = cache.layout.depth) :
    cache.Detaches ((cache.cut index).emptied index block) index block := by
  have found' := blocks_cut_self sound tidy found
  have hung := hung_of_sound sound tidy found valid
  have top : ((cache.cut index).emptied index block).top = (cache.cut index).top := rfl
  have links (table : Nat) : ((cache.cut index).emptied index block).pool.blocks[table]?.map
      Block.links = (cache.cut index).pool.blocks[table]?.map Block.links := by
    rw [emptied, Pool.blocks_modify]
    split
    · rw [Option.map_map]
      rfl
    · rfl
  exact {
    toHung := hung
    links := fun owner slot => (leads_of_cut top links owner slot).1
    clear := fun owner slot => (leads_of_cut top links owner slot).2
    top := rfl
    others := fun {other} distinct => by
      rw [emptied, Pool.blocks_modify_of_ne distinct]
      refine (Pool.blocks_cut index other cache.pool).trans ?_
      simp only [hung.childless level, List.contains_nil, Bool.not_false, Bool.and_true]
      rfl
    own := by
      rw [if_pos level, emptied, Pool.blocks_modify_self found']
    fastPath := (if_pos level).symm
    shortcuts := fun tag => by
      simp only [level, true_and]
      exact FastPath.lookup_forget tidy.recorded block.tag index tag
    writebacks := by
      simp only [level, true_and]
      rfl
    stats := (if_pos level).symm
    frame := by
      have forgotten := FastPath.capacity_forget tidy.recorded block.tag index
      rw [← frame_cut index cache]
      simp only [emptied, Cache.frame, Pool.capacity_modify]
      exact congrArg (Frame.mk _ _ _ _) forgotten
    cursor := rfl }

/-- What is left once a table was cut and its children were orphaned. -/
theorem detaches_withOrphans (level : block.level ≠ cache.layout.depth) :
    cache.Detaches ((cache.cut index).withOrphans block.children) index block := by
  have hung := hung_of_sound sound tidy found valid
  have top : ((cache.cut index).withOrphans block.children).top = (cache.cut index).top := rfl
  have links (table : Nat) : ((cache.cut index).withOrphans block.children).pool.blocks[table]?.map
      Block.links = (cache.cut index).pool.blocks[table]?.map Block.links := by
    rw [withOrphans, Pool.blocks_orphan, Option.map_map]
    rfl
  have loose : block.children.contains index = false := by
    rw [List.contains_eq_mem, decide_eq_false_iff_not]
    intro isChild
    obtain ⟨slot, leads⟩ := Block.mem_children_iff.mp isChild
    exact child?_ne_self sound tidy found slot leads
  exact {
    toHung := hung
    links := fun owner slot => (leads_of_cut top links owner slot).1
    clear := fun owner slot => (leads_of_cut top links owner slot).2
    top := rfl
    others := fun {other} distinct => by
      rw [withOrphans, Pool.blocks_orphan]
      change ((cache.pool.cut index).blocks[other]?).map _ = _
      rw [Pool.blocks_cut, Option.map_map]
      rfl
    own := by
      rw [withOrphans, Pool.blocks_orphan, blocks_cut_self sound tidy found, if_neg level,
        Option.map_some, loose, Bool.not_false, Bool.and_true]
    fastPath := (if_neg level).symm
    shortcuts := fun tag => (if_neg fun leaf => level leaf.1).symm
    writebacks := (if_neg fun leaf => level leaf.1).symm
    stats := (if_neg level).symm
    frame := by
      rw [← frame_cut index cache]
      simp [Cache.frame, withOrphans, Pool.capacity, Pool.orphan]
    cursor := rfl }

/-- An eviction of a built block detaches it, and does nothing else. -/
theorem detaches_of_evict :
    ∃ after, cache.evict index = .ok after ∧ cache.Detaches after index block := by
  have found' := blocks_cut_self sound tidy found
  rw [evict_eq_retire sound tidy found valid]
  split
  next level =>
    exact ⟨_, retireData_eq found', detaches_emptied sound tidy found valid level⟩
  next level =>
    have inside : ∀ child ∈ block.children, child < (cache.cut index).pool.capacity := by
      intro child isChild
      obtain ⟨below, isBelow, _⟩ := (hung_of_sound sound tidy found valid).attached isChild
      have capacity : (cache.cut index).pool.capacity = cache.pool.capacity :=
        congrArg Frame.capacity (frame_cut index cache)
      rw [capacity]
      exact Pool.lt_capacity_of_block isBelow
    exact ⟨_, retireTable_eq found' inside, detaches_withOrphans sound tidy found valid level⟩

end Evicting

/-- A call of `evict`, with the cache that it is made on. -/
structure EvictCall where
  cache : Cache
  index : Nat

/-- The calls of `evict` that are made on the way down from an attachment, whether or not they
get to the bottom. -/
inductive PathEviction (address : Address) :
    Cache → Attachment → (pinned : List Nat) → (levels : Nat) → EvictCall → Prop
  | here {cache : Cache} {attachment : Attachment} {pinned : List Nat} {levels : Nat}
      {victim : Victim} {pool : Pool} :
    cache.pool.selectVictim cache.config.maxAttempts.toNat pinned = .ok (victim, pool) →
      PathEviction address cache attachment pinned (levels + 1)
        { cache := { cache with pool, stats := cache.stats.recordVictim victim.fallback }
          index := victim.index }
  | later {cache middle : Cache} {attachment : Attachment} {pinned : List Nat} {levels built : Nat}
      {call : EvictCall} :
    cache.buildLevel address attachment.level attachment.parent pinned = .ok (built, middle) →
      PathEviction address middle { level := attachment.level + 1, parent := some built }
        (built :: pinned) levels call →
        PathEviction address cache attachment pinned (levels + 1) call

/-- The calls of `evict` that an insertion makes, whether or not it gets through. -/
def Evicts (cache : Cache) (address : Address) (call : EvictCall) : Prop :=
  ∃ tag walk walked attachment pinned, cache.checkAddress address = .ok () ∧
    cache.layout.tag address = .ok tag ∧ cache.search address = .ok (walk, walked) ∧
      walked.checkAbsent address walk tag = .ok () ∧
        walked.attachment walk.anchor = .ok attachment ∧
          walked.pinnedBy attachment = .ok pinned ∧
            PathEviction address walked attachment pinned
              (walked.layout.depth + 1 - attachment.level) call

section Calls

variable {address : Address} {attachment : Attachment} {pinned : List Nat} {levels : Nat}
  {call : EvictCall}

/-- Every level starts from a sound cache: those above it are tables. -/
theorem PathEviction.sound (path : PathEviction address cache attachment pinned levels call)
    (sound : cache.view.Sound) (tidy : cache.Tidy)
    (inRange : cache.layout.contains address = true) {level : Nat}
    (isLevel : attachment.level = level + 1) (depth_eq : level + levels = cache.layout.depth)
    (anchored : cache.view.Anchored (cache.layout.blockOf address) level attachment.parent pinned) :
    call.cache.Tidy ∧ call.cache.view.Sound := by
  -- the call of one level, or of a later one: the level between is a table
  induction path generalizing level with
  | here selected =>
    obtain ⟨swept, _⟩ := Pool.swept_of_selectVictim selected
    exact ⟨tidy.of_swept swept _, (view_of_aged swept.aged _).symm ▸ sound⟩
  | @later cache middle attachment pinned levels built call ran path ih =>
    have isTable : level + 1 < cache.layout.depth := by
      cases path <;> omega
    rw [isLevel] at ran
    obtain ⟨tidy', sound', shed, below⟩ :=
      (buildTable_outcome sound tidy inRange isTable anchored).of_eq_ok ran
    have layout : middle.layout = cache.layout := congrArg Frame.layout shed.frame
    rw [← layout] at below inRange
    refine ih sound' tidy' inRange (congrArg (· + 1) isLevel) ?_ below
    rw [layout]
    omega

theorem sound_of_evicts (sound : cache.view.Sound) (tidy : cache.Tidy)
    (called : cache.Evicts address call) : call.cache.Tidy ∧ call.cache.view.Sound := by
  obtain ⟨tag, walk, walked, attachment, pinned, inside, isTag, searched, absent, attached, pins,
    path⟩ := called
  have regular : cache.layout.Regular := sound.founded.regular
  have inRange : cache.layout.contains address = true := require_eq_ok_iff.mp inside
  cases (regular.tag_eq address).symm.trans isTag
  obtain ⟨unmoved, ends⟩ := (search_outcome sound tidy address).of_eq_ok searched
  have sound' := unmoved.sound sound
  rw [← unmoved.view, ← unmoved.layout] at ends
  rw [← unmoved.layout] at absent inRange
  obtain ⟨⟨anchor, rfl⟩, unlisted⟩ := (checkAbsent_outcome ends rfl).of_eq_ok absent
  obtain ⟨level, level_lt, route, free⟩ := ends
  change level < walked.layout.depth at level_lt
  obtain ⟨pinned', pins', anchored, _⟩ := pinnedBy_spec sound' level_lt route free unlisted
  cases (attachment_eq sound' level_lt route).symm.trans attached
  cases pins'.symm.trans pins
  have depth_eq : level + (walked.layout.depth + 1 - (level + 1)) = walked.layout.depth := by omega
  exact path.sound sound' unmoved.tidy inRange rfl depth_eq anchored

theorem eq_of_evict (unbuilt : ∀ {status : Status}, cache.pool.statuses index = some status →
    status.valid = false) (ran : cache.evict index = .ok after) : after = cache := by
  obtain ⟨block, isBlock, ran⟩ := bind_eq_ok_iff.mp ran
  have invalid : block.valid = false :=
    unbuilt (Pool.statuses_of_block (Pool.get_eq_ok_iff.mp isBlock))
  rw [if_neg (by simp [invalid])] at ran
  cases ran
  rfl

/-- Where every built block is pinned, a victim was never built. -/
theorem unbuilt_of_selectVictim {maxAttempts : Nat} {pool after : Pool} {victim : Victim}
    (selected : pool.selectVictim maxAttempts pinned = .ok (victim, after))
    (fresh : ∀ {index : Nat} {status : Status}, pool.statuses index = some status →
      status.valid = true → index ∈ pinned) :
    after.statuses = pool.statuses ∧
      ∀ {status : Status}, after.statuses victim.index = some status → status.valid = false := by
  obtain ⟨swept, eligible⟩ := Pool.swept_of_selectVictim selected
  have same : after.statuses = pool.statuses := swept.aged.look fun _ => rfl
  refine ⟨same, fun {status} stands => ?_⟩
  rw [← Bool.not_eq_true]
  exact fun valid => eligible.2 (fresh (same ▸ stands) valid)

/-- As long as every built block is pinned, no built block is evicted. -/
theorem PathEviction.unbuilt (path : PathEviction address cache attachment pinned levels call)
    (free : cache.SlotFree address attachment)
    (guarded : ∀ parent ∈ attachment.parent, parent ∈ pinned)
    (fresh : ∀ {index : Nat} {status : Status}, cache.pool.statuses index = some status →
      status.valid = true → index ∈ pinned) {status : Status}
    (stands : call.cache.pool.statuses call.index = some status) : status.valid = false := by
  induction path with
  | here selected => exact (unbuilt_of_selectVictim selected fresh).2 stands
  | @later cache middle attachment pinned levels built call ran _ ih =>
    obtain ⟨⟨victim, pool⟩, selected, ran⟩ := bind_eq_ok_iff.mp ran
    obtain ⟨evicted, emptied, ran⟩ := bind_eq_ok_iff.mp ran
    obtain ⟨hung, ranBuild, same⟩ := bind_eq_ok_iff.mp ran
    cases same
    obtain ⟨apart, free'⟩ := slotFree_of_evict free guarded selected emptied
    have rebuilt := rebuilt_of_build apart free' ranBuild
    obtain ⟨unaged, invalid⟩ := unbuilt_of_selectVictim selected fresh
    cases eq_of_evict invalid emptied
    refine ih (fun slot _ => (build_bare apart free' ranBuild).bare slot) (fun parent isParent => ?_)
      (fun {index status} stands valid => ?_) stands
    · cases isParent
      exact List.mem_cons_self
    · by_cases here : index = victim.index
      · exact here ▸ List.mem_cons_self
      · rw [rebuilt.statuses, Function.update_of_ne here, unaged] at stands
        exact List.mem_cons_of_mem _ (fresh stands valid)

theorem Vacant.unbuilt_of_evicts (vacant : cache.Vacant) (called : cache.Evicts address call)
    {status : Status} (stands : call.cache.pool.statuses call.index = some status) :
    status.valid = false := by
  obtain ⟨tag, walk, walked, attachment, pinned, _, _, searched, _, attached, pins, path⟩ := called
  obtain ⟨rfl, rfl⟩ := vacant.search_eq searched
  cases attached
  cases pins
  refine path.unbuilt (fun slot _ => vacant.blank.top slot) nofun
    (fun {index status} stands valid => ?_) stands
  obtain ⟨block, found, rfl⟩ := Pool.block_of_statuses stands
  have isNode := (node_of_block found).trans (Block.node?_eq_some_iff.mpr ⟨valid, rfl⟩)
  exact absurd ((vacant.blank.node index).symm.trans isNode) (by simp)

end Calls

/-- Whatever operations a fresh cache carries out, each eviction of a built block detaches that
block, and does nothing else. -/
theorem detaches_of_runAll {config : Config} {commands : List Command} {replies : List Reply}
    (made : ofConfig config = .ok cache) (ran : cache.runAll commands = .ok (replies, after))
    {address : Address} {call : EvictCall} (called : after.Evicts address call)
    (found : call.cache.pool.blocks[call.index]? = some block) (valid : block.valid = true) :
    ∃ evicted, call.cache.evict call.index = .ok evicted ∧
      call.cache.Detaches evicted call.index block := by
  cases (ready_of_ofConfig made).runAll ran with
  | sound tidy sound =>
    obtain ⟨tidy', sound'⟩ := sound_of_evicts sound tidy called
    exact detaches_of_evict sound' tidy' found valid
  | vacant vacant =>
    have unbuilt := vacant.unbuilt_of_evicts called (Pool.statuses_of_block found)
    exact absurd (unbuilt.symm.trans valid) (by simp)

/-- A table of the first level that leads to one block, which is attached. -/
def fullTable : Block where
  valid := true
  parentValid := true
  level := 1
  payload := .table #[{ valid := true, target := 1 }, {}]

/-- A fifth block finds the pool full, and takes the table above the first one. -/
theorem detaches_fullTable : ∃ cache after call evicted,
    ofConfig .tiny = .ok cache ∧
      cache.runAll [.insert 0x01 1, .insert 0x08 3, .insert 0x10 4, .insert 0x18 5] =
        .ok ([.index 1, .index 3, .index 5, .index 7], after) ∧
      after.Evicts 0x20 call ∧ call.index = 0 ∧
      call.cache.pool.blocks[call.index]? = some fullTable ∧
      call.cache.evict call.index = .ok evicted ∧
      call.cache.Detaches evicted call.index fullTable := by
  have answers : (do
      let cache ← ofConfig .tiny
      let result ← cache.runAll [.insert 0x01 1, .insert 0x08 3, .insert 0x10 4, .insert 0x18 5]
      let _ ← result.2.checkAddress 0x20
      let tag ← result.2.layout.tag 0x20
      let found ← result.2.search 0x20
      let _ ← found.2.checkAbsent 0x20 found.1 tag
      let attachment ← found.2.attachment found.1.anchor
      let pinned ← found.2.pinnedBy attachment
      let chosen ← found.2.pool.selectVictim found.2.config.maxAttempts.toNat pinned
      let block ← chosen.2.get chosen.1.index
      return (result.1, found.2.layout.depth + 1 - attachment.level, chosen.1.index, block)) =
      .ok ([.index 1, .index 3, .index 5, .index 7], 2, 0, fullTable) := by
    decide +kernel
  obtain ⟨cache, made, answers⟩ := bind_eq_ok_iff.mp answers
  obtain ⟨⟨replies, after⟩, ran, answers⟩ := bind_eq_ok_iff.mp answers
  obtain ⟨_, inside, answers⟩ := bind_eq_ok_iff.mp answers
  obtain ⟨tag, isTag, answers⟩ := bind_eq_ok_iff.mp answers
  obtain ⟨⟨walk, walked⟩, searched, answers⟩ := bind_eq_ok_iff.mp answers
  obtain ⟨_, absent, answers⟩ := bind_eq_ok_iff.mp answers
  obtain ⟨attachment, attached, answers⟩ := bind_eq_ok_iff.mp answers
  obtain ⟨pinned, pins, answers⟩ := bind_eq_ok_iff.mp answers
  obtain ⟨⟨victim, pool⟩, selected, answers⟩ := bind_eq_ok_iff.mp answers
  obtain ⟨block, isBlock, answers⟩ := bind_eq_ok_iff.mp answers
  simp only [pure_eq_ok, Except.ok.injEq, Prod.mk.injEq] at answers
  obtain ⟨rfl, levels, index, rfl⟩ := answers
  have called : after.Evicts 0x20
      { cache := { walked with pool, stats := walked.stats.recordVictim victim.fallback }
        index := victim.index } := by
    refine ⟨tag, walk, walked, attachment, pinned, inside, isTag, searched, absent, attached, pins, ?_⟩
    rw [levels]
    exact .here selected
  have found := Pool.get_eq_ok_iff.mp isBlock
  obtain ⟨evicted, emptied, detaches⟩ := detaches_of_runAll made ran called found rfl
  exact ⟨cache, after, _, evicted, made, ran, called, index, found, emptied, detaches⟩

end Cache

end TrieCache
