import TrieCache.Proofs.Clearing

/-!
# Nothing hangs where a block is built

A walk that follows a link at every level has found its block, so no insertion starts from
a data block of another tag.  And an insertion builds into free slots only: the first one is
where the walk ended, evictions fill none, and the slots of a block that was just built are
all free.  So the occupant that `build` would take the parent from is never there.
-/

namespace TrieCache

/-- The slot that leads from a parent to an address; there is one in the top index for the
blocks that have no parent. -/
def Layout.slotUnder (layout : Layout) (address : Address) (level : Nat) :
    (parent : Option Nat) → Checked Nat
  | none => layout.topIndex address
  | some _ => layout.selector address level

namespace Cache

/-- The slot that a block would be hung into leads nowhere. -/
def SlotFree (cache : Cache) (address : Address) (attachment : Attachment) : Prop :=
  ∀ ⦃slot : Nat⦄, cache.layout.slotUnder address attachment.level attachment.parent = .ok slot →
    cache.leads attachment.parent slot = none

/-- From the top index on, this many valid links lead to a block on the way to an address. -/
inductive Follows (cache : Cache) (address : Address) : (links index : Nat) → Prop
  | top {slot : Nat} {entry : Link} : cache.layout.topIndex address = .ok slot →
    cache.top.entries[slot]? = some entry → entry.valid = true →
      Follows cache address 1 entry.target
  | step {links index selector child : Nat} {block : Block} : Follows cache address links index →
    cache.layout.selector address (links + 1) = .ok selector →
      cache.pool.blocks[index]? = some block → block.child? selector = some child →
        Follows cache address (links + 1) child

section Visits

variable {cache : Cache} {address : Address} {index other level steps links place : Nat}

theorem Follows.next {child : Nat} (follows : cache.Follows address links index)
    (isNext : cache.next? address index (links + 1) = some child) :
    cache.Follows address (links + 1) child := by
  obtain ⟨selector, isSelector, isNext⟩ := Option.bind_eq_some_iff.mp isNext
  obtain ⟨block, found, isChild⟩ := Option.bind_eq_some_iff.mp isNext
  exact .step follows (toOption_eq_some_iff.mp isSelector) found isChild

theorem follows_of_onward (follows : cache.Follows address links index)
    (isPlace : (index :: cache.onward address index (links + 1) steps)[place]? = some other) :
    cache.Follows address (links + place) other := by
  induction steps generalizing index links place with
  | zero =>
    cases place with
    | zero =>
      cases isPlace
      exact follows
    | succ place => simp [onward] at isPlace
  | succ steps ih =>
    cases place with
    | zero =>
      cases isPlace
      exact follows
    | succ place =>
      rw [List.getElem?_cons_succ, onward] at isPlace
      cases isNext : cache.next? address index (links + 1) with
      | none => simp [isNext] at isPlace
      | some child =>
        rw [isNext] at isPlace
        rw [← Nat.add_assoc, Nat.add_right_comm]
        exact ih (follows.next isNext) isPlace

/-- The blocks that a walk visits are followed to, each by one link more. -/
theorem follows_of_visits (isPlace : (cache.visits address)[place]? = some index) :
    cache.Follows address (place + 1) index := by
  rw [visits] at isPlace
  cases isFirst : cache.first? address with
  | none => simp [isFirst] at isPlace
  | some first =>
    rw [isFirst] at isPlace
    obtain ⟨slot, isSlot, isEntry⟩ := Option.bind_eq_some_iff.mp isFirst
    obtain ⟨entry, found, leads⟩ := Option.bind_eq_some_iff.mp isEntry
    obtain ⟨valid, rfl⟩ := Link.leads?_eq_some_iff.mp leads
    rw [Nat.add_comm]
    exact follows_of_onward (.top (toOption_eq_some_iff.mp isSlot) found valid) isPlace

end Visits

/-- A call of `build`, with the cache that it is made on. -/
structure BuildCall where
  cache : Cache
  index : Nat
  attachment : Attachment

/-- The calls of `build` that are made on the way down from an attachment, whether or not
they get to the bottom. -/
inductive PathCall (address : Address) :
    Cache → Attachment → (pinned : List Nat) → (levels : Nat) → BuildCall → Prop
  | here {cache evicted : Cache} {attachment : Attachment} {pinned : List Nat} {levels : Nat}
      {victim : Victim} {pool : Pool} :
    cache.pool.selectVictim cache.config.maxAttempts.toNat pinned = .ok (victim, pool) →
      evict { cache with pool, stats := cache.stats.recordVictim victim.fallback } victim.index =
        .ok evicted →
        PathCall address cache attachment pinned (levels + 1)
          { cache := evicted, index := victim.index, attachment }
  | later {cache middle : Cache} {attachment : Attachment} {pinned : List Nat} {levels built : Nat}
      {call : BuildCall} :
    cache.buildLevel address attachment.level attachment.parent pinned = .ok (built, middle) →
      PathCall address middle { level := attachment.level + 1, parent := some built }
        (built :: pinned) levels call →
        PathCall address cache attachment pinned (levels + 1) call

/-- The calls of `build` that an insertion makes, whether or not it gets through. -/
def InsertionCall (cache : Cache) (address : Address) (call : BuildCall) : Prop :=
  ∃ tag walk walked attachment pinned, cache.checkAddress address = .ok () ∧
    cache.layout.tag address = .ok tag ∧ cache.search address = .ok (walk, walked) ∧
      walked.checkAbsent address walk tag = .ok () ∧
        walked.attachment walk.anchor = .ok attachment ∧
          walked.pinnedBy attachment = .ok pinned ∧
            PathCall address walked attachment pinned
              (walked.layout.depth + 1 - attachment.level) call

/-- A block is built into a free slot, and takes the parent of no other block. -/
structure BuildCall.IntoFree (call : BuildCall) (address : Address) : Prop where
  apart : call.attachment.parent ≠ some call.index
  free : call.cache.SlotFree address call.attachment
  unharmed {after : Cache} {other : Nat} : other ≠ call.index →
    call.cache.build call.index call.attachment.level address call.attachment.parent = .ok after →
      after.pool.blocks[other]?.map Block.parentValid =
        call.cache.pool.blocks[other]?.map Block.parentValid

/-- The arms for stale occupants are never taken for an address. -/
structure PathsConsistent (cache : Cache) (address : Address) : Prop where
  /-- A walk that has a link to follow at every level ends at a leaf of its block. -/
  hit {index : Nat} : cache.Follows address cache.layout.depth index →
    ∃ block walked, cache.pool.blocks[index]? = some block ∧
      cache.layout.tag address = .ok block.tag ∧ cache.search address = .ok (.hit index, walked)
  /-- An insertion starts from a table. -/
  anchor {index : Nat} {walked : Cache} : cache.search address = .ok (.miss (some index), walked) →
    ∃ block, walked.pool.blocks[index]? = some block ∧ block.level < walked.layout.depth
  free {call : BuildCall} : cache.InsertionCall address call → call.IntoFree address

variable {cache after : Cache} {address : Address} {index level : Nat}

section Building

/-- A block was built: of no other block it changed whether it has a parent, and nothing
hangs below it. -/
structure BuiltBare (before after : Cache) (index : Nat) : Prop where
  unharmed {other : Nat} : other ≠ index →
    after.pool.blocks[other]?.map Block.parentValid =
      before.pool.blocks[other]?.map Block.parentValid
  bare (slot : Nat) : after.leads (some index) slot = none

theorem child?_of_freshPayload {payload : Payload} (ran : cache.freshPayload level = .ok payload)
    {block : Block} (holds : block.payload = payload) (slot : Nat) : block.child? slot = none := by
  rw [freshPayload] at ran
  split at ran
  · obtain ⟨size, _, ran⟩ := bind_eq_ok_iff.mp ran
    obtain ⟨bytes, _, same⟩ := bind_eq_ok_iff.mp ran
    cases same
    simp [Block.child?, Block.links, holds]
  · obtain ⟨count, _, ran⟩ := bind_eq_ok_iff.mp ran
    obtain ⟨links, allocated, same⟩ := bind_eq_ok_iff.mp ran
    cases same
    obtain ⟨_, rfl⟩ := allocate_eq_ok_iff.mp allocated
    by_cases inside : slot < count <;> simp [Block.child?, Block.links, holds, inside]

theorem builtBare_of_rebuild {change : Block → Block}
    (blank : ∀ block slot, (change block).child? slot = none)
    (ran : cache.updateBlock index change = .ok after) : cache.BuiltBare after index := by
  obtain ⟨index_lt, rfl⟩ := updateBlock_eq_ok_iff.mp ran
  refine ⟨fun distinct => congrArg _ (Pool.blocks_modify_of_ne distinct change), fun slot => ?_⟩
  obtain ⟨block, found⟩ := Pool.exists_block index_lt
  exact (Pool.look_of_block (Pool.blocks_modify_self found change) _).trans (blank block slot)

theorem BuiltBare.named {before : Cache} (built : before.BuiltBare cache index) {parent : Nat}
    (ran : cache.updateBlock index (fun block => { block with parent }) = .ok after) :
    before.BuiltBare after index := by
  have clears := clears_of_updateBlock ran fun leads => leads
  obtain ⟨_, rfl⟩ := updateBlock_eq_ok_iff.mp ran
  refine ⟨fun distinct => ?_, fun slot => clears.eq_none (built.bare slot)⟩
  exact (congrArg _ (Pool.blocks_modify_of_ne distinct _)).trans (built.unharmed distinct)

theorem BuiltBare.linked {before : Cache} (built : before.BuiltBare cache index) {parent slot : Nat}
    {link : Link} (apart : parent ≠ index)
    (ran : cache.updateBlock parent (Block.setLink slot link) = .ok after) :
    before.BuiltBare after index := by
  obtain ⟨_, rfl⟩ := updateBlock_eq_ok_iff.mp ran
  refine ⟨fun {other} distinct => ?_, fun slot' => ?_⟩
  · refine Eq.trans ?_ (built.unharmed distinct)
    change ((cache.pool.modify parent _).blocks[other]?).map _ = _
    rw [Pool.blocks_modify]
    split
    · rw [Option.map_map]
      refine congrArg (Option.map · _) (funext fun block => ?_)
      obtain ⟨payload, same⟩ := Block.setLink_eq slot link block
      rw [Function.comp_apply, same]
    · rfl
  · refine Eq.trans ?_ (built.bare slot')
    exact congrArg (Option.bind · _) (Pool.blocks_modify_of_ne (Ne.symm apart) _)

theorem invalid_of_leads_eq_none {links : Array Link} {slot : Nat} {link : Link}
    (found : links[slot]? = some link) (free : links[slot]?.bind Link.leads? = none) :
    link.valid = false := by
  rw [found, Option.bind_some, Link.leads?] at free
  simpa using free

theorem BuiltBare.hangFromTop {before : Cache} (built : before.BuiltBare cache index)
    (free : cache.SlotFree address { level, parent := none }) {former : Link}
    (ran : cache.hangFromTop index address = .ok (former, after)) :
    former.valid = false ∧ before.BuiltBare after index := by
  obtain ⟨slot, isSlot, ran⟩ := bind_eq_ok_iff.mp ran
  obtain ⟨entry, isEntry, ran⟩ := bind_eq_ok_iff.mp ran
  obtain ⟨named, changed, same⟩ := bind_eq_ok_iff.mp ran
  cases same
  have pointed : before.BuiltBare
      { cache with top := cache.top.set slot { valid := true, target := index } } index :=
    ⟨built.unharmed, built.bare⟩
  exact ⟨invalid_of_leads_eq_none (TopIndex.get_eq_ok_iff.mp isEntry) (free isSlot),
    pointed.named changed⟩

theorem BuiltBare.hangFromTable {before : Cache} (built : before.BuiltBare cache index)
    {parent : Nat} (apart : parent ≠ index)
    (free : cache.SlotFree address { level, parent := some parent }) {former : Link}
    (ran : cache.hangFromTable index level address parent = .ok (former, after)) :
    former.valid = false ∧ before.BuiltBare after index := by
  obtain ⟨slot, isSlot, ran⟩ := bind_eq_ok_iff.mp ran
  obtain ⟨table, isTable, ran⟩ := bind_eq_ok_iff.mp ran
  have unlinked : table.child? slot = none :=
    (Pool.look_of_block (Pool.get_eq_ok_iff.mp isTable) _).symm.trans (free isSlot)
  split at ran
  · cases ran
  next former' isFormer =>
    obtain ⟨linked, changed, ran⟩ := bind_eq_ok_iff.mp ran
    obtain ⟨named, changed', same⟩ := bind_eq_ok_iff.mp ran
    cases same
    refine ⟨?_, (built.linked apart changed).named changed'⟩
    rw [Block.child?, isFormer] at unlinked
    simpa using unlinked

/-- Where the slot is free, a build ends when its block hangs: there is no former occupant to
lose its parent. -/
theorem hung_of_build {attachment : Attachment} (apart : attachment.parent ≠ some index)
    (free : cache.SlotFree address attachment)
    (ran : cache.build index attachment.level address attachment.parent = .ok after) :
    ∃ payload rebuilt former,
      cache.updateBlock index (fun block => { block with
        payload, level := attachment.level, valid := true, parentValid := true, reference := 1,
        dirty := false }) = .ok rebuilt ∧
      (match attachment.parent with
        | none => rebuilt.hangFromTop index address
        | some parent => rebuilt.hangFromTable index attachment.level address parent) =
          .ok (former, after) ∧
      cache.BuiltBare after index := by
  obtain ⟨level, parent⟩ := attachment
  obtain ⟨payload, isPayload, ran⟩ := bind_eq_ok_iff.mp ran
  obtain ⟨rebuilt, changed, ran⟩ := bind_eq_ok_iff.mp ran
  have built : cache.BuiltBare rebuilt index :=
    builtBare_of_rebuild (fun _ => child?_of_freshPayload isPayload rfl) changed
  have settled : ∀ (former : Link) (hung : Cache),
      former.valid = false ∧ cache.BuiltBare hung index →
        (if former.valid ∧ former.target ≠ index then do
          let cache ← hung.orphan [former.target]
          return cache.record (Stats.recordOrphans · 1)
        else return hung) = .ok after → hung = after ∧ cache.BuiltBare after index := by
    rintro former hung ⟨vacant, bare⟩ ran
    rw [if_neg (by simp [vacant])] at ran
    cases ran
    exact ⟨rfl, bare⟩
  cases parent with
  | none =>
    obtain ⟨⟨former, hung⟩, hangs, ran⟩ := bind_eq_ok_iff.mp ran
    have free' : rebuilt.SlotFree address { level, parent := none } := by
      obtain ⟨_, rfl⟩ := updateBlock_eq_ok_iff.mp changed
      exact free
    obtain ⟨rfl, bare⟩ := settled former hung (built.hangFromTop free' hangs) ran
    exact ⟨payload, rebuilt, former, changed, hangs, bare⟩
  | some parent =>
    obtain ⟨⟨former, hung⟩, hangs, ran⟩ := bind_eq_ok_iff.mp ran
    have distinct : parent ≠ index := fun same => apart (congrArg some same)
    have free' : rebuilt.SlotFree address { level, parent := some parent } := by
      obtain ⟨_, rfl⟩ := updateBlock_eq_ok_iff.mp changed
      intro slot isSlot
      refine Eq.trans ?_ (free isSlot)
      exact congrArg (Option.bind · _) (Pool.blocks_modify_of_ne distinct _)
    obtain ⟨rfl, bare⟩ := settled former hung (built.hangFromTable distinct free' hangs) ran
    exact ⟨payload, rebuilt, former, changed, hangs, bare⟩

theorem build_bare {attachment : Attachment} (apart : attachment.parent ≠ some index)
    (free : cache.SlotFree address attachment)
    (ran : cache.build index attachment.level address attachment.parent = .ok after) :
    cache.BuiltBare after index := by
  obtain ⟨_, _, _, _, _, bare⟩ := hung_of_build apart free ran
  exact bare

end Building

section Paths

variable {attachment : Attachment} {pinned : List Nat} {levels : Nat} {call : BuildCall}

/-- Evicting a victim that is not pinned leaves the slot free and its table in place. -/
theorem slotFree_of_evict {evicted : Cache} {victim : Victim} {pool : Pool}
    (free : cache.SlotFree address attachment)
    (guarded : ∀ parent ∈ attachment.parent, parent ∈ pinned)
    (selected : cache.pool.selectVictim cache.config.maxAttempts.toNat pinned = .ok (victim, pool))
    (ran : evict { cache with pool, stats := cache.stats.recordVictim victim.fallback }
      victim.index = .ok evicted) :
    attachment.parent ≠ some victim.index ∧ evicted.SlotFree address attachment := by
  obtain ⟨swept, eligible⟩ := Pool.swept_of_selectVictim selected
  have clears := (clears_of_aged swept.aged _).trans (clears_of_evict ran)
  have layout := (stable_steady.evict ran).layout
  change evicted.layout = cache.layout at layout
  refine ⟨fun same => eligible.2 (guarded _ same), fun slot isSlot => ?_⟩
  rw [layout] at isSlot
  exact clears.eq_none (free isSlot)

theorem PathCall.intoFree (path : PathCall address cache attachment pinned levels call)
    (free : cache.SlotFree address attachment)
    (guarded : ∀ parent ∈ attachment.parent, parent ∈ pinned) : call.IntoFree address := by
  induction path with
  | here selected ran =>
    obtain ⟨apart, free'⟩ := slotFree_of_evict free guarded selected ran
    exact ⟨apart, free', fun distinct built => (build_bare apart free' built).unharmed distinct⟩
  | later ran _ ih =>
    obtain ⟨⟨victim, pool⟩, selected, ran⟩ := bind_eq_ok_iff.mp ran
    obtain ⟨evicted, emptied, ran⟩ := bind_eq_ok_iff.mp ran
    obtain ⟨hung, built, same⟩ := bind_eq_ok_iff.mp ran
    cases same
    obtain ⟨apart, free'⟩ := slotFree_of_evict free guarded selected emptied
    refine ih (fun slot _ => (build_bare apart free' built).bare slot) fun parent isParent => ?_
    cases isParent
    exact List.mem_cons_self

end Paths

section Walks

/-- The links that a walk follows are those of the route of its block. -/
theorem Follows.route (sound : cache.view.Sound) {links : Nat}
    (follows : cache.Follows address links index) (links_le : links ≤ cache.layout.depth) :
    1 ≤ links ∧ cache.layout.contains address = true ∧
      cache.trie.Route (cache.layout.slots (cache.layout.blockOf address) links) (some index) := by
  have regular : cache.layout.Regular := sound.founded.regular
  induction follows with
  | top isSlot isEntry valid =>
    cases (regular.topIndex_eq address).symm.trans isSlot
    refine ⟨le_rfl, (sound.founded.covers address).mpr (Array.getElem?_eq_some_iff.mp isEntry).1, ?_⟩
    refine .step .top ?_
    change cache.top.entries[_]?.bind Link.leads? = _
    rw [isEntry, Option.bind_some, Link.leads?, if_pos valid]
  | step _ isSelector found isChild ih =>
    obtain ⟨links_pos, inRange, route⟩ := ih (by omega)
    cases (regular.selector_eq address (by omega) links_le).symm.trans isSelector
    obtain ⟨node, isNode, _⟩ := sound.linked.node_of_route route
    obtain ⟨_, found', _, rfl⟩ := block_of_node isNode
    cases found.symm.trans found'
    exact ⟨by omega, inRange, .step route (Trie.link_some_eq_some_iff.mpr ⟨_, isNode, isChild⟩)⟩

/-- The blocks on the route of a block are those that its walk follows. -/
theorem follows_of_suffix (sound : cache.view.Sound) (level_le : level ≤ cache.layout.depth)
    {above : List Nat}
    (suffix : above <:+ cache.layout.slots (cache.layout.blockOf address) level)
    (reached : cache.trie.Route above (some index)) :
    cache.Follows address above.length index := by
  have regular : cache.layout.Regular := sound.founded.regular
  induction level generalizing above index with
  | zero =>
    rw [Layout.slots, List.suffix_nil] at suffix
    rw [suffix] at reached
    cases reached
  | succ level ih =>
    rcases List.suffix_cons_iff.mp suffix with rfl | shorter
    · cases reached with
      | @step _ owner _ _ path leads =>
        rw [List.length_cons, Layout.length_slots]
        cases owner with
        | none =>
          have length := congrArg List.length path.eq_nil
          rw [Layout.length_slots] at length
          cases length
          obtain ⟨entry, isEntry, target⟩ := Option.bind_eq_some_iff.mp leads
          obtain ⟨valid, same⟩ := Option.ite_none_right_eq_some.mp target
          cases same
          exact .top (regular.topIndex_eq address) isEntry valid
        | some table =>
          have follows := ih (by omega) List.suffix_rfl path
          rw [Layout.length_slots] at follows
          obtain ⟨node, isNode, isChild⟩ := Trie.link_some_eq_some_iff.mp leads
          obtain ⟨block, found, _, rfl⟩ := block_of_node isNode
          have level_pos := (follows.route sound (by omega)).1
          exact .step follows (regular.selector_eq address (by omega) level_le) found isChild
    · exact ih (by omega) shorter reached

theorem search_eq_hit_of_follows (sound : cache.view.Sound) (tidy : cache.Tidy)
    (follows : cache.Follows address cache.layout.depth index) :
    ∃ block walked, cache.pool.blocks[index]? = some block ∧
      cache.layout.tag address = .ok block.tag ∧
        cache.search address = .ok (.hit index, walked) := by
  obtain ⟨_, inRange, route⟩ := follows.route sound le_rfl
  obtain ⟨node, isNode, _, _, tagged⟩ := sound.node_of_path route
  obtain ⟨block, found, _, rfl⟩ := block_of_node isNode
  change block.tag = cache.layout.blockOf address at tagged
  obtain ⟨⟨walk, walked⟩, searched, _, ends⟩ :=
    (search_outcome sound tidy address).exists_ok fun _ outside => by simp [inRange] at outside
  refine ⟨block, walked, found, ?_, ?_⟩
  · rw [tagged]
    exact sound.founded.regular.tag_eq address
  · cases walk with
    | hit other =>
      cases Trie.Route.functional ends route
      exact searched
    | miss anchor =>
      obtain ⟨_, level_lt, above, free⟩ := ends
      exact absurd route (View.not_route_of_free level_lt above free index)

theorem level_lt_of_search_eq_miss (sound : cache.view.Sound) (tidy : cache.Tidy) {walked : Cache}
    (searched : cache.search address = .ok (.miss (some index), walked)) :
    ∃ block, walked.pool.blocks[index]? = some block ∧ block.level < walked.layout.depth := by
  obtain ⟨unmoved, ends⟩ := (search_outcome sound tidy address).of_eq_ok searched
  rw [← unmoved.view] at ends
  obtain ⟨level, level_lt, route, _⟩ := ends
  obtain ⟨node, isNode, _, isLevel⟩ := (unmoved.sound sound).linked.node_of_route route
  obtain ⟨block, found, _, rfl⟩ := block_of_node isNode
  rw [Layout.length_slots] at isLevel
  exact ⟨block, found, isLevel.trans_lt level_lt⟩

/-- An insertion starts in the slot that the walk ended above. -/
theorem slotFree_of_free (sound : cache.view.Sound) (level_lt : level < cache.layout.depth)
    {anchor : Option Nat}
    (route : cache.trie.Route (cache.layout.slots (cache.layout.blockOf address) level) anchor)
    (free : cache.trie.link anchor (cache.layout.slot (cache.layout.blockOf address) (level + 1)) =
      none) : cache.SlotFree address { level := level + 1, parent := anchor } := by
  have regular : cache.layout.Regular := sound.founded.regular
  intro slot isSlot
  cases anchor with
  | none =>
    have length := congrArg List.length route.eq_nil
    rw [Layout.length_slots] at length
    cases length
    cases (regular.topIndex_eq address).symm.trans isSlot
    exact free
  | some table =>
    obtain ⟨node, isNode, _, isLevel⟩ := sound.linked.node_of_route route
    have level_pos := sound.linked.level_pos isNode
    rw [Layout.length_slots] at isLevel
    cases (regular.selector_eq address (by omega) level_lt).symm.trans isSlot
    obtain ⟨block, found, _, rfl⟩ := block_of_node isNode
    refine (Pool.look_of_block found _).trans ?_
    change (cache.view.trie.node table).bind _ = none at free
    rwa [isNode, Option.bind_some] at free

theorem intoFree_of_sound (sound : cache.view.Sound) (tidy : cache.Tidy) {call : BuildCall}
    (called : cache.InsertionCall address call) : call.IntoFree address := by
  obtain ⟨tag, walk, walked, attachment, pinned, _, isTag, searched, absent, attached, pins, path⟩ :=
    called
  have regular : cache.layout.Regular := sound.founded.regular
  cases (regular.tag_eq address).symm.trans isTag
  obtain ⟨unmoved, ends⟩ := (search_outcome sound tidy address).of_eq_ok searched
  have sound' := unmoved.sound sound
  -- the cache after the walk looks the same, and the rest happens to it
  rw [← unmoved.view, ← unmoved.layout] at ends
  rw [← unmoved.layout] at absent
  obtain ⟨⟨anchor, rfl⟩, unlisted⟩ := (checkAbsent_outcome ends rfl).of_eq_ok absent
  obtain ⟨level, level_lt, route, free⟩ := ends
  obtain ⟨pinned', pins', anchored, _⟩ := pinnedBy_spec sound' level_lt route free unlisted
  cases (attachment_eq sound' level_lt route).symm.trans attached
  cases pins'.symm.trans pins
  refine path.intoFree (slotFree_of_free sound' level_lt route free) fun parent isParent => ?_
  cases isParent
  exact anchored.guarded List.suffix_rfl route

theorem Vacant.intoFree (vacant : cache.Vacant) {call : BuildCall}
    (called : cache.InsertionCall address call) : call.IntoFree address := by
  obtain ⟨tag, walk, walked, attachment, pinned, _, _, searched, _, attached, _, path⟩ := called
  obtain ⟨rfl, rfl⟩ := vacant.search_eq searched
  cases attached
  exact path.intoFree (fun slot _ => vacant.blank.top slot) nofun

theorem pathsConsistent_of_sound (sound : cache.view.Sound) (tidy : cache.Tidy)
    (address : Address) : cache.PathsConsistent address where
  hit := search_eq_hit_of_follows sound tidy
  anchor := level_lt_of_search_eq_miss sound tidy
  free := intoFree_of_sound sound tidy

theorem Vacant.not_follows (vacant : cache.Vacant) {links : Nat} :
    ¬ cache.Follows address links index := by
  intro follows
  induction follows with
  | @top slot entry _ isEntry valid =>
    have free := vacant.blank.top slot
    change cache.top.entries[slot]?.bind Link.leads? = none at free
    rw [isEntry, Option.bind_some, Link.leads?, if_pos valid] at free
    cases free
  | step _ _ _ _ ih => exact ih

theorem Vacant.pathsConsistent (vacant : cache.Vacant) (address : Address) :
    cache.PathsConsistent address where
  hit := fun follows => absurd follows vacant.not_follows
  anchor := fun searched => nomatch (vacant.search_eq searched).1
  free := vacant.intoFree

end Walks

/-- Whatever operations a fresh cache carries out, no walk ends at a stale data block, and no
insertion builds where something hangs. -/
theorem pathsConsistent_of_runAll {config : Config} {commands : List Command}
    {replies : List Reply} (made : ofConfig config = .ok cache)
    (ran : cache.runAll commands = .ok (replies, after)) (address : Address) :
    after.PathsConsistent address := by
  cases (ready_of_ofConfig made).runAll ran with
  | sound tidy sound => exact pathsConsistent_of_sound sound tidy address
  | vacant vacant => exact vacant.pathsConsistent address

theorem pathsConsistent_before_eviction : ∃ cache after hung,
    ofConfig .tiny = .ok cache ∧
      cache.runAll [.insert 0x01 1, .insert 0x08 3, .insert 0x10 4, .insert 0x18 5] =
        .ok ([.index 1, .index 3, .index 5, .index 7], after) ∧
      after.insert 0x20 6 = .ok (1, hung) ∧ after.PathsConsistent 0x20 := by
  have answers : (do
      let cache ← ofConfig .tiny
      let result ← cache.runAll [.insert 0x01 1, .insert 0x08 3, .insert 0x10 4, .insert 0x18 5]
      let inserted ← result.2.insert 0x20 6
      return (result.1, inserted.1)) = .ok ([.index 1, .index 3, .index 5, .index 7], 1) := by
    decide +kernel
  obtain ⟨cache, made, answers⟩ := bind_eq_ok_iff.mp answers
  obtain ⟨⟨replies, after⟩, ran, answers⟩ := bind_eq_ok_iff.mp answers
  obtain ⟨⟨leaf, hung⟩, inserted, answers⟩ := bind_eq_ok_iff.mp answers
  simp only [pure_eq_ok, Except.ok.injEq, Prod.mk.injEq] at answers
  obtain ⟨rfl, rfl⟩ := answers
  exact ⟨cache, after, hung, made, ran, inserted, pathsConsistent_of_runAll made ran 0x20⟩

end Cache

end TrieCache
