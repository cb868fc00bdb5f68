import TrieCache.Backed
import TrieCache.Proofs.FlatMemory
import TrieCache.Proofs.Reachability

/-!
# Kinds of blocks

A slot of the pool serves as a table at one time and as a data block at another.  Whatever
it was before, it is of the kind that its level says: every link leads into the pool, every
table has a slot for every selector, and every data block has all its bytes.  What is queued
is what a data block held.  So an access finds every block, slot and byte that it asks for,
and a store is never sent a part of a block.
-/

namespace TrieCache

namespace BlockStore

variable {σ : Type} [BlockStore σ]

/-- Send blocks to a store in turn, without a look at their sizes. -/
def takeAll (store : σ) : List Writeback → Checked (StoreReply Unit × σ)
  | [] => .ok (.ok (), store)
  | block :: blocks => do
    let (outcome, store) ← writeback store block.tag block.bytes
    match outcome with
    | .error error => return (.error error, store)
    | .ok () => takeAll store blocks

/-- Whole blocks pass the check of their size, up to the first that the store refuses. -/
theorem sendAll_eq_takeAll
    (sized : ∀ {store after : σ} {tag : Nat} {bytes : Array UInt8} {outcome : StoreReply Unit},
      writeback store tag bytes = .ok (outcome, after) → blockSize after = blockSize store)
    {store : σ} {queue : List Writeback}
    (whole : ∀ block ∈ queue, block.bytes.size = blockSize store) :
    BackedCache.sendAll store queue = takeAll store queue := by
  induction queue generalizing store with
  | nil => rfl
  | cons block rest ih =>
    rw [BackedCache.sendAll, takeAll, writebackBlock, if_pos (whole block List.mem_cons_self)]
    cases sent : writeback store block.tag block.bytes with
    | error fault => rfl
    | ok result =>
      obtain ⟨outcome, after⟩ := result
      cases outcome with
      | error error => rfl
      | ok =>
        refine ih fun other isRest => ?_
        rw [sized sent]
        exact whole other (List.mem_cons_of_mem _ isRest)

end BlockStore

namespace View

/-- The queue has whole blocks of the address space. -/
def QueuesWhole (view : View) : Prop :=
  ∀ ⦃writeback : Writeback⦄, writeback ∈ view.queue →
    writeback.bytes.size = view.frame.layout.blockBytes ∧
      view.frame.layout.HasBlock writeback.tag

end View

namespace Cache

variable {cache after : Cache}

theorem queuesWhole_of_run (ready : cache.Ready) (inSpace : cache.view.InSpace)
    (whole : cache.view.QueuesWhole) {command : Command} {reply : Reply}
    (ran : cache.run command = .ok (reply, after)) : after.view.QueuesWhole := by
  intro writeback isQueued
  have frame : after.view.frame = cache.view.frame := ready.frame_of_run ran
  rw [frame]
  cases ready with
  | vacant vacant =>
    rw [(vacant.run ran).1.blank.queue] at isQueued
    cases isQueued
  | sound tidy sound =>
    rcases (run_effect sound tidy ran).2.2.mem_queue isQueued with older | ⟨index, copy, holds, rfl⟩
    · exact whole older
    · exact ⟨tidy.size_of_copy holds, inSpace holds⟩

theorem queuesWhole_of_runAll (ready : cache.Ready) (inSpace : cache.view.InSpace)
    (whole : cache.view.QueuesWhole) {commands : List Command} {replies : List Reply}
    (ran : cache.runAll commands = .ok (replies, after)) : after.view.QueuesWhole := by
  induction commands generalizing cache replies with
  | nil =>
    cases ran
    exact whole
  | cons command rest ih =>
    obtain ⟨⟨reply, middle⟩, first, ran⟩ := bind_eq_ok_iff.mp ran
    obtain ⟨⟨replies', _⟩, others, same⟩ := bind_eq_ok_iff.mp ran
    cases same
    exact ih (ready.run first) (ready.inSpace_of_run inSpace first)
      (queuesWhole_of_run ready inSpace whole first) others

theorem lt_capacity_of_link (linked : cache.trie.Linked) {owner : Option Nat} {slot index : Nat}
    (leads : cache.trie.link owner slot = some index) : index < cache.pool.capacity := by
  obtain ⟨node, isNode, _⟩ := linked.target leads
  obtain ⟨block, found, _⟩ := block_of_node isNode
  exact Pool.lt_capacity_of_block found

/-- Only tables have links, and tables are in the trie. -/
theorem link_of_valid {layout : Layout} {index slot : Nat} {block : Block} {link : Link}
    (shaped : block.Shaped layout) (found : cache.pool.blocks[index]? = some block)
    (isLink : block.links[slot]? = some link) (valid : link.valid = true) :
    cache.trie.link (some index) slot = some link.target := by
  cases shaped with
  | unbuilt _ _ payload _ => simp [Block.links, payload] at isLink
  | leaf _ _ bytes payload _ => simp [Block.links, payload] at isLink
  | table isValid _ _ links payload _ _ =>
    refine Trie.link_some_eq_some_iff.mpr
      ⟨_, (node_of_block found).trans (Block.node?_eq_some_iff.mpr ⟨isValid, rfl⟩), ?_⟩
    rcases link with ⟨_, target⟩
    cases valid
    exact Block.child?_eq_some_iff.mpr isLink

theorem level_of_dirty {layout : Layout} {block : Block} (shaped : block.Shaped layout)
    (dirty : block.dirty = true) : block.level = layout.depth := by
  cases shaped with
  | unbuilt _ _ _ clean => simp [clean] at dirty
  | table _ _ _ _ _ _ clean => simp [clean] at dirty
  | leaf _ level => exact level

/-- What the blocks, the links and the queue of a cache of a configuration can be. -/
structure WellBuilt (cache : Cache) (config : Config) : Prop where
  depth_eq : cache.layout.depth = config.levels.toNat
  depth_pos : 1 ≤ cache.layout.depth
  blockBytes_eq : cache.layout.blockBytes = config.blockSize.toNat
  fanout_eq : cache.layout.fanout = config.branching
  /-- A block was never built, or it is a table or a data block as its level says. -/
  shaped : cache.pool.All (Block.Shaped cache.layout)
  level_of_dirty {index : Nat} {block : Block} : cache.pool.blocks[index]? = some block →
    block.dirty = true → block.level = cache.layout.depth
  top_lt {slot : Nat} {entry : Link} : cache.top.entries[slot]? = some entry →
    entry.valid = true → entry.target < cache.pool.capacity
  link_lt {index slot : Nat} {block : Block} {link : Link} :
    cache.pool.blocks[index]? = some block → block.links[slot]? = some link →
      link.valid = true → link.target < cache.pool.capacity
  queued {writeback : Writeback} : writeback ∈ cache.writebacks →
    writeback.bytes.size = cache.layout.blockBytes ∧ cache.layout.HasBlock writeback.tag
  /-- No store of that block size has to refuse a block because of its size. -/
  sent {σ : Type} [BlockStore σ]
    (sized : ∀ {store after : σ} {tag : Nat} {bytes : Array UInt8} {outcome : StoreReply Unit},
      BlockStore.writeback store tag bytes = .ok (outcome, after) →
        BlockStore.blockSize after = BlockStore.blockSize store) (store : σ) :
    BlockStore.blockSize store = cache.layout.blockBytes →
      BackedCache.sendAll store cache.writebacks.toList =
        BlockStore.takeAll store cache.writebacks.toList

theorem wellBuilt_of_ready {config : Config} {capacity spanBits : Nat} (ready : cache.Ready)
    (whole : cache.view.QueuesWhole) (accepted : config.Accepted capacity spanBits)
    (isLayout : Layout.ofConfig config = .ok cache.layout) : cache.WellBuilt config := by
  have layout_eq := (Layout.ofConfig_eq_ok_iff accepted).mp isLayout
  have shaped := ready.tidy.shaped
  have queued {writeback : Writeback} (isQueued : writeback ∈ cache.writebacks) :=
    whole (Array.mem_toList_iff.mpr isQueued)
  exact {
    depth_eq := by rw [layout_eq]
    depth_pos := by
      rw [layout_eq]
      exact accepted.levels_pos
    blockBytes_eq := by
      rw [accepted.blockSize_eq, layout_eq]
      rfl
    fanout_eq := by
      rw [accepted.branching_eq, layout_eq]
      rfl
    shaped := shaped
    level_of_dirty := fun found dirty => Cache.level_of_dirty (shaped _ _ found) dirty
    top_lt := fun {slot entry} isEntry valid => by
      have leads : cache.trie.link none slot = some entry.target := by
        change cache.top.entries[slot]?.bind Link.leads? = _
        rw [isEntry, Option.bind_some, Link.leads?, if_pos valid]
      exact lt_capacity_of_link ready.linked leads
    link_lt := fun found isLink valid =>
      lt_capacity_of_link ready.linked (link_of_valid (shaped _ _ found) found isLink valid)
    queued := queued
    sent := fun sized store sameSize => by
      refine BlockStore.sendAll_eq_takeAll sized fun block isQueued => ?_
      rw [sameSize]
      exact (queued (Array.mem_toList_iff.mp isQueued)).1 }

/-- At every point of a run the blocks are of their kinds, and in a usable configuration no
access fails but for a word that has counted to its end. -/
theorem wellBuilt_of_runAll {config : Config} {commands : List Command} {replies : List Reply}
    (made : ofConfig config = .ok cache) (ran : cache.runAll commands = .ok (replies, after)) :
    after.WellBuilt config ∧ (config.Usable → ∀ address access,
      after.layout.contains address = true →
        Ends (after.access address access) (fun _ => True) (CountFull commands.length)) := by
  obtain ⟨capacity, spanBits, accepted, isLayout, _⟩ := ofConfig_spec made
  have ready := ready_of_ofConfig made
  have blank := blank_of_ofConfig made
  have fresh : cache.view.QueuesWhole := by
    intro writeback isQueued
    rw [blank.queue] at isQueued
    cases isQueued
  have layout : after.layout = cache.layout := congrArg Frame.layout (ready.frame_of_runAll ran)
  refine ⟨wellBuilt_of_ready (ready.runAll ran)
    (queuesWhole_of_runAll ready blank.inSpace fresh ran) accepted (layout ▸ isLayout), ?_⟩
  intro usable address access inRange
  obtain ⟨tidy, sound, counts⟩ := counts_of_runAll usable made ran
  refine (access_outcome sound tidy address access).mono (fun _ _ => trivial) ?_
  rintro fault (outside | ⟨_, overflow⟩)
  · simp [inRange] at outside
  · exact counts fault overflow

/-- The last insertion takes the slot of the first data block, which had changed. -/
theorem wellBuilt_after_reuse : ∃ cache replies after result, ofConfig .tiny = .ok cache ∧
    cache.runAll [.insert 0x01 1, .write 0x02 9, .insert 0x08 3, .insert 0x10 4, .insert 0x18 5,
      .insert 0x20 6] = .ok (replies, after) ∧
    after.writebacks = #[{ tag := 0, bytes := #[0, 1, 9, 0] }] ∧ after.WellBuilt .tiny ∧
    after.access 0x21 (.write 8) = .ok result := by
  have answers : (do
      let cache ← ofConfig .tiny
      let result ← cache.runAll [.insert 0x01 1, .write 0x02 9, .insert 0x08 3, .insert 0x10 4,
        .insert 0x18 5, .insert 0x20 6]
      return (result.2.writebacks, result.2.layout.contains 0x21)) =
        .ok (#[{ tag := 0, bytes := #[0, 1, 9, 0] }], true) := by decide +kernel
  obtain ⟨cache, made, answers⟩ := bind_eq_ok_iff.mp answers
  obtain ⟨⟨replies, after⟩, ran, answers⟩ := bind_eq_ok_iff.mp answers
  simp only [pure_eq_ok, Except.ok.injEq, Prod.mk.injEq] at answers
  obtain ⟨queue, inRange⟩ := answers
  obtain ⟨wellBuilt, accessible⟩ := wellBuilt_of_runAll made ran
  obtain ⟨result, accessed, _⟩ :=
    (accessible BackedCache.usable_tiny 0x21 (.write 8) inRange).exists_ok fun _ full => by
      simp [CountFull] at full
  exact ⟨cache, replies, after, result, made, ran, queue, wellBuilt, accessed⟩

end Cache

end TrieCache
