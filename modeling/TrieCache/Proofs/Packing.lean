import TrieCache.Proofs.Outline
import TrieCache.Proofs.Unwritten

/-!
# Filling a pool from the front

As long as a pool has blocks that were never built, and nothing is locked, the hand stands
at the first of them, and a sweep takes it on sight.  Building in such a block evicts
nothing: every route stays, and the only new ones lead down the path that is built.
-/

namespace TrieCache

/-- A block under the hand that is free for the taking is taken. -/
theorem Pool.selectVictim_of_free {pool : Pool} {maxAttempts : Nat} {pinned : List Nat}
    {block : Block} (attempts : 0 < maxAttempts)
    (found : pool.blocks[pool.hand]? = some block) (unlocked : block.locked = false)
    (fresh : pool.hand ∉ pinned) (free : block.isFreeToTake = true) :
    pool.selectVictim maxAttempts pinned =
      .ok ({ index := pool.hand, fallback := false },
        { pool with hand := (pool.hand + 1) % pool.capacity }) := by
  rw [selectVictim, sweep_of_block attempts found]
  simp [unlocked, fresh, free]

theorem Trie.erase_eq_self {trie : Trie} {victim : Nat} (vacant : trie.node victim = none) :
    trie.erase victim = trie := by
  refine Trie.ext rfl (funext fun index => ?_)
  dsimp only [erase]
  split
  next here => rw [here, vacant]
  next => rfl

namespace Stats

/-- Nothing was taken from anyone to make room. -/
structure Harmless (stats : Stats) : Prop where
  fallbackVictims : stats.fallbackVictims = 0
  orphanedChildren : stats.orphanedChildren = 0
  leafEvictions : stats.leafEvictions = 0

theorem Harmless.of_work_eq {before after : Stats} (harmless : before.Harmless)
    (work : after.work = before.work) : after.Harmless where
  fallbackVictims := (congrArg Stats.fallbackVictims work).trans harmless.fallbackVictims
  orphanedChildren := (congrArg Stats.orphanedChildren work).trans harmless.orphanedChildren
  leafEvictions := (congrArg Stats.leafEvictions work).trans harmless.leafEvictions

end Stats

namespace Cache

variable {cache middle after : Cache} {address : Address} {level count : Nat}
  {parent : Option Nat} {pinned built : List Nat} {tag : Nat}

section Levels

/-- The pool is built from the front, and the hand is at the first block that is not. -/
structure Dense (cache : Cache) (count : Nat) : Prop where
  node_eq_none_iff {index : Nat} : cache.trie.node index = none ↔ count ≤ index
  cursor : cache.cursor = count % cache.pool.capacity

theorem Dense.congr (dense : cache.Dense count)
    (capacity : after.pool.capacity = cache.pool.capacity)
    (levels : ∀ index, (after.trie.node index).map Node.level =
      (cache.trie.node index).map Node.level)
    (cursor : after.cursor = cache.cursor) : after.Dense count where
  node_eq_none_iff := by
    intro index
    rw [← dense.node_eq_none_iff, ← Option.map_eq_none_iff (f := Node.level), levels index,
      Option.map_eq_none_iff]
  cursor := by rw [cursor, capacity, dense.cursor]

/-- A path was built, or part of one, and nothing was taken from the rest of the cache. -/
structure Extended (before : Cache) (tag : Nat) (after : Cache) : Prop where
  layout : after.layout = before.layout
  keeps {slots : List Nat} {owner : Option Nat} : before.trie.Route slots owner →
    after.trie.Route slots owner
  adds {slots : List Nat} {index : Nat} : after.trie.Route slots (some index) →
    before.trie.Route slots (some index) ∨ ∃ level, slots = before.layout.slots tag level
  harmless : before.stats.Harmless → after.stats.Harmless

theorem Extended.refl (cache : Cache) (tag : Nat) : cache.Extended tag cache where
  layout := rfl
  keeps := id
  adds := .inl
  harmless := id

theorem extended_of_link_eq (layout : after.layout = cache.layout)
    (link : ∀ owner slot, after.trie.link owner slot = cache.trie.link owner slot)
    (harmless : cache.stats.Harmless → after.stats.Harmless) : cache.Extended tag after where
  layout := layout
  keeps := fun route => route.congr link
  adds := fun route => .inl (route.congr fun owner slot => (link owner slot).symm)
  harmless := harmless

theorem Extended.trans (first : cache.Extended tag middle) (second : middle.Extended tag after) :
    cache.Extended tag after where
  layout := second.layout.trans first.layout
  keeps := fun route => second.keeps (first.keeps route)
  adds := by
    intro slots index route
    rcases second.adds route with older | ⟨level, isWay⟩
    · exact first.adds older
    · exact .inr ⟨level, first.layout ▸ isWay⟩
  harmless := fun harmless => second.harmless (first.harmless harmless)

/-- Building in a block under the hand that was never built takes nothing out. -/
theorem buildLevel_of_unbuilt (sound : cache.view.Sound) (tidy : cache.Tidy)
    (inRange : cache.layout.contains address = true) (level_lt : level < cache.layout.depth)
    (anchored : cache.view.Anchored (cache.layout.blockOf address) level parent pinned)
    {block : Block} (found : cache.pool.blocks[cache.cursor]? = some block)
    (invalid : block.valid = false) (unlocked : block.locked = false)
    (fresh : cache.cursor ∉ pinned) {slot : Nat}
    (slot_eq : cache.layout.slot (cache.layout.blockOf address) (level + 1) = slot) :
    ∃ after, cache.buildLevel address (level + 1) parent pinned = .ok (cache.cursor, after) ∧
      after.cursor = (cache.cursor + 1) % cache.pool.capacity ∧
      after.stats = cache.stats.recordVictim false ∧
      cache.trie.Fits parent slot cache.cursor
        (Node.blank (level + 1) block.tag (parent.getD slot)) ∧
      after.view = cache.view.place parent slot cache.cursor
        (Node.blank (level + 1) block.tag (parent.getD slot))
        (cache.layout.blankCopy (level + 1) block.tag) := by
  have founded := sound.founded
  let chosen : Cache := { cache with
    pool := { cache.pool with hand := (cache.pool.hand + 1) % cache.pool.capacity }
    stats := cache.stats.recordVictim false }
  have selected : cache.pool.selectVictim cache.config.maxAttempts.toNat pinned =
      .ok ({ index := cache.cursor, fallback := false }, chosen.pool) :=
    Pool.selectVictim_of_free founded.attempts_pos found unlocked fresh
      (by simp [Block.isFreeToTake, invalid])
  have swept : cache.pool.Swept chosen.pool :=
    Pool.swept_moveHand (Nat.mod_lt _ (Nat.zero_lt_of_lt (Pool.lt_capacity_of_block found)))
  have view : chosen.view = cache.view := view_of_aged swept.aged _
  have sound' : chosen.view.Sound := view ▸ sound
  obtain ⟨evicted, erased⟩ := evict_of_unbuilt sound' found invalid
  rw [view] at erased
  have trie : cache.trie.erase cache.cursor = (cache.view.remove cache.cursor []).trie :=
    congrArg View.trie erased
  have fits : (cache.trie.erase cache.cursor).Fits parent slot cache.cursor
      (Node.blank (level + 1) block.tag (parent.getD slot)) := by
    rw [trie, ← slot_eq]
    exact anchored.fits sound fresh block.tag
  have tidy' : chosen.Tidy := tidy.of_swept swept _
  obtain ⟨after, isBuilt, _, stats, view_after⟩ :=
    build_spec sound'.founded tidy' found inRange level_lt slot_eq fits
      fun _ _ _ isNode => sound.linked.level_pos isNode
  refine ⟨after, ?_, stable_cursor.build isBuilt, stats, ?_, ?_⟩
  · rw [buildLevel, selected, ok_bind]
    dsimp only
    rw [evicted, ok_bind, isBuilt]
    rfl
  · have vacant : cache.trie.node cache.cursor = none := by
      rw [node_of_block found, Block.node?, if_neg (by simp [invalid])]
    rwa [Trie.erase_eq_self vacant] at fits
  · rw [view_after, view]

/-- The first block that was never built is the next one of the path. -/
theorem Dense.buildLevel (dense : cache.Dense count) (sound : cache.view.Sound)
    (tidy : cache.Tidy) (inRange : cache.layout.contains address = true)
    (level_lt : level < cache.layout.depth)
    (anchored : cache.view.Anchored (cache.layout.blockOf address) level parent pinned)
    (unlocked : cache.view.locked count = some false) (room : count < cache.pool.capacity)
    (pinned_lt : ∀ index ∈ pinned, index < count) {victim : Nat}
    (ran : cache.buildLevel address (level + 1) parent pinned = .ok (victim, after)) :
    victim = count ∧ after.Dense (count + 1) ∧
      cache.Extended (cache.layout.blockOf address) after := by
  have isNext : cache.cursor = count := dense.cursor.trans (Nat.mod_eq_of_lt room)
  obtain ⟨block, found, isLocked⟩ := Pool.look_eq_some_iff.mp unlocked
  have invalid : block.valid = false := by
    have vacant := (node_of_block found).symm.trans (dense.node_eq_none_iff.mpr le_rfl)
    simpa [Block.node?] using vacant
  subst isNext
  obtain ⟨after, built, cursor, stats, fits, view⟩ :=
    buildLevel_of_unbuilt sound tidy inRange level_lt anchored found invalid
      (Option.some.inj isLocked) (fun isPinned => Nat.lt_irrefl _ (pinned_lt _ isPinned)) rfl
  cases built.symm.trans ran
  have trie : after.trie = cache.trie.graft parent _ cache.cursor _ := congrArg View.trie view
  have frame : after.frame = cache.frame := congrArg View.frame view
  refine ⟨rfl, ⟨fun {index} => ?_, ?_⟩, congrArg Frame.layout frame, fun route => ?_,
    fun {slots index} route => ?_, fun harmless => ?_⟩
  · rw [trie]
    by_cases isNew : index = cache.cursor
    · subst isNew
      simp [Trie.node_graft_self]
    · rw [Trie.node_graft_of_ne isNew, Option.map_eq_none_iff, dense.node_eq_none_iff]
      omega
  · have capacity : after.pool.capacity = cache.pool.capacity := congrArg Frame.capacity frame
    rw [cursor, capacity]
  · rw [trie]
    exact route.graft fits
  · rw [trie] at route
    rcases Trie.Route.of_graft fits route with older | ⟨_, above, isWay, toParent⟩
    · exact .inl older
    · rw [sound.linked.route_injective toParent anchored.route] at isWay
      exact .inr ⟨level + 1, isWay⟩
  · rw [stats]
    exact ⟨harmless.fallbackVictims, harmless.orphanedChildren, harmless.leafEvictions⟩

/-- A whole path goes into the blocks that were never built, as long as there are enough. -/
theorem Dense.buildPath (dense : cache.Dense count) (sound : cache.view.Sound)
    (tidy : cache.Tidy) (inRange : cache.layout.contains address = true) {levels : Nat}
    (depth_eq : level + levels = cache.layout.depth)
    (anchored : cache.view.Anchored (cache.layout.blockOf address) level parent pinned)
    (unlocked : ∀ index < cache.pool.capacity, cache.view.locked index = some false)
    (room : count + levels ≤ cache.pool.capacity) (pinned_lt : ∀ index ∈ pinned, index < count)
    (ran : cache.buildPath address (level + 1) parent pinned levels = .ok (built, after)) :
    after.Dense (count + levels) ∧ cache.Extended (cache.layout.blockOf address) after := by
  induction levels generalizing cache level parent pinned built count with
  | zero =>
    cases ran
    exact ⟨dense, .refl _ _⟩
  | succ levels ih =>
    obtain ⟨⟨victim, middle⟩, first, ran⟩ := bind_eq_ok_iff.mp ran
    obtain ⟨⟨rest, _⟩, others, same⟩ := bind_eq_ok_iff.mp ran
    cases same
    obtain ⟨rfl, dense', extended⟩ := dense.buildLevel sound tidy inRange (by omega) anchored
      (unlocked count (by omega)) (by omega) pinned_lt first
    cases levels with
    | zero =>
      cases others
      exact ⟨dense', extended⟩
    | succ levels =>
      obtain ⟨tidy', sound', shed, anchored'⟩ :=
        (buildTable_outcome sound tidy inRange (by omega) anchored).of_eq_ok first
      have layout := extended.layout
      have capacity : middle.pool.capacity = cache.pool.capacity :=
        congrArg Frame.capacity shed.frame
      rw [← layout] at inRange anchored' depth_eq extended ⊢
      rw [← capacity, ← shed.locked] at unlocked
      have pinned_lt' : ∀ index ∈ victim :: pinned, index < victim + 1 := by
        intro index isPinned
        rcases List.mem_cons.mp isPinned with rfl | isAbove
        · exact Nat.lt_succ_self _
        · exact Nat.lt_succ_of_lt (pinned_lt index isAbove)
      obtain ⟨dense_after, extended'⟩ := ih dense' sound' tidy' inRange (by omega) anchored' unlocked
        (by omega) pinned_lt' others
      have sum : victim + (levels + 1 + 1) = victim + 1 + (levels + 1) := by omega
      rw [sum]
      exact ⟨dense_after, extended.trans extended'⟩

end Levels

section Insertions

variable {content : Nat → Array UInt8 → Array UInt8}

theorem stable_blocksBuilt :
    Stable fun before after => after.stats.blocksBuilt = before.stats.blocksBuilt where
  refl _ := rfl
  trans first second := second.trans first
  block _ _ _ := rfl
  top _ _ := rfl
  shortcut _ _ := rfl
  queued _ _ _ := rfl
  orphans _ _ := rfl
  leafEviction _ := rfl

theorem Browsed.blocksBuilt (browsed : cache.Browsed after) :
    after.stats.blocksBuilt = cache.stats.blocksBuilt :=
  show after.stats.work.blocksBuilt = cache.stats.work.blocksBuilt from
    congrArg Stats.blocksBuilt browsed.work

/-- Blocks are counted once they are all built. -/
theorem Staged.blocksBuilt (staged : cache.Staged address content built after) :
    after.stats.blocksBuilt = Word.saturatingAdd cache.stats.blocksBuilt built.length := by
  cases staged with
  | @mk _ _ _ _ _ _ walked hung labelled indexed _ searched _ _ _ _ _ _ path _ changed installed =>
    have hung_eq : hung.stats.blocksBuilt = walked.stats.blocksBuilt :=
      stable_blocksBuilt.buildPath (fun _ _ fallback => by cases fallback <;> rfl) path
    have labelled_eq : labelled.stats.blocksBuilt = hung.stats.blocksBuilt :=
      stable_blocksBuilt.updateBlock changed
    have indexed_eq := (browsed_of_installFastPath installed).blocksBuilt
    have walked_eq := (browsed_of_search searched).blocksBuilt
    change Word.saturatingAdd indexed.stats.blocksBuilt _ = _
    rw [indexed_eq, labelled_eq, hung_eq, walked_eq]

/-- An insertion builds the levels below the end of the walk.  Where there are enough blocks
that were never built, they go there. -/
theorem Staged.extended (staged : cache.Staged address content built after)
    (sound : cache.view.Sound) (dense : cache.Dense count)
    (unlocked : ∀ index < cache.pool.capacity, cache.view.locked index = some false) :
    ∃ level anchor, level + built.length = cache.layout.depth ∧ built ≠ [] ∧
      cache.trie.Route (cache.layout.slots (cache.layout.blockOf address) level) anchor ∧
      cache.trie.link anchor (cache.layout.slot (cache.layout.blockOf address) (level + 1)) = none ∧
      (count + built.length ≤ cache.pool.capacity → after.Dense (count + built.length) ∧
        cache.Extended (cache.layout.blockOf address) after) := by
  cases staged with
  | @mk anchor level levels leaf pinned built walked hung labelled indexed passed searched unmoved
      _ _ pins depth_eq anchored path isLast changed installed =>
    have inRange := require_eq_ok_iff.mp passed
    have layout : walked.layout = cache.layout := unmoved.layout
    have view := unmoved.view
    have trie : walked.trie = cache.trie := congrArg View.trie view
    have sound' := unmoved.sound sound
    have frame : walked.frame = cache.frame := congrArg View.frame view
    have capacity : walked.pool.capacity = cache.pool.capacity := congrArg Frame.capacity frame
    have walked_dense : walked.Dense count :=
      dense.congr capacity (fun _ => by rw [trie]) (browsed_of_search searched).cursor
    rw [← layout] at inRange depth_eq anchored changed installed ⊢
    rw [← capacity, ← view] at unlocked
    have pinned_lt : ∀ index ∈ pinned, index < count := by
      obtain ⟨pinned', pins', _, isWay⟩ := pinnedBy_spec sound' (by omega) anchored.route
        anchored.free anchored.absent
      cases pins.symm.trans pins'
      intro index isPinned
      obtain ⟨above, route⟩ := isWay index isPinned
      obtain ⟨node, isNode, _⟩ := sound'.linked.node_of_route route
      by_contra beyond
      have vacant := walked_dense.node_eq_none_iff.mpr (Nat.le_of_not_lt beyond)
      exact absurd (vacant.symm.trans isNode) (by simp)
    obtain ⟨_, length⟩ := raised_of_buildPath sound' unmoved.tidy inRange (by omega) anchored path
    refine ⟨level, anchor, by omega, fun none => ?_, trie ▸ anchored.route, trie ▸ anchored.free,
      fun room => ?_⟩
    · rw [none] at length
      cases length
    obtain ⟨hung_dense, hung_extended⟩ := walked_dense.buildPath sound' unmoved.tidy inRange
      (by omega) anchored unlocked (by omega) pinned_lt path
    have relabelled := relabelled_of_updateBlock changed
    have labelled_dense : labelled.Dense _ := hung_dense.congr
      (congrArg Frame.capacity relabelled.frame) relabelled.level
      (stable_cursor.updateBlock changed)
    have walked_extended : cache.Extended (walked.layout.blockOf address) walked :=
      extended_of_link_eq layout (fun _ _ => by rw [trie])
        fun harmless => harmless.of_work_eq (browsed_of_search searched).work
    have labelled_extended : hung.Extended (walked.layout.blockOf address) labelled := by
      refine extended_of_link_eq (congrArg Frame.layout relabelled.frame) relabelled.link ?_
      obtain ⟨_, rfl⟩ := updateBlock_eq_ok_iff.mp changed
      exact id
    have indexed_extended : labelled.Extended (walked.layout.blockOf address)
        (indexed.record (Stats.recordInsertion · built.length)) := by
      have work := (browsed_of_installFastPath installed).work
      obtain ⟨_, fastPath, _, rfl⟩ := filed_of_installFastPath installed
      refine extended_of_link_eq rfl (fun _ _ => rfl) fun harmless => ?_
      obtain ⟨fallbackVictims, orphanedChildren, leafEvictions⟩ := harmless.of_work_eq work
      exact ⟨fallbackVictims, orphanedChildren, leafEvictions⟩
    refine ⟨?_, walked_extended.trans (hung_extended.trans
      (labelled_extended.trans indexed_extended))⟩
    obtain ⟨_, fastPath, _, rfl⟩ := filed_of_installFastPath installed
    rw [length]
    exact labelled_dense.congr rfl (fun _ => rfl) rfl

end Insertions

end Cache

end TrieCache
