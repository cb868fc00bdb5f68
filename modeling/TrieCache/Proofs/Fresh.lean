import TrieCache.Proofs.Effect
import TrieCache.Proofs.Stages

/-!
# Fresh caches

A fresh cache holds nothing.  In a regular layout that makes it sound.  The checks of a
configuration also let layouts pass in which no block can be reached, because a field of
the addresses leaves its word.  A cache of such a layout holds nothing for good: no
insertion into it succeeds.
-/

namespace TrieCache

/-- A configuration that runs can be tried on: eight blocks of four bytes. -/
def Config.tiny : Config where
  size := 32
  blockSize := 4
  levels := 2
  addressBits := 8
  fastPathSize := 16

/-- No block can be reached: the top index leaves its word, or a selector does that every
way down must pass. -/
def Layout.Barred (layout : Layout) : Prop :=
  (∀ address slot, layout.topIndex address ≠ .ok slot) ∨ 2 ^ 32 ≤ layout.depth

namespace View

/-- Nothing is held, linked or queued. -/
structure Blank (view : View) : Prop where
  top (slot : Nat) : view.trie.top slot = none
  node (index : Nat) : view.trie.node index = none
  copies (index : Nat) : view.copies index = none
  shortcut (tag : Nat) : view.shortcut tag = none
  queue : view.queue = []

variable {view : View}

theorem Blank.not_link (blank : view.Blank) (owner : Option Nat) (slot index : Nat) :
    view.trie.link owner slot ≠ some index := by
  intro leads
  cases owner with
  | none =>
    rw [Trie.link, blank.top] at leads
    cases leads
  | some table =>
    rw [Trie.link, blank.node] at leads
    cases leads

theorem Blank.not_route (blank : view.Blank) (slots : List Nat) (index : Nat) :
    ¬ view.trie.Route slots (some index) := by
  intro route
  cases route with
  | step path leads => exact blank.not_link _ _ _ leads

theorem Blank.not_resolves (blank : view.Blank) (tag index : Nat) : ¬ view.Resolves tag index := by
  rintro (leads | route)
  · rw [blank.shortcut] at leads
    cases leads
  · exact blank.not_route _ _ route

theorem Blank.linked (blank : view.Blank) : view.trie.Linked where
  level_pos := by
    intro index node isNode
    rw [blank.node] at isNode
    cases isNode
  target := by
    intro owner slot index leads
    exact absurd leads (blank.not_link owner slot index)
  single := by
    intro owner first second index leads
    exact absurd leads (blank.not_link owner first index)
  owned := by
    intro index node isNode
    rw [blank.node] at isNode
    cases isNode

theorem Blank.sound (blank : view.Blank) (founded : view.frame.Founded) : view.Sound where
  founded := founded
  linked := blank.linked
  placed := fun slots index _ route => absurd route (blank.not_route slots index)
  tagged := by
    intro tag index leads
    rw [blank.shortcut] at leads
    cases leads
  agree := by
    intro tag index other leads
    rw [blank.shortcut] at leads
    cases leads

end View

namespace Cache

variable {config : Config} {cache : Cache}

theorem ofConfig_spec (made : ofConfig config = .ok cache) :
    ∃ capacity spanBits, config.Accepted capacity spanBits ∧
      Layout.ofConfig config = .ok cache.layout ∧ cache.config = config ∧
      cache.top.entries = Array.replicate (2 ^ (config.addressBits.toNat - spanBits)) {} ∧
      cache.pool = { blocks := Array.replicate capacity {} } ∧
      FastPath.ofCapacity config.fastPathSize.toNat = .ok cache.fastPath ∧
      cache.writebacks = #[] := by
  simp only [ofConfig, bind_eq_ok_iff] at made
  obtain ⟨⟨⟩, valid, layout, isLayout, capacity, isCapacity, pool, isPool, size, isSize, top, isTop,
    fastPath, isFastPath, same⟩ := made
  cases same
  obtain ⟨capacity', spanBits, accepted⟩ := Config.accepted_of_ensureValid valid
  cases accepted.capacity_eq.symm.trans isCapacity
  cases accepted.topEntries_eq.symm.trans isSize
  obtain rfl := Pool.eq_of_ofCapacity isPool
  refine ⟨capacity, spanBits, accepted, isLayout, rfl, ?_, rfl, isFastPath, rfl⟩
  obtain ⟨entries, allocated, same⟩ := bind_eq_ok_iff.mp isTop
  cases same
  obtain ⟨_, rfl⟩ := allocate_eq_ok_iff.mp allocated
  rw [Nat.max_eq_left (Nat.two_pow_pos _)]

theorem stats_of_ofConfig {config : Config} (made : ofConfig config = .ok cache) :
    cache.stats = {} := by
  simp only [ofConfig, bind_eq_ok_iff] at made
  obtain ⟨_, _, _, _, _, _, _, _, _, _, _, _, _, _, same⟩ := made
  cases same
  rfl

theorem block_of_ofConfig {capacity : Nat} {block : Block} {index : Nat}
    (pool : cache.pool = { blocks := Array.replicate capacity {} })
    (found : cache.pool.blocks[index]? = some block) : index < capacity ∧ block = {} := by
  rw [pool, Array.getElem?_replicate] at found
  split at found
  next inside => exact ⟨inside, (Option.some.inj found).symm⟩
  next => cases found

theorem blank_of_ofConfig (made : ofConfig config = .ok cache) : cache.view.Blank := by
  obtain ⟨capacity, spanBits, _, _, _, top, pool, isFastPath, writebacks⟩ := ofConfig_spec made
  obtain ⟨_, _, _, empty⟩ := FastPath.recorded_of_ofCapacity isFastPath
  refine ⟨fun slot => ?_, fun index => ?_, fun index => ?_, empty, ?_⟩
  · change cache.top.entries[slot]?.bind Link.leads? = none
    rw [top, Array.getElem?_replicate]
    split <;> rfl
  · by_contra built
    obtain ⟨node, isNode⟩ := Option.ne_none_iff_exists'.mp built
    obtain ⟨block, found, valid, _⟩ := block_of_node isNode
    rw [(block_of_ofConfig pool found).2] at valid
    cases valid
  · by_contra held
    obtain ⟨copy, holds⟩ := Option.ne_none_iff_exists'.mp held
    obtain ⟨block, found, seen⟩ := Pool.look_eq_some_iff.mp holds
    obtain ⟨valid, _⟩ := Block.copy?_eq_some_iff.mp seen
    rw [(block_of_ofConfig pool found).2] at valid
    cases valid
  · change cache.writebacks.toList = []
    rw [writebacks]

theorem tidy_of_ofConfig (made : ofConfig config = .ok cache) : cache.Tidy := by
  obtain ⟨capacity, spanBits, accepted, _, _, _, pool, isFastPath, _⟩ := ofConfig_spec made
  obtain ⟨recorded, _⟩ := FastPath.recorded_of_ofCapacity isFastPath
  refine ⟨?_, fun index block found => ?_, fun index block found => ?_, recorded⟩
  · rw [pool]
    have levels_lt := accepted.levels_lt
    simpa [Pool.capacity] using Nat.zero_lt_of_lt levels_lt
  · rw [(block_of_ofConfig pool found).2]
    exact .unbuilt rfl rfl rfl rfl
  · rw [(block_of_ofConfig pool found).2]
    exact Nat.zero_le _

theorem founded_of_ofConfig (made : ofConfig config = .ok cache)
    (span : ∃ spanBits, config.spanBits = .ok spanBits ∧ spanBits < 64)
    (levels_lt : config.levels.toNat < 2 ^ 32) : cache.frame.Founded := by
  obtain ⟨capacity, spanBits, accepted, isLayout, isConfig, top, pool, isFastPath, _⟩ :=
    ofConfig_spec made
  obtain ⟨_, isSpan, span_lt⟩ := span
  cases accepted.spanBits_eq.symm.trans isSpan
  have layout_eq := (Layout.ofConfig_eq_ok_iff accepted).mp isLayout
  have regular := Layout.regular_of_ofConfig accepted isLayout span_lt levels_lt
  have size : cache.top.size = 2 ^ (config.addressBits.toNat - spanBits) := by
    rw [TopIndex.size, top, Array.size_replicate]
  have depth_lt : cache.layout.depth < cache.pool.capacity := by
    rw [layout_eq, pool]
    simpa [Pool.capacity] using accepted.levels_lt
  refine ⟨regular, fun address => ?_, ?_, ?_, ?_, depth_lt, ?_⟩
  · change _ ↔ _ < cache.top.size
    rw [size]
    exact Layout.contains_iff_slot_lt accepted isLayout regular address
  · change cache.config.topEntries = .ok cache.top.size
    rw [isConfig, size, accepted.topEntries_eq]
  · change 0 < cache.config.maxAttempts.toNat
    exact isConfig ▸ accepted.attempts_pos
  · change 0 < cache.config.maxReference.toNat
    exact isConfig ▸ accepted.maxReference_pos
  · change cache.fastPath.capacity = cache.config.fastPathSize.toNat
    rw [isConfig]
    exact (FastPath.recorded_of_ofCapacity isFastPath).2.1

/-- The fields of the addresses fit their words, or no block can be reached. -/
theorem founded_or_barred (made : ofConfig config = .ok cache) :
    cache.frame.Founded ∨ cache.layout.Barred := by
  obtain ⟨capacity, spanBits, accepted, isLayout, _⟩ := ofConfig_spec made
  have layout_eq := (Layout.ofConfig_eq_ok_iff accepted).mp isLayout
  by_cases span_lt : spanBits < 64
  · by_cases levels_lt : config.levels.toNat < 2 ^ 32
    · exact .inl (founded_of_ofConfig made ⟨spanBits, accepted.spanBits_eq, span_lt⟩ levels_lt)
    · refine .inr (.inr ?_)
      rw [layout_eq]
      exact Nat.le_of_not_lt levels_lt
  · refine .inr (.inl fun address slot isSlot => ?_)
    rw [Layout.topIndex, layout_eq, Word.shiftRight_eq_ok_iff] at isSlot
    exact span_lt isSlot.1

/-- What emptying and building blocks leaves alone: the layout, and the counts of the blocks
that only a walk found and of those that were pushed off the fast path. -/
structure Steady (before after : Cache) : Prop where
  layout : after.layout = before.layout
  slowPathHits : after.stats.slowPathHits = before.stats.slowPathHits
  fastPathEvictions : after.stats.fastPathEvictions = before.stats.fastPathEvictions

section Steadiness

variable {after : Cache} {index level : Nat}

theorem Steady.refl (cache : Cache) : cache.Steady cache :=
  ⟨rfl, rfl, rfl⟩

theorem Steady.trans {middle : Cache} (first : cache.Steady middle) (second : middle.Steady after) :
    cache.Steady after where
  layout := second.layout.trans first.layout
  slowPathHits := second.slowPathHits.trans first.slowPathHits
  fastPathEvictions := second.fastPathEvictions.trans first.fastPathEvictions

theorem stable_steady : Stable Steady where
  refl := .refl
  trans := .trans
  block _ _ _ := ⟨rfl, rfl, rfl⟩
  top _ _ := ⟨rfl, rfl, rfl⟩
  shortcut _ _ := ⟨rfl, rfl, rfl⟩
  queued _ _ _ := ⟨rfl, rfl, rfl⟩
  orphans _ _ := ⟨rfl, rfl, rfl⟩
  leafEviction _ := ⟨rfl, rfl, rfl⟩

theorem steady_of_swept (cache : Cache) (pool : Pool) (fallback : Bool) :
    cache.Steady { cache with pool, stats := cache.stats.recordVictim fallback } := by
  cases fallback <;> exact ⟨rfl, rfl, rfl⟩

theorem selector_of_build {address : Address} {parent : Option Nat}
    (ran : cache.build index level address parent = .ok after) (below : parent ≠ none) :
    ∃ slot, cache.layout.selector address level = .ok slot := by
  obtain ⟨payload, _, ran⟩ := bind_eq_ok_iff.mp ran
  obtain ⟨rebuilt, changed, ran⟩ := bind_eq_ok_iff.mp ran
  cases parent with
  | none => exact absurd rfl below
  | some parent =>
    obtain ⟨_, hangs, _⟩ := bind_eq_ok_iff.mp ran
    obtain ⟨slot, isSlot, _⟩ := bind_eq_ok_iff.mp hangs
    exact ⟨slot, (stable_steady.updateBlock changed).layout ▸ isSlot⟩

theorem selector_of_buildLevel {address : Address} {parent : Option Nat} {pinned : List Nat}
    {built : Nat} (ran : cache.buildLevel address level parent pinned = .ok (built, after))
    (below : parent ≠ none) : ∃ slot, cache.layout.selector address level = .ok slot := by
  obtain ⟨⟨victim, pool⟩, _, ran⟩ := bind_eq_ok_iff.mp ran
  obtain ⟨evicted, emptied, ran⟩ := bind_eq_ok_iff.mp ran
  obtain ⟨hung, built', _⟩ := bind_eq_ok_iff.mp ran
  have layout : evicted.layout = cache.layout := (stable_steady.evict emptied).layout
  exact layout ▸ selector_of_build built' below

theorem selector_of_buildPath {address : Address} {parent : Option Nat} {pinned : List Nat}
    {levels : Nat} {built : List Nat}
    (ran : cache.buildPath address level parent pinned levels = .ok (built, after))
    {deeper : Nat} (level_le : level ≤ deeper) (deeper_lt : deeper < level + levels)
    (below : level < deeper ∨ parent ≠ none) :
    ∃ slot, cache.layout.selector address deeper = .ok slot := by
  induction levels generalizing cache level parent pinned built with
  | zero => omega
  | succ levels ih =>
    obtain ⟨⟨first, middle⟩, builtLevel, ran⟩ := bind_eq_ok_iff.mp ran
    obtain ⟨⟨rest, bottom⟩, builtRest, ran⟩ := bind_eq_ok_iff.mp ran
    cases ran
    have steady := stable_steady.buildLevel steady_of_swept builtLevel
    rcases Nat.lt_or_eq_of_le level_le with isBelow | rfl
    · exact steady.layout ▸ ih builtRest isBelow (by omega) (.inr (Option.some_ne_none _))
    · exact selector_of_buildLevel builtLevel (below.resolve_left (Nat.lt_irrefl _))

end Steadiness

theorem selector_ne {address : Address} (deep : 2 ^ 32 ≤ cache.layout.depth) (slot : Nat) :
    cache.layout.selector address (2 ^ 32) ≠ .ok slot := by
  intro isSlot
  have wraps : Word.sub (2 ^ 32 % 2 ^ 32) 1 = .error .subtractOverflow := rfl
  rw [Layout.selector, if_pos ⟨by omega, deep⟩, wraps] at isSlot
  cases isSlot

/-- A cache that holds nothing in a layout in which no block can be reached. -/
structure Vacant (cache : Cache) : Prop where
  tidy : cache.Tidy
  blank : cache.view.Blank
  barred : cache.layout.Barred
  /-- The tag of an address is there all the same. -/
  blockBits_lt : cache.layout.blockBits < 64
  topEntries : cache.config.topEntries = .ok cache.top.size

namespace Vacant

variable (vacant : cache.Vacant) {address : Address}
include vacant

theorem of_view {after : Cache} (tidy : after.Tidy) (frame : after.frame = cache.frame)
    (blank : after.view.Blank) : after.Vacant where
  tidy := tidy
  blank := blank
  barred := by
    have layout : after.layout = cache.layout := congrArg Frame.layout frame
    exact layout ▸ vacant.barred
  blockBits_lt := by
    have layout : after.layout = cache.layout := congrArg Frame.layout frame
    exact layout ▸ vacant.blockBits_lt
  topEntries := by
    have config : after.config = cache.config := congrArg Frame.config frame
    have size : after.top.size = cache.top.size := congrArg Frame.topSize frame
    rw [config, size, vacant.topEntries]

theorem tag_eq : cache.layout.tag address = .ok (cache.layout.blockOf address) :=
  Word.shiftRight_eq_ok_iff.mpr ⟨vacant.blockBits_lt, rfl⟩

theorem search_eq {walk : Walk} {after : Cache}
    (ran : cache.search address = .ok (walk, after)) : walk = .miss none ∧ after = cache := by
  obtain ⟨slot, _, ran⟩ := bind_eq_ok_iff.mp ran
  obtain ⟨entry, found, ran⟩ := bind_eq_ok_iff.mp ran
  have isEntry := TopIndex.get_eq_ok_iff.mp found
  have invalid : entry.valid = false := by
    have top := vacant.blank.top slot
    change cache.top.entries[slot]?.bind Link.leads? = none at top
    rw [isEntry, Option.bind_some, Link.leads?] at top
    simpa using top
  rw [invalid] at ran
  cases ran
  exact ⟨rfl, rfl⟩

theorem resolve_eq {found : Option Nat} {after : Cache}
    (ran : cache.resolve address = .ok (found, after)) :
    found = none ∧ ∃ stats, after = { cache with stats } := by
  cases resolved_of_resolve ran with
  | @direct _ walked tag _ searched _ leads =>
    obtain ⟨_, rfl⟩ := vacant.search_eq searched
    cases (vacant.blank.shortcut tag).symm.trans leads
  | walked searched => cases (vacant.search_eq searched).1
  | missed searched =>
    obtain ⟨_, rfl⟩ := vacant.search_eq searched
    exact ⟨rfl, _, rfl⟩

theorem access_eq {access : Access} {byte : Option UInt8} {after : Cache}
    (ran : cache.access address access = .ok (byte, after)) :
    byte = none ∧ ∃ stats, after = { cache with stats } := by
  obtain ⟨_, _, ran⟩ := bind_eq_ok_iff.mp ran
  obtain ⟨⟨found, resolved⟩, isFound, ran⟩ := bind_eq_ok_iff.mp ran
  have vacant' : (cache.record Stats.recordAccess).Vacant :=
    vacant.of_view (vacant.tidy.record _) rfl vacant.blank
  obtain ⟨rfl, stats, rfl⟩ := vacant'.resolve_eq isFound
  cases ran
  exact ⟨rfl, stats, rfl⟩

/-- An insertion needs a way down, and there is none. -/
theorem installPath_ne {content : Nat → Array UInt8 → Array UInt8}
    (result : List Nat × Cache) : cache.installPath address content ≠ .ok result := by
  intro ran
  obtain ⟨_, _, ran⟩ := bind_eq_ok_iff.mp ran
  obtain ⟨tag, _, ran⟩ := bind_eq_ok_iff.mp ran
  obtain ⟨⟨walk, walked⟩, searched, rest⟩ := bind_eq_ok_iff.mp ran
  rcases vacant.barred with noTop | deep
  · obtain ⟨slot, isSlot, _⟩ := bind_eq_ok_iff.mp searched
    exact noTop address slot isSlot
  · obtain ⟨rfl, rfl⟩ := vacant.search_eq searched
    obtain ⟨_, _, rest⟩ := bind_eq_ok_iff.mp rest
    obtain ⟨attachment, attached, rest⟩ := bind_eq_ok_iff.mp rest
    cases attached
    obtain ⟨pinned, _, rest⟩ := bind_eq_ok_iff.mp rest
    obtain ⟨⟨built, bottom⟩, path, _⟩ := bind_eq_ok_iff.mp rest
    have passes : 2 ^ 32 < 1 + (walked.layout.depth + 1 - 1) := by omega
    have below : 1 < 2 ^ 32 := by omega
    obtain ⟨slot, isSlot⟩ := selector_of_buildPath path (Nat.le_of_lt below) passes (.inl below)
    exact selector_ne deep slot isSlot

theorem fill_ne (block : Array UInt8) (result : Nat × Cache) :
    cache.fill address block ≠ .ok result := by
  intro ran
  obtain ⟨_, _, ran⟩ := bind_eq_ok_iff.mp ran
  obtain ⟨_, _, ran⟩ := bind_eq_ok_iff.mp ran
  obtain ⟨built, installed, _⟩ := bind_eq_ok_iff.mp ran
  exact vacant.installPath_ne built installed

theorem blank_of_published {chosen : Nat → Nat → Bool} {after : View}
    (published : cache.view.Published chosen after) : after.Blank := by
  have blank := vacant.blank
  obtain ⟨added, queue, added_iff⟩ := published.queue
  have nothing : added = [] := by
    refine List.eq_nil_iff_forall_not_mem.mpr fun writeback isAdded => ?_
    obtain ⟨index, copy, holds, _⟩ := (added_iff writeback).mp isAdded
    rw [blank.copies] at holds
    cases holds
  refine ⟨?_, ?_, fun index => ?_, ?_, ?_⟩
  · rw [published.same]
    exact blank.top
  · rw [published.same]
    exact blank.node
  · rw [published.copies, blank.copies]
    rfl
  · rw [published.same]
    exact blank.shortcut
  · rw [queue, blank.queue, nothing]
    rfl

theorem published {after : Cache} {chosen : Nat → Nat → Bool} (tidy : after.Tidy)
    (published : cache.view.Published chosen after.view) : after.Vacant :=
  vacant.of_view tidy published.frame (vacant.blank_of_published published)

theorem drained : cache.drainWritebacks.2.Vacant := by
  have tidy := vacant.tidy
  have blank := vacant.blank
  exact vacant.of_view ⟨tidy.hand_lt, tidy.shaped, tidy.bounded, tidy.recorded⟩ rfl
    ⟨blank.top, blank.node, blank.copies, blank.shortcut, rfl⟩

theorem setLocked {after : Cache} {index : Nat} {locked : Bool}
    (ran : cache.setLocked index locked = .ok after) : after.Vacant := by
  obtain ⟨tidy, _, view⟩ := (setLocked_spec vacant.tidy index locked).of_eq_ok ran
  have blank := vacant.blank
  refine vacant.of_view tidy (congrArg View.frame view) ?_
  rw [view]
  exact ⟨blank.top, blank.node, blank.copies, blank.shortcut, blank.queue⟩

theorem withStats (stats : Stats) : { cache with stats }.Vacant :=
  vacant.of_view ⟨vacant.tidy.hand_lt, vacant.tidy.shaped, vacant.tidy.bounded,
    vacant.tidy.recorded⟩ rfl vacant.blank

/-- A vacant cache stays vacant, and no byte is ever found in it. -/
theorem run {command : Command} {reply : Reply} {after : Cache}
    (ran : cache.run command = .ok (reply, after)) :
    after.Vacant ∧ after.frame = cache.frame ∧ ∀ value, reply ≠ .byte (some value) := by
  cases command with
  | access address access =>
    obtain ⟨⟨byte, _⟩, accessed, same'⟩ := bind_eq_ok_iff.mp ran
    cases same'
    obtain ⟨rfl, stats, rfl⟩ := vacant.access_eq accessed
    exact ⟨vacant.withStats stats, rfl, nofun⟩
  | read address =>
    obtain ⟨⟨byte, _⟩, accessed, same'⟩ := bind_eq_ok_iff.mp ran
    cases same'
    obtain ⟨rfl, stats, rfl⟩ := vacant.access_eq accessed
    exact ⟨vacant.withStats stats, rfl, nofun⟩
  | write address value =>
    obtain ⟨⟨cached, _⟩, written, same'⟩ := bind_eq_ok_iff.mp ran
    cases same'
    obtain ⟨byte, accessed, rfl⟩ := write_eq_ok written
    obtain ⟨_, stats, rfl⟩ := vacant.access_eq accessed
    exact ⟨vacant.withStats stats, rfl, nofun⟩
  | insert address value =>
    obtain ⟨_, inserted, _⟩ := bind_eq_ok_iff.mp ran
    obtain ⟨result, installed, _⟩ := bind_eq_ok_iff.mp inserted
    exact absurd installed (vacant.installPath_ne result)
  | fill address block =>
    obtain ⟨result, filled, _⟩ := bind_eq_ok_iff.mp ran
    exact absurd filled (vacant.fill_ne block result)
  | search address =>
    obtain ⟨⟨walk, _⟩, searched, same'⟩ := bind_eq_ok_iff.mp ran
    cases same'
    obtain ⟨rfl, rfl⟩ := vacant.search_eq searched
    exact ⟨vacant, rfl, nofun⟩
  | setLocked index locked =>
    obtain ⟨_, changed, same'⟩ := bind_eq_ok_iff.mp ran
    cases same'
    obtain ⟨_, _, view⟩ := (setLocked_spec vacant.tidy index locked).of_eq_ok changed
    exact ⟨vacant.setLocked changed, congrArg View.frame view, nofun⟩
  | drain =>
    cases ran
    exact ⟨vacant.drained, rfl, nofun⟩
  | flush =>
    cases ran
    obtain ⟨tidy, published⟩ := flushDirty_spec vacant.tidy
    exact ⟨vacant.published tidy published, published.frame, nofun⟩
  | retire address =>
    obtain ⟨result, retired, tidy, published⟩ := retireStale_spec vacant.tidy vacant.tag_eq
    obtain ⟨_, retired', same'⟩ := bind_eq_ok_iff.mp ran
    cases retired.symm.trans retired'
    cases same'
    exact ⟨vacant.published tidy published, published.frame, nofun⟩

end Vacant

/-- What a cache is from its making on: tidy and sound, or without anything for good. -/
inductive Ready (cache : Cache) : Prop
  | sound (tidy : cache.Tidy) (sound : cache.view.Sound)
  | vacant (vacant : cache.Vacant)

theorem ready_of_ofConfig (made : ofConfig config = .ok cache) : cache.Ready := by
  have tidy := tidy_of_ofConfig made
  have blank := blank_of_ofConfig made
  rcases founded_or_barred made with founded | barred
  · exact .sound tidy (blank.sound founded)
  · obtain ⟨capacity, spanBits, accepted, isLayout, isConfig, top, _⟩ := ofConfig_spec made
    refine .vacant ⟨tidy, blank, barred, ?_, ?_⟩
    · rw [(Layout.ofConfig_eq_ok_iff accepted).mp isLayout]
      have blockBits_lt := accepted.blockBits_lt
      exact Nat.lt_succ_of_lt blockBits_lt
    · rw [isConfig, accepted.topEntries_eq, TopIndex.size, top, Array.size_replicate]

namespace Ready

variable {after : Cache}

theorem frame_of_run (ready : cache.Ready) {command : Command} {reply : Reply}
    (ran : cache.run command = .ok (reply, after)) : after.frame = cache.frame := by
  cases ready with
  | sound tidy sound => exact (run_effect sound tidy ran).2.2.frame
  | vacant vacant => exact (vacant.run ran).2.1

theorem run (ready : cache.Ready) {command : Command} {reply : Reply}
    (ran : cache.run command = .ok (reply, after)) : after.Ready := by
  cases ready with
  | sound tidy sound =>
    obtain ⟨tidy', sound', _⟩ := run_effect sound tidy ran
    exact .sound tidy' sound'
  | vacant vacant => exact .vacant (vacant.run ran).1

theorem runAll (ready : cache.Ready) {commands : List Command} {replies : List Reply}
    (ran : cache.runAll commands = .ok (replies, after)) : after.Ready := by
  induction commands generalizing cache replies with
  | nil =>
    cases ran
    exact ready
  | cons command rest ih =>
    obtain ⟨⟨reply, middle⟩, first, ran⟩ := bind_eq_ok_iff.mp ran
    obtain ⟨⟨replies', _⟩, others, same⟩ := bind_eq_ok_iff.mp ran
    cases same
    exact ih (ready.run first) others

theorem frame_of_runAll (ready : cache.Ready) {commands : List Command} {replies : List Reply}
    (ran : cache.runAll commands = .ok (replies, after)) : after.frame = cache.frame := by
  induction commands generalizing cache replies with
  | nil =>
    cases ran
    rfl
  | cons command rest ih =>
    obtain ⟨⟨reply, middle⟩, first, ran⟩ := bind_eq_ok_iff.mp ran
    obtain ⟨⟨replies', _⟩, others, same⟩ := bind_eq_ok_iff.mp ran
    cases same
    exact (ih (ready.run first) others).trans (ready.frame_of_run first)

theorem tidy (ready : cache.Ready) : cache.Tidy := by
  cases ready with
  | sound tidy sound => exact tidy
  | vacant vacant => exact vacant.tidy

theorem linked (ready : cache.Ready) : cache.trie.Linked := by
  cases ready with
  | sound tidy sound => exact sound.linked
  | vacant vacant => exact vacant.blank.linked

end Ready

section Counts

/-- The word that counts the insertions into the fast path is full after so many operations. -/
def CountFull (operations : Nat) (fault : Fault) : Prop :=
  fault = .addOverflow ∧ 2 ^ 64 ≤ operations + 1

variable {after : Cache} {commands : List Command} {replies : List Reply}

theorem sound_of_runAll (sound : cache.view.Sound) (tidy : cache.Tidy)
    (ran : cache.runAll commands = .ok (replies, after)) :
    after.Tidy ∧ after.view.Sound ∧ after.view.frame = cache.view.frame ∧
      after.view.sequence ≤ cache.view.sequence + commands.length := by
  induction commands generalizing cache replies with
  | nil =>
    cases ran
    exact ⟨tidy, sound, rfl, Nat.le_refl _⟩
  | cons command rest ih =>
    obtain ⟨⟨reply, middle⟩, first, ran⟩ := bind_eq_ok_iff.mp ran
    obtain ⟨⟨replies', _⟩, others, same⟩ := bind_eq_ok_iff.mp ran
    cases same
    obtain ⟨tidy', sound', effect⟩ := run_effect sound tidy first
    obtain ⟨tidy'', sound'', frame, sequence_le⟩ := ih sound' tidy' others
    have first_le := effect.sequence_le
    refine ⟨tidy'', sound'', frame.trans effect.frame, ?_⟩
    rw [List.length_cons]
    omega

/-- A cache of a usable configuration stays sound, and its fast path counts on, unless there
were more operations than a word can count. -/
theorem counts_of_runAll (usable : config.Usable) (made : ofConfig config = .ok cache)
    (ran : cache.runAll commands = .ok (replies, after)) :
    after.Tidy ∧ after.view.Sound ∧
      ∀ fault, FastPathOverflow after.view fault → CountFull commands.length fault := by
  have founded := founded_of_ofConfig made usable.span usable.levels_lt
  obtain ⟨_, _, _, _, _, _, _, isFastPath, _⟩ := ofConfig_spec made
  obtain ⟨_, capacity, sequence, _⟩ := FastPath.recorded_of_ofCapacity isFastPath
  obtain ⟨tidy, sound, frame, sequence_le⟩ :=
    sound_of_runAll ((blank_of_ofConfig made).sound founded) (tidy_of_ofConfig made) ran
  have fresh : cache.view.sequence = 0 := sequence
  refine ⟨tidy, sound, ?_⟩
  rintro fault (⟨overflow, full⟩ | ⟨_, large⟩)
  · exact ⟨overflow, by omega⟩
  · have small := usable.fastPathSize_lt
    rw [frame] at large
    change 2 ^ 63 ≤ cache.fastPath.capacity at large
    omega

end Counts

end Cache

end TrieCache
