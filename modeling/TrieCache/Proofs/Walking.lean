import Mathlib.Data.List.Nodup
import TrieCache.Proofs.Consistency
import TrieCache.Proofs.Representation

/-!
# What a search does

A search goes as far along the valid links of an address as there are any, and answers with
the block it got to.  On its way it counts one reference for every block it steps into below
the first level, and changes nothing else, so the next search goes the same way.  This needs
a top index that the address has: a span as wide as the word leaves none to any address.
-/

namespace TrieCache

theorem Block.touch_of_le {ceiling : Nat} {block : Block} (bound : block.reference ≤ ceiling) :
    block.touch ceiling = { block with reference := min (block.reference + 1) ceiling } := by
  unfold Block.touch
  split
  next below => rw [Nat.min_eq_left below]
  next reached =>
    have full : min (block.reference + 1) ceiling = block.reference := by omega
    rw [full]

namespace View

theorem Walked.unique {view : View} {tag : Nat} {first second : Walk}
    (one : view.Walked tag first) (other : view.Walked tag second) : first = second := by
  cases first with
  | hit index =>
    cases second with
    | hit index' => cases Trie.Route.functional one other; rfl
    | miss anchor =>
      obtain ⟨_, level_lt, route, free⟩ := other
      exact absurd one (not_route_of_free level_lt route free index)
  | miss anchor =>
    obtain ⟨level, level_lt, route, free⟩ := one
    cases second with
    | hit index => exact absurd other (not_route_of_free level_lt route free index)
    | miss anchor' =>
      obtain ⟨level', level_lt', route', free'⟩ := other
      -- the walk that ends higher up ends above a free slot of the other one
      rcases Nat.lt_trichotomy level level' with higher | rfl | lower
      · exact absurd route' (route.not_of_free free (view.frame.layout.slots_suffix tag higher))
      · cases route.functional route'
        rfl
      · exact absurd route (route'.not_of_free free' (view.frame.layout.slots_suffix tag lower))

end View

namespace Cache

variable {cache after : Cache} {address : Address} {links deeper index other : Nat}

namespace Follows

theorem links_pos (follows : cache.Follows address links index) : 1 ≤ links := by
  cases follows with
  | top => exact le_rfl
  | step => exact Nat.le_add_left 1 _

/-- There is no selector to follow a link with below the last level. -/
theorem links_le (depth_pos : 1 ≤ cache.layout.depth)
    (follows : cache.Follows address links index) : links ≤ cache.layout.depth := by
  cases follows with
  | top => exact depth_pos
  | step _ isSelector _ _ =>
    by_contra below
    rw [Layout.selector, if_neg (fun within => below within.2)] at isSelector
    cases isSelector

/-- The blocks on the way are followed to as well. -/
theorem exists_of_le (follows : cache.Follows address links index) (higher_pos : 1 ≤ deeper)
    (le : deeper ≤ links) : ∃ above, cache.Follows address deeper above := by
  induction follows with
  | @top slot entry isSlot isEntry valid =>
    obtain rfl : deeper = 1 := by omega
    exact ⟨_, .top isSlot isEntry valid⟩
  | @step links index selector child block upper isSelector found isChild ih =>
    rcases Nat.eq_or_lt_of_le le with rfl | lt
    · exact ⟨_, .step upper isSelector found isChild⟩
    · exact ih (by omega)

section Sound

variable (sound : cache.view.Sound)
include sound

theorem exists_block (follows : cache.Follows address links index) :
    ∃ block, cache.pool.blocks[index]? = some block ∧ block.level = links := by
  obtain ⟨_, _, route⟩ := follows.route sound (follows.links_le sound.founded.regular.depth_pos)
  obtain ⟨node, isNode, _, level⟩ := sound.linked.node_of_route route
  obtain ⟨block, found, _, rfl⟩ := block_of_node isNode
  rw [Layout.length_slots] at level
  exact ⟨block, found, level⟩

theorem links_unique (follows : cache.Follows address links index)
    (follows' : cache.Follows address deeper index) : links = deeper := by
  obtain ⟨block, found, level⟩ := follows.exists_block sound
  obtain ⟨block', found', level'⟩ := follows'.exists_block sound
  cases found.symm.trans found'
  exact level.symm.trans level'

end Sound

end Follows

section Visits

theorem Follows.isNext (follows : cache.Follows address (links + 1) other)
    (links_pos : 1 ≤ links) :
    ∃ index, cache.Follows address links index ∧
      cache.next? address index (links + 1) = some other := by
  cases follows with
  | top => exact absurd links_pos (Nat.not_succ_le_zero 0)
  | step follows isSelector found isChild =>
    exact ⟨_, follows, by simp [next?, isSelector, found, isChild, Except.toOption]⟩

/-- A walk steps on to the next block as long as it has steps left. -/
theorem onward_of_next {level steps place child : Nat}
    (isPlace : (index :: cache.onward address index level steps)[place]? = some other)
    (isNext : cache.next? address other (level + place) = some child) (within : place < steps) :
    (index :: cache.onward address index level steps)[place + 1]? = some child := by
  induction steps generalizing index level place with
  | zero => exact absurd within (Nat.not_lt_zero place)
  | succ steps ih =>
    rw [List.getElem?_cons_succ, onward]
    cases place with
    | zero =>
      cases isPlace
      rw [Nat.add_zero] at isNext
      simp [isNext]
    | succ place =>
      rw [List.getElem?_cons_succ, onward] at isPlace
      cases steps_on : cache.next? address index level with
      | none => simp [steps_on] at isPlace
      | some first =>
        rw [steps_on] at isPlace
        rw [← Nat.add_assoc, Nat.add_right_comm] at isNext
        exact ih isPlace isNext (Nat.lt_of_succ_lt_succ within)

/-- Every block that is followed to is visited. -/
theorem Follows.visits (depth_pos : 1 ≤ cache.layout.depth)
    (follows : cache.Follows address (links + 1) index) :
    (cache.visits address)[links]? = some index := by
  induction links generalizing index with
  | zero =>
    cases follows with
    | top isSlot isEntry valid =>
      simp [Cache.visits, first?, isSlot, isEntry, Link.leads?, valid, Except.toOption]
    | step upper => exact absurd upper.links_pos (Nat.not_succ_le_zero 0)
  | succ links ih =>
    obtain ⟨above, upper, isNext⟩ := follows.isNext (Nat.le_add_left 1 links)
    have links_le := follows.links_le depth_pos
    have isPlace := ih upper
    rw [Cache.visits] at isPlace ⊢
    cases isFirst : cache.first? address with
    | none => simp [isFirst] at isPlace
    | some first =>
      rw [isFirst] at isPlace
      refine onward_of_next isPlace ?_ (by omega)
      rw [Nat.add_comm 2]
      exact isNext

theorem nodup_visits (sound : cache.view.Sound) (address : Address) :
    (cache.visits address).Nodup := by
  refine List.nodup_iff_getElem?_ne_getElem?.mpr ?_
  intro early late before inside same
  have isLate := List.getElem?_eq_getElem inside
  have same_links :=
    (follows_of_visits (same.trans isLate)).links_unique sound (follows_of_visits isLate)
  omega

theorem blocks_marked_of_notMem {passed : List Nat} (spared : index ∉ passed) :
    (cache.marked passed).pool.blocks[index]? = cache.pool.blocks[index]? := by
  induction passed generalizing cache with
  | nil => rfl
  | cons first passed ih =>
    obtain ⟨distinct, spared'⟩ := not_or.mp (List.mem_cons.not.mp spared)
    rw [marked, ih spared', Pool.blocks_modify_of_ne distinct]

theorem blocks_marked_of_mem {passed : List Nat} (nodup : passed.Nodup) (isPassed : index ∈ passed) :
    (cache.marked passed).pool.blocks[index]? =
      cache.pool.blocks[index]?.map (Block.touch cache.maxReference) := by
  induction passed generalizing cache with
  | nil => cases isPassed
  | cons first passed ih =>
    obtain ⟨once, nodup'⟩ := List.nodup_cons.mp nodup
    rw [marked]
    rcases List.mem_cons.mp isPassed with rfl | isPassed'
    · rw [blocks_marked_of_notMem once, Pool.blocks_modify, if_pos rfl]
    · have distinct : index ≠ first := fun same => once (same ▸ isPassed')
      rw [ih nodup' isPassed', Pool.blocks_modify_of_ne distinct]
      rfl

end Visits

/-- What a search answers and does, said in the links that can be followed. -/
structure Searches (cache : Cache) (address : Address) (walk : Walk) (after : Cache) : Prop where
  /-- Without a link in the top index there is nothing to follow. -/
  top : ∃ slot entry, cache.layout.topIndex address = .ok slot ∧
    cache.top.entries[slot]? = some entry ∧ (walk = .miss none ↔ entry.valid = false)
  /-- Otherwise the answer is the deepest block that is followed to. -/
  deepest : walk ≠ .miss none → ∃ links index, cache.Follows address links index ∧
    (∀ deeper other, cache.Follows address deeper other → deeper ≤ links) ∧
    walk = if links = cache.layout.depth then .hit index else .miss (some index)
  /-- A block is followed to at its own level, which is none below the last. -/
  level {links index : Nat} : cache.Follows address links index →
    1 ≤ links ∧ links ≤ cache.layout.depth ∧
      ∃ block, cache.pool.blocks[index]? = some block ∧ block.level = links
  distinct {links deeper index : Nat} : cache.Follows address links index →
    cache.Follows address deeper index → links = deeper
  passed {links index : Nat} : 2 ≤ links → cache.Follows address links index →
    after.pool.blocks[index]? = cache.pool.blocks[index]?.map fun block =>
      { block with reference := min (block.reference + 1) cache.maxReference }
  spared {index : Nat} : (∀ links, 2 ≤ links → ¬ cache.Follows address links index) →
    after.pool.blocks[index]? = cache.pool.blocks[index]?
  first {index : Nat} : cache.Follows address 1 index →
    after.pool.blocks[index]? = cache.pool.blocks[index]?
  rest : after = { cache with pool := { cache.pool with blocks := after.pool.blocks } }
  again : ∃ rewalked, after.search address = .ok (walk, rewalked)

section Outcomes

variable {slot : Nat} {entry : Link} {walk : Walk}

theorem not_follows_of_free (isSlot : cache.layout.topIndex address = .ok slot)
    (isEntry : cache.top.entries[slot]? = some entry) (free : entry.valid = false) :
    ¬ cache.Follows address links index := by
  intro follows
  obtain ⟨first, follows⟩ := follows.exists_of_le le_rfl follows.links_pos
  cases follows with
  | top isSlot' isEntry' valid =>
    cases isSlot.symm.trans isSlot'
    cases isEntry.symm.trans isEntry'
    exact absurd valid (by simp [free])
  | step upper => exact absurd upper.links_pos (Nat.not_succ_le_zero 0)

theorem searches_of_free (isSlot : cache.layout.topIndex address = .ok slot)
    (isEntry : cache.top.entries[slot]? = some entry) (free : entry.valid = false) :
    cache.search address = .ok (.miss none, cache) ∧
      cache.Searches address (.miss none) cache := by
  have searched : cache.search address = .ok (.miss none, cache) := by
    rw [search, isSlot, ok_bind, TopIndex.get_eq_ok_iff.mpr isEntry, ok_bind, if_neg (by simp [free])]
    rfl
  have nowhere : ∀ {links index}, ¬ cache.Follows address links index :=
    not_follows_of_free isSlot isEntry free
  exact ⟨searched, {
    top := ⟨slot, entry, isSlot, isEntry, iff_of_true rfl free⟩
    deepest := fun found => absurd rfl found
    level := fun follows => absurd follows nowhere
    distinct := fun follows => absurd follows nowhere
    passed := fun _ follows => absurd follows nowhere
    spared := fun _ => rfl
    first := fun _ => rfl
    rest := rfl
    again := ⟨cache, searched⟩ }⟩

/-- The end of a walk is the deepest block that is followed to. -/
theorem deepest_of_walked (sound : cache.view.Sound)
    (walked : cache.view.Walked (cache.layout.blockOf address) walk) (found : walk ≠ .miss none) :
    ∃ links index, cache.Follows address links index ∧
      (∀ deeper other, cache.Follows address deeper other → deeper ≤ links) ∧
      walk = if links = cache.layout.depth then .hit index else .miss (some index) := by
  have depth_pos : 1 ≤ cache.layout.depth := sound.founded.regular.depth_pos
  cases walk with
  | hit index =>
    have follows := follows_of_suffix sound le_rfl List.suffix_rfl walked
    rw [Layout.length_slots] at follows
    exact ⟨_, index, follows, fun _ _ reached => reached.links_le depth_pos, (if_pos rfl).symm⟩
  | miss anchor =>
    obtain ⟨level, level_lt, route, free⟩ := walked
    change level < cache.layout.depth at level_lt
    cases anchor with
    | none => exact absurd rfl found
    | some index =>
      have follows := follows_of_suffix sound (Nat.le_of_lt level_lt) List.suffix_rfl route
      rw [Layout.length_slots] at follows
      refine ⟨level, index, follows, fun deeper other reached => ?_,
        (if_neg (Nat.ne_of_lt level_lt)).symm⟩
      by_contra below
      obtain ⟨_, _, route'⟩ := reached.route sound (reached.links_le depth_pos)
      exact route.not_of_free free
        (cache.layout.slots_suffix (cache.layout.blockOf address) (Nat.lt_of_not_le below)) route'

theorem eq_of_hand {pool : Pool} (hand : pool.hand = cache.pool.hand) :
    { cache with pool } = { cache with pool := { cache.pool with blocks := pool.blocks } } := by
  obtain ⟨blocks, hand'⟩ := pool
  cases hand
  rfl

/-- A walk into the trie marks the blocks below the first level, and would go the same way
again. -/
theorem searches_of_valid (sound : cache.view.Sound) (tidy : cache.Tidy)
    (isSlot : cache.layout.topIndex address = .ok slot)
    (isEntry : cache.top.entries[slot]? = some entry) (valid : entry.valid = true) :
    ∃ walk after, cache.search address = .ok (walk, after) ∧ cache.Searches address walk after := by
  have first : cache.Follows address 1 entry.target := .top isSlot isEntry valid
  have depth_pos : 1 ≤ cache.layout.depth := sound.founded.regular.depth_pos
  obtain ⟨_, inside, _⟩ := first.route sound depth_pos
  obtain ⟨⟨walk, after⟩, searched, unmoved, walked⟩ :=
    (search_outcome sound tidy address).exists_ok fun _ outside => by simp [inside] at outside
  obtain ⟨⟨walk', rewalked⟩, again, _, walked'⟩ :=
    (search_outcome (unmoved.sound sound) unmoved.tidy address).exists_ok fun _ outside => by
      rw [unmoved.layout] at outside
      simp [inside] at outside
  rw [unmoved.view, unmoved.layout] at walked'
  obtain rfl := walked.unique walked'
  have nodup := nodup_visits sound address
  have marks := (visits_of_search searched).2
  obtain ⟨pool, _, hand, same⟩ := aged_of_search searched
  have spared {index : Nat} (unreached : ∀ links, 2 ≤ links → ¬ cache.Follows address links index) :
      after.pool.blocks[index]? = cache.pool.blocks[index]? := by
    rw [marks]
    refine blocks_marked_of_notMem fun isVisited => ?_
    obtain ⟨place, isPlace⟩ := List.mem_iff_getElem?.mp isVisited
    rw [List.getElem?_tail] at isPlace
    exact unreached _ (Nat.le_add_left 2 place) (follows_of_visits isPlace)
  refine ⟨walk, _, searched, {
    top := ⟨slot, entry, isSlot, isEntry, iff_of_false ?_ (by simp [valid])⟩
    deepest := deepest_of_walked sound walked
    level := fun follows =>
      ⟨follows.links_pos, follows.links_le depth_pos, follows.exists_block sound⟩
    distinct := fun follows => follows.links_unique sound
    passed := fun {links index} below follows => ?_
    spared := spared
    first := fun {index} follows => spared fun links below reached => ?_
    rest := by
      rw [same]
      exact eq_of_hand hand
    again := ⟨rewalked, again⟩ }⟩
  · rintro rfl
    obtain ⟨level, _, route, free⟩ := walked
    have length := congrArg List.length route.eq_nil
    rw [Layout.length_slots] at length
    cases length
    cases (sound.founded.regular.topIndex_eq address).symm.trans isSlot
    exact absurd valid (by simp [invalid_of_leads_eq_none isEntry free])
  · obtain ⟨deeper, rfl⟩ := Nat.exists_eq_add_of_le below
    rw [Nat.add_comm, ← Nat.add_assoc _ 1 1] at follows
    have isVisited : index ∈ (cache.visits address).tail := by
      refine List.mem_iff_getElem?.mpr ⟨deeper, ?_⟩
      rw [List.getElem?_tail]
      exact follows.visits depth_pos
    rw [marks, blocks_marked_of_mem nodup.tail isVisited]
    obtain ⟨block, found, _⟩ := follows.exists_block sound
    rw [found, Option.map_some, Option.map_some, Block.touch_of_le (tidy.bounded _ _ found)]
  · have same := follows.links_unique sound reached
    omega

end Outcomes

/-- Whatever operations a fresh cache carries out, a search follows the links of the address
as far as they lead and marks the blocks it passes, unless the span is as wide as the word:
then no address has a top index. -/
theorem searches_of_runAll {config : Config} {commands : List Command} {replies : List Reply}
    (made : ofConfig config = .ok cache) (ran : cache.runAll commands = .ok (replies, after))
    (inside : after.layout.contains address = true) :
    ∃ spanBits, config.spanBits = .ok spanBits ∧
      (spanBits < 64 → ∃ walk walked, after.search address = .ok (walk, walked) ∧
        after.Searches address walk walked) ∧
      (64 ≤ spanBits → after.search address = .error .shiftRightOverflow) := by
  obtain ⟨capacity, spanBits, accepted, isLayout, _, entries, _⟩ := ofConfig_spec made
  have ready := ready_of_ofConfig made
  have frame := ready.frame_of_runAll ran
  have layout : after.layout = cache.layout := congrArg Frame.layout frame
  have topSize : after.top.size = cache.top.size := congrArg Frame.topSize frame
  have width : cache.layout.spanBits = spanBits := by
    rw [(Layout.ofConfig_eq_ok_iff accepted).mp isLayout]
  refine ⟨spanBits, accepted.spanBits_eq, fun narrow => ?_, fun wide => ?_⟩
  · obtain ⟨slot, isSlot, slot_lt⟩ := (accepted.findsTop_iff isLayout (layout ▸ inside)).mpr narrow
    rw [← layout] at isSlot
    have slot_lt : slot < after.top.entries.size := by
      change slot < after.top.size
      rw [topSize, TopIndex.size, entries, Array.size_replicate]
      exact slot_lt
    have isEntry := Array.getElem?_eq_getElem slot_lt
    cases valid : after.top.entries[slot].valid with
    | false => exact ⟨_, _, searches_of_free isSlot isEntry valid⟩
    | true =>
      cases ready.runAll ran with
      | sound tidy sound => exact searches_of_valid sound tidy isSlot isEntry valid
      | vacant vacant => exact absurd (.top isSlot isEntry valid) vacant.not_follows
  · rw [search, Layout.topIndex, layout, width, Word.shiftRight, if_neg (by omega), error_bind]

/-- Three levels: the walk to the block of address 1 has one table to mark, and then its leaf
is gone. -/
theorem searches_after_eviction : ∃ cache after,
    ofConfig { Config.tiny with levels := 3 } = .ok cache ∧
      cache.runAll [.insert 0x01 1, .search 0x01, .setLocked 0 true, .setLocked 1 true,
        .insert 0x10 2, .insert 0x20 3] =
          .ok ([.index 2, .walk (.hit 2), .done, .done, .index 5, .index 2], after) ∧
      after.layout.contains 0x01 = true ∧
      ∃ spanBits, { Config.tiny with levels := 3 }.spanBits = .ok spanBits ∧
        (spanBits < 64 → ∃ walk walked, after.search 0x01 = .ok (walk, walked) ∧
          after.Searches 0x01 walk walked) ∧
        (64 ≤ spanBits → after.search 0x01 = .error .shiftRightOverflow) := by
  have answers : (do
      let cache ← ofConfig { Config.tiny with levels := 3 }
      let result ← cache.runAll [.insert 0x01 1, .search 0x01, .setLocked 0 true, .setLocked 1 true,
        .insert 0x10 2, .insert 0x20 3]
      return (result.1, result.2.layout.contains 0x01)) =
        .ok ([.index 2, .walk (.hit 2), .done, .done, .index 5, .index 2], true) := by
    decide +kernel
  obtain ⟨cache, made, answers⟩ := bind_eq_ok_iff.mp answers
  obtain ⟨⟨replies, after⟩, ran, answers⟩ := bind_eq_ok_iff.mp answers
  simp only [pure_eq_ok, Except.ok.injEq, Prod.mk.injEq] at answers
  obtain ⟨rfl, inside⟩ := answers
  exact ⟨cache, after, made, ran, inside, searches_of_runAll made ran inside⟩

/-- Over a span as wide as the word, the search for an address of the address space in an
empty cache ends with a fault where nothing is cached. -/
theorem not_searches_of_wholeSpan :
    (∃ cache, ofConfig .wholeSpan = .ok cache ∧ cache.layout.contains 0 = true ∧
      cache.top.entries = #[{}] ∧ cache.search 0 = .error .shiftRightOverflow) ∧
    ¬ ∀ (config : Config) (cache after : Cache) (commands : List Command) (replies : List Reply)
      (address : Address), ofConfig config = .ok cache →
        cache.runAll commands = .ok (replies, after) → after.layout.contains address = true →
          ∃ walk walked, after.search address = .ok (walk, walked) ∧
            after.Searches address walk walked := by
  have answers : (do
      let cache ← ofConfig .wholeSpan
      return (cache.layout.contains 0, cache.top.entries, cache.layout.topIndex 0)) =
        .ok (true, #[{}], .error .shiftRightOverflow) := by
    decide +kernel
  obtain ⟨cache, made, answers⟩ := bind_eq_ok_iff.mp answers
  simp only [pure_eq_ok, Except.ok.injEq, Prod.mk.injEq] at answers
  obtain ⟨inside, entries, noSlot⟩ := answers
  have fault : cache.search 0 = .error .shiftRightOverflow := by
    rw [search, noSlot, error_bind]
  refine ⟨⟨cache, made, inside, entries, fault⟩, fun all => ?_⟩
  obtain ⟨walk, walked, searched, -⟩ := all _ cache cache [] [] 0 made rfl inside
  rw [fault] at searched
  cases searched

end Cache

end TrieCache
