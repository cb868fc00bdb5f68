import TrieCache.Proofs.Detachment
import TrieCache.Proofs.Stranded

/-!
# What an insertion disturbs

An insertion takes some slots of the pool and builds a path in them.  What becomes of another
block depends on these slots only.  A leaf that is found afterwards was found there before,
with the bytes it has.  A walk that meets none of the slots ends where it did.  The fast path
loses the entries that lead to one of them, and perhaps one more: the entry that had to make
room for the new one.
-/

namespace TrieCache

namespace FastPath

/-- A table lost its entries that lead to some slots, and the order of the others is as it was. -/
structure Thinned (before after : FastPath) (gone : List Nat) : Prop where
  capacity : after.capacity = before.capacity
  nextSequence : after.nextSequence = before.nextSequence
  order : after.order = before.order
  entries (tag : Nat) : after.entries[tag]? =
    before.entries[tag]?.filter fun shortcut => decide (shortcut.target ∉ gone)

theorem filter_entry_eq_self {table : FastPath} {tag : Nat} {gone : List Nat}
    (unlisted : ∀ target ∈ gone, table.lookup tag ≠ some target) :
    (table.entries[tag]?.filter fun shortcut => decide (shortcut.target ∉ gone)) =
      table.entries[tag]? := by
  cases found : table.entries[tag]? with
  | none => rfl
  | some shortcut =>
    rw [Option.filter_some, if_pos]
    refine decide_eq_true fun isGone => unlisted _ isGone ?_
    exact lookup_eq_some_iff.mpr ⟨shortcut, found, rfl⟩

namespace Thinned

variable {before middle after : FastPath} {gone later : List Nat}

theorem of_unlisted (unlisted : ∀ tag, ∀ target ∈ gone, before.lookup tag ≠ some target) :
    before.Thinned before gone where
  capacity := rfl
  nextSequence := rfl
  order := rfl
  entries tag := (filter_entry_eq_self (unlisted tag)).symm

theorem trans (first : before.Thinned middle gone) (second : middle.Thinned after later) :
    before.Thinned after (gone ++ later) where
  capacity := second.capacity.trans first.capacity
  nextSequence := second.nextSequence.trans first.nextSequence
  order := second.order.trans first.order
  entries tag := by
    rw [second.entries, first.entries, Option.filter_filter]
    congr 1
    funext shortcut
    simp [not_or]

theorem lookup (thinned : before.Thinned after gone) (tag : Nat) :
    after.lookup tag = (before.lookup tag).filter fun target => decide (target ∉ gone) := by
  rw [FastPath.lookup, FastPath.lookup, thinned.entries]
  cases before.entries[tag]? with
  | none => rfl
  | some shortcut =>
    simp only [Option.filter_some, Option.map_some]
    split <;> rfl

end Thinned

/-- Forgetting the only tag that leads to a slot takes out what leads there. -/
theorem thinned_forget {table : FastPath} {tag index : Nat}
    (single : ∀ other, table.lookup other = some index → other = tag) :
    table.Thinned (table.forget tag index) [index] := by
  unfold forget
  split
  next leads =>
    obtain ⟨shortcut, found, target⟩ := lookup_eq_some_iff.mp leads
    unfold remove
    rw [found]
    refine ⟨rfl, rfl, rfl, fun other => ?_⟩
    rw [Std.TreeMap.getElem?_erase]
    by_cases same : other = tag
    · rw [same, if_pos Std.ReflCmp.compare_self, found, Option.filter_some, if_neg]
      simp [target]
    · have differs : ¬ compare tag other = .eq := by
        simpa using Ne.symm same
      rw [if_neg differs]
      refine (filter_entry_eq_self fun place isGone leads' => same (single other ?_)).symm
      exact List.mem_singleton.mp isGone ▸ leads'
  next unlisted =>
    refine .of_unlisted fun other target isGone leads => ?_
    cases List.mem_singleton.mp isGone
    exact unlisted (single other leads ▸ leads)

end FastPath

namespace Cache

variable {cache before after : Cache} {address : Address} {index level : Nat}
  {parent : Option Nat} {pinned built : List Nat}

section Thinning

theorem thinned_of_evict (sound : cache.view.Sound) (tidy : cache.Tidy)
    (ran : cache.evict index = .ok after) : cache.fastPath.Thinned after.fastPath [index] := by
  obtain ⟨block, isBlock, _⟩ := bind_eq_ok_iff.mp ran
  have found := Pool.get_eq_ok_iff.mp isBlock
  -- what leads to the slot is the tag of the leaf there
  have leaf : ∀ tag, cache.fastPath.lookup tag = some index →
      block.valid = true ∧ block.level = cache.layout.depth ∧ tag = block.tag := by
    intro tag leads
    have shortcut : cache.view.shortcut tag = some index := leads
    obtain ⟨node, isNode, isLevel, isTag⟩ := sound.tagged shortcut
    obtain ⟨_, found', valid, rfl⟩ := block_of_node isNode
    cases found.symm.trans found'
    exact ⟨valid, isLevel, isTag.symm⟩
  have unlisted (other : ¬ (block.valid = true ∧ block.level = cache.layout.depth)) :
      cache.fastPath.Thinned cache.fastPath [index] := by
    refine .of_unlisted fun tag target isGone leads => other ?_
    cases List.mem_singleton.mp isGone
    exact ⟨(leaf tag leads).1, (leaf tag leads).2.1⟩
  by_cases valid : block.valid = true
  · obtain ⟨_, ran', detaches⟩ := detaches_of_evict sound tidy found valid
    cases ran.symm.trans ran'
    rw [detaches.fastPath]
    split
    next => exact FastPath.thinned_forget fun tag leads => (leaf tag leads).2.2
    next isTable => exact unlisted fun isLeaf => isTable isLeaf.2
  · have same : after = cache := by
      refine eq_of_evict (fun stands => ?_) ran
      cases (Pool.statuses_of_block found).symm.trans stands
      exact Bool.eq_false_iff.mpr valid
    rw [same]
    exact unlisted fun isLeaf => valid isLeaf.1

theorem fastPath_of_updateBlock {change : Block → Block}
    (ran : cache.updateBlock index change = .ok after) : after.fastPath = cache.fastPath := by
  obtain ⟨_, rfl⟩ := updateBlock_eq_ok_iff.mp ran
  rfl

theorem fastPath_of_hangFromTop {former : Link}
    (ran : cache.hangFromTop index address = .ok (former, after)) :
    after.fastPath = cache.fastPath := by
  obtain ⟨slot, _, ran⟩ := bind_eq_ok_iff.mp ran
  obtain ⟨entry, _, ran⟩ := bind_eq_ok_iff.mp ran
  obtain ⟨named, changed, same⟩ := bind_eq_ok_iff.mp ran
  cases same
  obtain ⟨_, rfl⟩ := updateBlock_eq_ok_iff.mp changed
  rfl

theorem fastPath_of_hangFromTable {former : Link} {table : Nat}
    (ran : cache.hangFromTable index level address table = .ok (former, after)) :
    after.fastPath = cache.fastPath := by
  obtain ⟨slot, _, ran⟩ := bind_eq_ok_iff.mp ran
  obtain ⟨block, _, ran⟩ := bind_eq_ok_iff.mp ran
  split at ran
  · cases ran
  · obtain ⟨linked, changed, ran⟩ := bind_eq_ok_iff.mp ran
    obtain ⟨named, changed', same⟩ := bind_eq_ok_iff.mp ran
    cases same
    exact (fastPath_of_updateBlock changed').trans (fastPath_of_updateBlock changed)

theorem fastPath_of_build (ran : cache.build index level address parent = .ok after) :
    after.fastPath = cache.fastPath := by
  obtain ⟨payload, _, ran⟩ := bind_eq_ok_iff.mp ran
  obtain ⟨rebuilt, changed, ran⟩ := bind_eq_ok_iff.mp ran
  have settled : ∀ (former : Link) (hung : Cache), hung.fastPath = rebuilt.fastPath →
      (if former.valid ∧ former.target ≠ index then do
        let cache ← hung.orphan [former.target]
        return cache.record (Stats.recordOrphans · 1)
      else return hung) = .ok after → after.fastPath = cache.fastPath := by
    intro former hung same ran
    refine Eq.trans ?_ (same.trans (fastPath_of_updateBlock changed))
    split at ran
    · obtain ⟨orphaned, detached, same⟩ := bind_eq_ok_iff.mp ran
      obtain ⟨alone, changed', rest⟩ := bind_eq_ok_iff.mp detached
      cases rest
      cases same
      have kept := fastPath_of_updateBlock changed'
      exact kept
    · cases ran
      rfl
  cases parent with
  | none =>
    obtain ⟨⟨former, hung⟩, hangs, ran⟩ := bind_eq_ok_iff.mp ran
    exact settled former hung (fastPath_of_hangFromTop hangs) ran
  | some parent =>
    obtain ⟨⟨former, hung⟩, hangs, ran⟩ := bind_eq_ok_iff.mp ran
    exact settled former hung (fastPath_of_hangFromTable hangs) ran

theorem thinned_of_buildLevel (sound : cache.view.Sound) (tidy : cache.Tidy)
    (ran : cache.buildLevel address level parent pinned = .ok (index, after)) :
    cache.fastPath.Thinned after.fastPath [index] := by
  obtain ⟨⟨victim, pool⟩, selected, ran⟩ := bind_eq_ok_iff.mp ran
  obtain ⟨evicted, emptied, ran⟩ := bind_eq_ok_iff.mp ran
  obtain ⟨hung, ranBuild, same⟩ := bind_eq_ok_iff.mp ran
  cases same
  obtain ⟨swept, _⟩ := Pool.swept_of_selectVictim selected
  rw [fastPath_of_build ranBuild]
  have sound' : (Cache.view { cache with
      pool, stats := cache.stats.recordVictim victim.fallback }).Sound :=
    (view_of_aged swept.aged _).symm ▸ sound
  have thinned := thinned_of_evict sound' (tidy.of_swept swept _) emptied
  exact thinned

theorem thinned_of_buildPath (sound : cache.view.Sound) (tidy : cache.Tidy)
    (inRange : cache.layout.contains address = true) {levels : Nat}
    (depth_eq : level + levels = cache.layout.depth)
    (anchored : cache.view.Anchored (cache.layout.blockOf address) level parent pinned)
    (ran : cache.buildPath address (level + 1) parent pinned levels = .ok (built, after)) :
    cache.fastPath.Thinned after.fastPath built := by
  induction levels generalizing cache level parent pinned built with
  | zero =>
    cases ran
    exact .of_unlisted nofun
  | succ levels ih =>
    obtain ⟨⟨victim, middle⟩, first, ran⟩ := bind_eq_ok_iff.mp ran
    obtain ⟨⟨rest, _⟩, others, same⟩ := bind_eq_ok_iff.mp ran
    cases same
    refine (thinned_of_buildLevel sound tidy first).trans ?_
    cases levels with
    | zero =>
      cases others
      exact .of_unlisted nofun
    | succ levels =>
      obtain ⟨tidy', sound', shed, anchored'⟩ :=
        (buildTable_outcome sound tidy inRange (by omega) anchored).of_eq_ok first
      have layout : middle.layout = cache.layout := congrArg Frame.layout shed.frame
      rw [← layout] at inRange anchored' depth_eq
      exact ih sound' tidy' inRange (by omega) anchored' others

end Thinning

/-- What an insertion left of the other blocks, when it took these slots. -/
structure Undisturbed (before : Cache) (address : Address) (victims : List Nat) (leaf : Nat)
    (after : Cache) : Prop where
  /-- A block that is found was found in the same slot, and it is what it was. -/
  found {tag index : Nat} : before.layout.tag address ≠ .ok tag → after.Locates tag index →
    before.Locates tag index ∧ ∃ was is, before.Carries tag index was ∧
      after.Carries tag index is ∧ is.payload = was.payload ∧ is.dirty = was.dirty
  /-- A walk stays as long as no slot that it meets is taken. -/
  walks {other : Address} {index : Nat} {walked : Cache} :
    before.search other = .ok (.hit index, walked) →
      (∀ links slot, before.Follows other links slot → slot ∉ victims) →
        ∃ walked', after.search other = .ok (.hit index, walked')
  /-- The entries that lead to a slot that is taken go, and one more at most, which makes room
  in a full table. -/
  shortcuts : ∃ tag kept dropped, before.layout.tag address = .ok tag ∧
    before.fastPath.Thinned kept victims ∧ kept.insert tag leaf = .ok (dropped, after.fastPath) ∧
      (dropped.isSome = true → kept.size = kept.capacity) ∧
        ∀ other, other ≠ tag → after.fastPath.lookup other =
          if dropped = some other then none
          else (before.fastPath.lookup other).filter fun target => decide (target ∉ victims)

section Inserting

/-- What an insertion makes of the trie and of the fast path. -/
structure Passed (before : Cache) (tag : Nat) (built : List Nat) (leaf : Nat) (after : Cache) :
    Prop where
  route {slots : List Nat} {owner : Option Nat} : before.trie.Route slots owner →
    (∀ {above : List Nat} {index : Nat}, above <:+ slots →
      before.trie.Route above (some index) → index ∉ built) → after.trie.Route slots owner
  fastPath : ∃ kept dropped, before.fastPath.Thinned kept built ∧ kept.Recorded ∧
    kept.insert tag leaf = .ok (dropped, after.fastPath)

theorem passed_of_installPath (sound : before.view.Sound) (tidy : before.Tidy)
    {content : Nat → Array UInt8 → Array UInt8}
    (ran : before.installPath address content = .ok (built, after)) :
    before.Passed (before.layout.blockOf address) built (built.getLast?.getD 0) after := by
  cases staged_of_installPath sound tidy ran with
  | @mk anchor level levels leaf pinned built walked hung labelled indexed passed searched unmoved
      checked attached pins depth_eq anchored path isLast changed installed =>
    have inRange := require_eq_ok_iff.mp passed
    have layout : walked.layout = before.layout := unmoved.layout
    have sound' := unmoved.sound sound
    have trie : walked.trie = before.trie := congrArg View.trie unmoved.view
    have tidy_hung := ((buildPath_outcome sound' unmoved.tidy (layout ▸ inRange)
      (layout ▸ depth_eq) (layout.symm ▸ anchored)).of_eq_ok path).1
    rw [← layout] at inRange depth_eq anchored
    obtain ⟨raised, _⟩ :=
      raised_of_buildPath sound' unmoved.tidy inRange (by omega) anchored path
    have thinned := thinned_of_buildPath sound' unmoved.tidy inRange (by omega) anchored path
    have relabelled := relabelled_of_updateBlock changed
    refine ⟨fun {slots owner} route spared => ?_, ?_⟩
    · rw [← trie] at route
      have stays := raised.route_of_spared route fun {above index} suffix reached =>
        spared suffix (trie ▸ reached)
      have filed : indexed.trie = labelled.trie := trie_of_installFastPath installed
      change indexed.trie.Route slots owner
      rw [filed]
      exact relabelled.route stays
    · obtain ⟨dropped, fastPath, inserted, rfl⟩ := filed_of_installFastPath installed
      obtain ⟨pool, _, _, rfl⟩ := aged_of_search searched
      rw [relabelled.fastPath] at inserted
      rw [isLast, Option.getD_some]
      exact ⟨hung.fastPath, dropped, thinned, tidy_hung.recorded, inserted⟩

theorem Passed.shortcuts {leaf tag : Nat} (passed : before.Passed tag built leaf after)
    (isTag : before.layout.tag address = .ok tag) (absent : before.fastPath.lookup tag = none) :
    ∃ tag kept dropped, before.layout.tag address = .ok tag ∧
      before.fastPath.Thinned kept built ∧ kept.insert tag leaf = .ok (dropped, after.fastPath) ∧
        (dropped.isSome = true → kept.size = kept.capacity) ∧
          ∀ other, other ≠ tag → after.fastPath.lookup other =
            if dropped = some other then none
            else (before.fastPath.lookup other).filter fun target => decide (target ∉ built) := by
  obtain ⟨kept, dropped, thinned, recorded, inserted⟩ := passed.fastPath
  obtain ⟨_, _, _, _, elsewhere⟩ :=
    (FastPath.insert_outcome recorded tag leaf).of_eq_ok inserted
  refine ⟨tag, kept, dropped, isTag, thinned, inserted, fun overflows => ?_, fun other distinct => ?_⟩
  · have missing : kept.lookup tag = none := by
      rw [thinned.lookup, absent]
      rfl
    have full : ¬ kept.size < kept.capacity := fun room => by
      rw [FastPath.evicted_eq_none missing room inserted] at overflows
      cases overflows
    exact Nat.le_antisymm recorded.size_le (Nat.le_of_not_lt full)
  · rw [elsewhere other distinct, thinned.lookup]

/-- A block other than the inserted one that is found was found before, with the same bytes. -/
theorem found_of_inserted (sound : before.view.Sound) (tidy : before.Tidy)
    (inSpace : before.view.InSpace) (sound' : after.view.Sound) (tidy' : after.Tidy)
    {tag leaf : Nat} {bytes : Array UInt8} (inserted : before.view.Inserted tag bytes leaf after.view)
    {other : Nat} (differs : other ≠ tag) (locates : after.Locates other index) :
    before.Locates other index ∧ ∃ was is, before.Carries other index was ∧
      after.Carries other index is ∧ is.payload = was.payload ∧ is.dirty = was.dirty := by
  have resolves := locates.resolves sound' tidy'
  obtain ⟨copy, holds, rfl⟩ := copy_of_resolves sound' resolves
  rcases inserted.resolves resolves with ⟨isNew, _⟩ | ⟨_, resolves'⟩
  · exact absurd isNew differs
  · have beside : index ≠ leaf := by
      rintro rfl
      cases holds.symm.trans inserted.held
      exact differs rfl
    obtain ⟨was, carried, dirty, payload⟩ := carries_of_copy tidy (inserted.copies beside holds)
    obtain ⟨is, carries, dirty', payload'⟩ := carries_of_copy tidy' holds
    exact ⟨locates_of_resolves sound tidy inSpace resolves', was, is, carried, carries,
      payload'.trans payload.symm, dirty'.trans dirty.symm⟩

/-- A walk on which no slot is taken ends where it did. -/
theorem Passed.walks {tag leaf : Nat} (passed : before.Passed tag built leaf after)
    (sound : before.view.Sound) (tidy : before.Tidy) (sound' : after.view.Sound)
    (tidy' : after.Tidy) (layout : after.layout = before.layout) {other : Address}
    {walked : Cache} (hit : before.search other = .ok (.hit index, walked))
    (spared : ∀ links slot, before.Follows other links slot → slot ∉ built) :
    ∃ walked', after.search other = .ok (.hit index, walked') := by
  obtain ⟨_, route⟩ := (search_outcome sound tidy other).of_eq_ok hit
  have follows {above : List Nat} {slot : Nat} (suffix : above <:+
      before.layout.slots (before.layout.blockOf other) before.layout.depth)
      (reached : before.trie.Route above (some slot)) : before.Follows other above.length slot :=
    follows_of_suffix sound le_rfl suffix reached
  have inRange := ((follows List.suffix_rfl route).route sound (by simp)).2.1
  have stays := passed.route route fun suffix reached => spared _ _ (follows suffix reached)
  refine search_of_path sound' tidy' (layout ▸ inRange) ?_
  change after.trie.Route (after.layout.slots _ after.layout.depth) _
  rw [layout]
  exact stays

theorem undisturbed_of_installPath (sound : before.view.Sound) (tidy : before.Tidy)
    (inSpace : before.view.InSpace) {content : Nat → Array UInt8 → Array UInt8}
    {bytes : Array UInt8}
    (bytes_eq : content (before.layout.placeOf address)
      (Array.replicate before.layout.blockBytes 0) = bytes)
    (whole : bytes.size = before.layout.blockBytes)
    (ran : before.installPath address content = .ok (built, after)) :
    before.Undisturbed address built (built.getLast?.getD 0) after := by
  have isTag := sound.founded.regular.tag_eq address
  obtain ⟨leaf, isLast, tidy', sound', inserted⟩ :=
    (installPath_outcome sound tidy bytes_eq whole).of_eq_ok ran
  have layout : after.layout = before.layout := congrArg Frame.layout inserted.frame
  have passed := passed_of_installPath sound tidy ran
  exact {
    found := fun {tag index} other locates =>
      have differs : tag ≠ before.layout.blockOf address := fun same => other (same ▸ isTag)
      found_of_inserted sound tidy inSpace sound' tidy' inserted differs locates
    walks := passed.walks sound tidy sound' tidy' layout
    shortcuts := passed.shortcuts isTag (View.shortcut_eq_none inserted.unresolved) }

end Inserting

/-- Whatever operations a fresh cache carried out, an insertion leaves the other blocks alone
but for those that its victims held, that hang below them, or that the fast path drops. -/
theorem undisturbed_of_runAll {config : Config} {commands : List Command} {replies : List Reply}
    (made : ofConfig config = .ok cache) (ran : cache.runAll commands = .ok (replies, before))
    (address : Address) :
    (∀ value leaf after, before.insert address value = .ok (leaf, after) →
      before.Undisturbed address (before.taken (.insert address value)) leaf after) ∧
    ∀ block leaf after, before.fill address block = .ok (leaf, after) →
      before.Undisturbed address (before.taken (.fill address block)) leaf after := by
  have ready := ready_of_ofConfig made
  cases ready.runAll ran with
  | sound tidy sound =>
    have inSpace := ready.inSpace_of_runAll (blank_of_ofConfig made).inSpace ran
    have regular : before.layout.Regular := sound.founded.regular
    refine ⟨fun value leaf after inserted => ?_, fun block leaf after filled => ?_⟩
    · obtain ⟨⟨built, _⟩, installed, same⟩ := bind_eq_ok_iff.mp inserted
      cases same
      rw [taken, installed]
      refine undisturbed_of_installPath sound tidy inSpace rfl ?_ installed
      rw [Array.size_setIfInBounds, Array.size_replicate]
    · rw [fill, regular.blockSize_eq, ok_bind] at filled
      obtain ⟨_, whole, inserted⟩ := bind_eq_ok_iff.mp filled
      obtain ⟨⟨built, _⟩, installed, same⟩ := bind_eq_ok_iff.mp inserted
      cases same
      rw [taken, installed]
      exact undisturbed_of_installPath sound tidy inSpace rfl
        (of_decide_eq_true (require_eq_ok_iff.mp whole)) installed
  | vacant vacant =>
    refine ⟨fun value leaf after inserted => ?_, fun block leaf after filled => ?_⟩
    · obtain ⟨built, installed, _⟩ := bind_eq_ok_iff.mp inserted
      exact absurd installed (vacant.installPath_ne _)
    · exact absurd filled (vacant.fill_ne _ _)

/-- Four blocks fill the pool, and a fast path of three entries is full as well.  The fifth
block takes the path of the first.  The second loses its entry on the fast path, and its walk
ends where it did. -/
theorem undisturbed_by_fifth : ∃ cache before after replies walked,
    ofConfig { Config.tiny with fastPathSize := 3 } = .ok cache ∧
      cache.runAll [.insert 0x01 1, .insert 0x08 3, .insert 0x10 4, .insert 0x18 5] =
        .ok (replies, before) ∧
      before.fastPath.lookup 2 = some 3 ∧ before.taken (.insert 0x20 6) = [0, 1] ∧
      before.insert 0x20 6 = .ok (1, after) ∧ after.fastPath.lookup 2 = none ∧
      after.search 0x08 = .ok (.hit 3, walked) ∧ before.Undisturbed 0x20 [0, 1] 1 after := by
  have answers : (do
      let cache ← ofConfig { Config.tiny with fastPathSize := 3 }
      let result ← cache.runAll [.insert 0x01 1, .insert 0x08 3, .insert 0x10 4, .insert 0x18 5]
      let inserted ← result.2.insert 0x20 6
      let walked ← inserted.2.search 0x08
      return (result.2.fastPath.lookup 2, result.2.taken (.insert 0x20 6), inserted.1,
        inserted.2.fastPath.lookup 2, walked.1)) =
          .ok (some 3, [0, 1], 1, none, .hit 3) := by decide +kernel
  obtain ⟨cache, made, answers⟩ := bind_eq_ok_iff.mp answers
  obtain ⟨⟨replies, before⟩, ran, answers⟩ := bind_eq_ok_iff.mp answers
  obtain ⟨⟨leaf, after⟩, inserted, answers⟩ := bind_eq_ok_iff.mp answers
  obtain ⟨⟨walk, walked⟩, searched, answers⟩ := bind_eq_ok_iff.mp answers
  simp only [pure_eq_ok, Except.ok.injEq, Prod.mk.injEq] at answers
  obtain ⟨listed, taken, rfl, dropped, rfl⟩ := answers
  have undisturbed := (undisturbed_of_runAll made ran 0x20).1 6 1 after inserted
  rw [taken] at undisturbed
  exact ⟨cache, before, after, replies, walked, made, ran, listed, taken, inserted, dropped,
    searched, undisturbed⟩

end Cache

end TrieCache
