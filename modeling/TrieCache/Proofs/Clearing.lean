import TrieCache.Proofs.Fresh

/-!
# Evictions only clear links

A link becomes valid in one way only: a block is hung into its slot.  The sweep for a victim
leaves all links alone, and so does whatever an eviction does, unless it clears one.  A slot
that is free when a victim is chosen is therefore still free when the victim is evicted.

None of this needs the rest of the cache to be in order, so it also holds in the middle of
an insertion that will not get through.
-/

namespace TrieCache

namespace Pool

variable {maxAttempts : Nat} {pinned : List Nat} {pool after : Pool} {victim : Victim}

/-- A sweep that finds a victim has looked at a block to begin with. -/
theorem hand_lt_of_selectVictim (ran : pool.selectVictim maxAttempts pinned = .ok (victim, after)) :
    pool.hand < pool.capacity ∧ 0 < maxAttempts := by
  rw [selectVictim, sweep] at ran
  split at ran
  next attempts =>
    refine ⟨?_, attempts⟩
    by_contra beyond
    have missing : pool.blocks[pool.hand]? = none :=
      Array.getElem?_eq_none_iff.mpr (Nat.le_of_not_lt beyond)
    dsimp only at ran
    rw [missing] at ran
    split at ran <;> cases ran
  next => cases ran

theorem swept_of_selectVictim (ran : pool.selectVictim maxAttempts pinned = .ok (victim, after)) :
    pool.Swept after ∧ pool.Eligible pinned victim.index := by
  obtain ⟨hand_lt, attempts_pos⟩ := hand_lt_of_selectVictim ran
  exact (selectVictim_outcome hand_lt attempts_pos pinned).of_eq_ok ran

end Pool

namespace Block

theorem child?_of_dropChild {child slot target : Nat} {block : Block}
    (leads : (block.dropChild child).child? slot = some target) :
    block.child? slot = some target := by
  rcases dropChild_eq child block with ⟨here, _, _, dropped⟩ | ⟨_, same⟩
  · rw [dropped, child?_setLink] at leads
    split at leads
    · cases leads
    · exact leads
  · rwa [same] at leads

end Block

namespace Cache

variable {cache after : Cache} {index : Nat}

/-- Where a slot of the top index leads, or one of a block, built or not. -/
def leads (cache : Cache) : (owner : Option Nat) → (slot : Nat) → Option Nat
  | none, slot => cache.top.entries[slot]?.bind Link.leads?
  | some table, slot => cache.pool.look (fun block => block.child? slot) table

/-- No slot leads to where it did not lead before. -/
def Clears (before after : Cache) : Prop :=
  ∀ ⦃owner : Option Nat⦄ ⦃slot target : Nat⦄, after.leads owner slot = some target →
    before.leads owner slot = some target

namespace Clears

variable {before middle after : Cache}

theorem refl (cache : Cache) : cache.Clears cache :=
  fun _ _ _ leads => leads

theorem trans (first : before.Clears middle) (second : middle.Clears after) :
    before.Clears after :=
  fun _ _ _ leads => first (second leads)

theorem eq_none (clears : before.Clears after) {owner : Option Nat} {slot : Nat}
    (free : before.leads owner slot = none) : after.leads owner slot = none := by
  by_contra occupied
  obtain ⟨target, leads⟩ := Option.ne_none_iff_exists'.mp occupied
  rw [clears leads] at free
  cases free

end Clears

theorem clears_of_aged {pool : Pool} (aged : cache.pool.Aged pool) (stats : Stats) :
    cache.Clears { cache with pool, stats } := by
  intro owner slot target leads
  cases owner with
  | none => exact leads
  | some table =>
    have same : pool.look (fun block => block.child? slot) =
        cache.pool.look fun block => block.child? slot := aged.look fun _ => rfl
    exact (congrFun same table).symm.trans leads

theorem clears_of_updateBlock {change : Block → Block}
    (ran : cache.updateBlock index change = .ok after)
    (kept : ∀ {block : Block} {slot target : Nat}, (change block).child? slot = some target →
      block.child? slot = some target) : cache.Clears after := by
  unfold updateBlock at ran
  split at ran
  · cases ran
    intro owner slot target leads
    cases owner with
    | none => exact leads
    | some table =>
      obtain ⟨block, found, isChild⟩ := Pool.look_eq_some_iff.mp leads
      refine Pool.look_eq_some_iff.mpr ?_
      by_cases here : table = index
      · subst here
        rw [Pool.blocks_modify, if_pos rfl, Option.map_eq_some_iff] at found
        obtain ⟨older, found', rfl⟩ := found
        exact ⟨older, found', kept isChild⟩
      · rw [Pool.blocks_modify_of_ne here] at found
        exact ⟨block, found, isChild⟩
  · cases ran

theorem clears_of_unlink (ran : cache.unlink index = .ok after) : cache.Clears after := by
  obtain ⟨block, _, ran⟩ := bind_eq_ok_iff.mp ran
  split at ran
  · obtain ⟨entry, _, ran⟩ := bind_eq_ok_iff.mp ran
    split at ran
    · cases ran
      intro owner slot target leads
      cases owner with
      | some table => exact leads
      | none =>
        change (cache.top.set _ _).entries[slot]?.bind Link.leads? = some target at leads
        rw [TopIndex.entries_set] at leads
        split at leads
        · split at leads <;> cases leads
        · exact leads
    · cases ran
      exact .refl cache
  · exact clears_of_updateBlock ran Block.child?_of_dropChild

theorem clears_of_orphan {children : List Nat} (ran : cache.orphan children = .ok after) :
    cache.Clears after := by
  induction children generalizing cache with
  | nil =>
    cases ran
    exact .refl _
  | cons child rest ih =>
    obtain ⟨middle, changed, ran⟩ := bind_eq_ok_iff.mp ran
    exact (clears_of_updateBlock changed fun leads => leads).trans (ih ran)

theorem clears_of_retireData (ran : cache.retireData index = .ok after) : cache.Clears after := by
  obtain ⟨block, _, ran⟩ := bind_eq_ok_iff.mp ran
  obtain ⟨middle, changed, ran⟩ := bind_eq_ok_iff.mp ran
  have queued : cache.Clears
      (if block.dirty then cache.queueWriteback block.tag (block.bytes?.getD #[]) else cache) := by
    split <;> exact .refl cache
  have emptied : cache.Clears middle :=
    queued.trans (clears_of_updateBlock changed fun leads => leads)
  cases ran
  change cache.Clears (Cache.record (if middle.fastPath.lookup block.tag = some index then _
    else middle) _)
  split <;> exact emptied

theorem clears_of_retireTable (ran : cache.retireTable index = .ok after) :
    cache.Clears after := by
  obtain ⟨block, _, ran⟩ := bind_eq_ok_iff.mp ran
  obtain ⟨middle, orphaned, ran⟩ := bind_eq_ok_iff.mp ran
  cases ran
  have clears := clears_of_orphan orphaned
  exact clears

theorem clears_of_evict (ran : cache.evict index = .ok after) : cache.Clears after := by
  obtain ⟨block, _, ran⟩ := bind_eq_ok_iff.mp ran
  have retired : ∀ middle : Cache, cache.Clears middle →
      (if block.level = middle.layout.depth then middle.retireData index
        else middle.retireTable index) = .ok after → cache.Clears after := by
    intro middle clears ran
    split at ran
    · exact clears.trans (clears_of_retireData ran)
    · exact clears.trans (clears_of_retireTable ran)
  split at ran
  · dsimp only at ran
    split at ran
    · obtain ⟨middle, unlinked, ran⟩ := bind_eq_ok_iff.mp ran
      exact retired middle (clears_of_unlink unlinked) ran
    · exact retired cache (.refl cache) ran
  · cases ran
    exact .refl cache

end Cache

end TrieCache
