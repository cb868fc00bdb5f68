import TrieCache.Cache.Insert
import TrieCache.Proofs.Lookups

/-!
# Stages of an insertion

Emptying a block and building it anew are sequences of small changes: to one block, to the
top index, to the fast path, to the queue, and to the counts of what was lost.  A relation
between caches that each of them keeps to, and that composes, holds across the whole.
-/

namespace TrieCache.Cache

/-- A relation that the small changes of emptying and building keep to. -/
structure Stable (relation : Cache → Cache → Prop) : Prop where
  refl (cache : Cache) : relation cache cache
  trans {first middle last : Cache} : relation first middle → relation middle last →
    relation first last
  block (cache : Cache) (index : Nat) (change : Block → Block) :
    relation cache { cache with pool := cache.pool.modify index change }
  top (cache : Cache) (top : TopIndex) : relation cache { cache with top }
  shortcut (cache : Cache) (tag : Nat) :
    relation cache { cache with fastPath := (cache.fastPath.remove tag).2 }
  queued (cache : Cache) (tag : Nat) (bytes : Array UInt8) :
    relation cache (cache.queueWriteback tag bytes)
  orphans (cache : Cache) (count : Nat) :
    relation cache (cache.record (Stats.recordOrphans · count))
  leafEviction (cache : Cache) : relation cache (cache.record Stats.recordLeafEviction)

namespace Stable

variable {relation : Cache → Cache → Prop} {cache after : Cache} {index level : Nat}
  {address : Address} (stable : Stable relation)
include stable

theorem updateBlock {change : Block → Block}
    (ran : cache.updateBlock index change = .ok after) : relation cache after := by
  obtain ⟨_, rfl⟩ := updateBlock_eq_ok_iff.mp ran
  exact stable.block cache index change

theorem marked (cache : Cache) (passed : List Nat) : relation cache (cache.marked passed) := by
  induction passed generalizing cache with
  | nil => exact stable.refl cache
  | cons index passed ih => exact stable.trans (stable.block cache index _) (ih _)

theorem search {walk : Walk} (ran : cache.search address = .ok (walk, after)) :
    relation cache after := by
  rw [(visits_of_search ran).2]
  exact stable.marked cache _

theorem unlink (ran : cache.unlink index = .ok after) : relation cache after := by
  obtain ⟨block, _, ran⟩ := bind_eq_ok_iff.mp ran
  split at ran
  · obtain ⟨entry, _, ran⟩ := bind_eq_ok_iff.mp ran
    split at ran
    · cases ran
      exact stable.top cache _
    · cases ran
      exact stable.refl _
  · exact stable.updateBlock ran

theorem orphan {children : List Nat} (ran : cache.orphan children = .ok after) :
    relation cache after := by
  induction children generalizing cache with
  | nil =>
    cases ran
    exact stable.refl _
  | cons child rest ih =>
    obtain ⟨middle, changed, ran⟩ := bind_eq_ok_iff.mp ran
    exact stable.trans (stable.updateBlock changed) (ih ran)

theorem retireData (ran : cache.retireData index = .ok after) : relation cache after := by
  obtain ⟨block, _, ran⟩ := bind_eq_ok_iff.mp ran
  obtain ⟨middle, changed, ran⟩ := bind_eq_ok_iff.mp ran
  have queued : relation cache middle := by
    refine stable.trans ?_ (stable.updateBlock changed)
    split
    · exact stable.queued cache _ _
    · exact stable.refl _
  cases ran
  refine stable.trans queued (stable.trans ?_ (stable.leafEviction _))
  split
  · exact stable.shortcut middle _
  · exact stable.refl middle

theorem retireTable (ran : cache.retireTable index = .ok after) : relation cache after := by
  obtain ⟨block, _, ran⟩ := bind_eq_ok_iff.mp ran
  obtain ⟨middle, orphaned, ran⟩ := bind_eq_ok_iff.mp ran
  cases ran
  exact stable.trans (stable.orphan orphaned) (stable.orphans middle _)

theorem evict (ran : cache.evict index = .ok after) : relation cache after := by
  obtain ⟨block, _, ran⟩ := bind_eq_ok_iff.mp ran
  have retired : ∀ middle : Cache, relation cache middle →
      (if block.level = middle.layout.depth then middle.retireData index
        else middle.retireTable index) = .ok after → relation cache after := by
    intro middle kept ran
    split at ran
    · exact stable.trans kept (stable.retireData ran)
    · exact stable.trans kept (stable.retireTable ran)
  split at ran
  · dsimp only at ran
    split at ran
    · obtain ⟨middle, unlinked, ran⟩ := bind_eq_ok_iff.mp ran
      exact retired middle (stable.unlink unlinked) ran
    · exact retired cache (stable.refl cache) ran
  · cases ran
    exact stable.refl _

theorem hangFromTop {former : Link} (ran : cache.hangFromTop index address = .ok (former, after)) :
    relation cache after := by
  obtain ⟨slot, _, ran⟩ := bind_eq_ok_iff.mp ran
  obtain ⟨entry, _, ran⟩ := bind_eq_ok_iff.mp ran
  obtain ⟨middle, changed, ran⟩ := bind_eq_ok_iff.mp ran
  cases ran
  exact stable.trans (stable.top cache _) (stable.updateBlock changed)

theorem hangFromTable {parent : Nat} {former : Link}
    (ran : cache.hangFromTable index level address parent = .ok (former, after)) :
    relation cache after := by
  obtain ⟨slot, _, ran⟩ := bind_eq_ok_iff.mp ran
  obtain ⟨table, _, ran⟩ := bind_eq_ok_iff.mp ran
  split at ran
  · cases ran
  · obtain ⟨linked, changed, ran⟩ := bind_eq_ok_iff.mp ran
    obtain ⟨named, changed', ran⟩ := bind_eq_ok_iff.mp ran
    cases ran
    exact stable.trans (stable.updateBlock changed) (stable.updateBlock changed')

theorem build {parent : Option Nat} (ran : cache.build index level address parent = .ok after) :
    relation cache after := by
  obtain ⟨payload, _, ran⟩ := bind_eq_ok_iff.mp ran
  obtain ⟨rebuilt, changed, ran⟩ := bind_eq_ok_iff.mp ran
  have kept := stable.updateBlock changed
  have settled : ∀ (former : Link) (hung : Cache), relation cache hung →
      (if former.valid ∧ former.target ≠ index then do
        let cache ← hung.orphan [former.target]
        return cache.record (Stats.recordOrphans · 1)
      else return hung) = .ok after → relation cache after := by
    intro former hung same ran
    split at ran
    · obtain ⟨orphaned, detached, ran⟩ := bind_eq_ok_iff.mp ran
      cases ran
      exact stable.trans (stable.trans same (stable.orphan detached)) (stable.orphans orphaned 1)
    · cases ran
      exact same
  cases parent with
  | none =>
    obtain ⟨⟨former, hung⟩, hangs, ran⟩ := bind_eq_ok_iff.mp ran
    exact settled former hung (stable.trans kept (stable.hangFromTop hangs)) ran
  | some parent =>
    obtain ⟨⟨former, hung⟩, hangs, ran⟩ := bind_eq_ok_iff.mp ran
    exact settled former hung (stable.trans kept (stable.hangFromTable hangs)) ran

section Sweeping

variable (sweeps : ∀ (cache : Cache) (pool : Pool) (fallback : Bool),
  relation cache { cache with pool, stats := cache.stats.recordVictim fallback })
include sweeps

theorem buildLevel {parent : Option Nat} {pinned : List Nat} {built : Nat}
    (ran : cache.buildLevel address level parent pinned = .ok (built, after)) :
    relation cache after := by
  obtain ⟨⟨victim, pool⟩, _, ran⟩ := bind_eq_ok_iff.mp ran
  obtain ⟨evicted, emptied, ran⟩ := bind_eq_ok_iff.mp ran
  obtain ⟨hung, built', ran⟩ := bind_eq_ok_iff.mp ran
  cases ran
  exact stable.trans (stable.trans (sweeps cache pool victim.fallback) (stable.evict emptied))
    (stable.build built')

theorem buildPath {parent : Option Nat} {pinned : List Nat} {levels : Nat} {built : List Nat}
    (ran : cache.buildPath address level parent pinned levels = .ok (built, after)) :
    relation cache after := by
  induction levels generalizing cache level parent pinned built with
  | zero =>
    cases ran
    exact stable.refl _
  | succ levels ih =>
    obtain ⟨⟨first, middle⟩, builtLevel, ran⟩ := bind_eq_ok_iff.mp ran
    obtain ⟨⟨rest, bottom⟩, builtRest, ran⟩ := bind_eq_ok_iff.mp ran
    cases ran
    exact stable.trans (stable.buildLevel sweeps builtLevel) (ih builtRest)

end Sweeping

end Stable

end TrieCache.Cache
