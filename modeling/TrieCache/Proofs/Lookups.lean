import TrieCache.Cache.Access
import TrieCache.Proofs.Views

/-!
# What look-ups and cleanings do

A search goes from block to block along the links of an address and counts a reference to every
block it visits but the first.  A look-up is a search and one of three endings.  Publishing what
changed is a sequence of cleanings.  All of it is said here once, for any cache whatsoever: what
an operation leaves alone follows from what it does.
-/

namespace TrieCache

theorem Link.leads?_eq_some_iff {link : Link} {index : Nat} :
    link.leads? = some index ↔ link.valid = true ∧ link.target = index := by
  simp [leads?]

namespace Block

theorem touch_eq (ceiling : Nat) (block : Block) :
    block.touch ceiling =
      { block with
        reference := if block.reference < ceiling then block.reference + 1 else block.reference } := by
  unfold touch
  split <;> rfl

end Block

namespace Pool

theorem aged_touch (pool : Pool) (index ceiling : Nat) :
    pool.Aged (pool.modify index (Block.touch ceiling)) := by
  rw [funext (Block.touch_eq ceiling)]
  exact Aged.modify pool index _

end Pool

namespace Cache

section Walks

/-- The block that a walk steps into from another, if there is one to step into. -/
def next? (cache : Cache) (address : Address) (index level : Nat) : Option Nat := do
  let selector ← (cache.layout.selector address level).toOption
  let block ← cache.pool.blocks[index]?
  block.child? selector

/-- The blocks that a walk visits below one of them, in turn. -/
def onward (cache : Cache) (address : Address) (index level : Nat) : (steps : Nat) → List Nat
  | 0 => []
  | steps + 1 =>
    match cache.next? address index level with
    | some child => child :: cache.onward address child (level + 1) steps
    | none => []

/-- The block that a walk starts from, if the top index leads to one. -/
def first? (cache : Cache) (address : Address) : Option Nat := do
  let slot ← (cache.layout.topIndex address).toOption
  let entry ← cache.top.entries[slot]?
  entry.leads?

/-- The blocks that the walk to an address visits, in turn. -/
def visits (cache : Cache) (address : Address) : List Nat :=
  match cache.first? address with
  | some index => index :: cache.onward address index 2 (cache.layout.depth - 1)
  | none => []

/-- A cache after some of its blocks counted one more reference, one after the other. -/
def marked (cache : Cache) : (passed : List Nat) → Cache
  | [] => cache
  | index :: passed =>
    { cache with pool := cache.pool.modify index (Block.touch cache.maxReference) }.marked passed

variable {cache after : Cache} {address : Address} {index level steps : Nat} {walk : Walk}

theorem aged_marked (cache : Cache) (passed : List Nat) :
    ∃ pool, cache.pool.Aged pool ∧ pool.hand = cache.pool.hand ∧
      cache.marked passed = { cache with pool } := by
  induction passed generalizing cache with
  | nil => exact ⟨cache.pool, .refl _, rfl, rfl⟩
  | cons index passed ih =>
    obtain ⟨pool, aged, hand, same⟩ :=
      ih { cache with pool := cache.pool.modify index (Block.touch cache.maxReference) }
    exact ⟨pool, (cache.pool.aged_touch index _).trans aged, hand, same⟩

theorem onward_marked (cache : Cache) (address : Address) (child index level steps : Nat) :
    (cache.marked [child]).onward address index level steps =
      cache.onward address index level steps := by
  have links (block : Block) (selector : Nat) :
      (block.touch cache.maxReference).child? selector = block.child? selector := by
    rw [Block.touch_eq]
    rfl
  have next (index level : Nat) :
      (cache.marked [child]).next? address index level = cache.next? address index level := by
    simp only [next?, marked, Pool.blocks_modify]
    split
    next => cases cache.pool.blocks[index]? <;> simp [links]
    next => rfl
  induction steps generalizing index level with
  | zero => rfl
  | succ steps ih => simp only [onward, next, ih]

theorem anchor_of_arrive (ran : cache.arrive address index = .ok walk) :
    walk.anchor = some index := by
  obtain ⟨block, _, ran⟩ := bind_eq_ok_iff.mp ran
  split at ran
  · obtain ⟨tag, _, same⟩ := bind_eq_ok_iff.mp ran
    cases same
    split <;> rfl
  · cases ran
    rfl

theorem onward_of_descend
    (ran : cache.descend address index level steps = .ok (walk, after)) :
    walk.anchor = (index :: cache.onward address index level steps).getLast? ∧
      after = cache.marked (cache.onward address index level steps) := by
  induction steps generalizing cache index level with
  | zero =>
    obtain ⟨_, arrived, same⟩ := bind_eq_ok_iff.mp ran
    cases same
    exact ⟨anchor_of_arrive arrived, rfl⟩
  | succ steps ih =>
    obtain ⟨selector, isSelector, ran⟩ := bind_eq_ok_iff.mp ran
    obtain ⟨block, found, ran⟩ := bind_eq_ok_iff.mp ran
    have next : cache.next? address index level = block.child? selector := by
      simp [next?, isSelector, Pool.get_eq_ok_iff.mp found, Except.toOption]
    cases leads : block.child? selector with
    | none =>
      rw [leads] at ran
      cases ran
      simp [onward, next, leads, marked, Walk.anchor]
    | some child =>
      rw [leads] at ran
      obtain ⟨touched, touches, ran⟩ := bind_eq_ok_iff.mp ran
      obtain ⟨_, rfl⟩ := updateBlock_eq_ok_iff.mp touches
      obtain ⟨anchor, marks⟩ := ih ran
      have same : (cache.marked [child]).onward address child (level + 1) steps = _ :=
        onward_marked cache address child child (level + 1) steps
      rw [marked, marked] at same
      rw [same] at anchor marks
      simp only [onward, next, leads]
      exact ⟨by rw [anchor, List.getLast?_cons_cons], marks⟩

/-- A search goes along the blocks that it visits to the last of them, and marks all but the
first. -/
theorem visits_of_search (ran : cache.search address = .ok (walk, after)) :
    walk.anchor = (cache.visits address).getLast? ∧
      after = cache.marked (cache.visits address).tail := by
  obtain ⟨slot, isSlot, ran⟩ := bind_eq_ok_iff.mp ran
  obtain ⟨entry, isEntry, ran⟩ := bind_eq_ok_iff.mp ran
  have first : cache.first? address = entry.leads? := by
    simp [first?, isSlot, TopIndex.get_eq_ok_iff.mp isEntry, Except.toOption]
  rw [visits, first]
  split at ran
  next valid =>
    obtain ⟨anchor, marks⟩ := onward_of_descend ran
    rw [Link.leads?, if_pos valid]
    exact ⟨anchor, marks⟩
  next free =>
    cases ran
    rw [Link.leads?, if_neg free]
    exact ⟨rfl, rfl⟩

theorem aged_of_search (ran : cache.search address = .ok (walk, after)) :
    ∃ pool, cache.pool.Aged pool ∧ pool.hand = cache.pool.hand ∧ after = { cache with pool } := by
  rw [(visits_of_search ran).2]
  exact cache.aged_marked _

end Walks

section Resolving

variable {cache after : Cache} {address : Address} {tag index : Nat} {found : Option Nat}

/-- How a look-up may end: on the fast path, at the end of the walk, or nowhere. -/
inductive Resolved (cache : Cache) (address : Address) : (found : Option Nat) → (after : Cache) → Prop
  | direct {walk : Walk} {walked : Cache} {tag index : Nat}
    (searched : cache.search address = .ok (walk, walked))
    (isTag : walked.layout.tag address = .ok tag)
    (leads : walked.fastPath.lookup tag = some index) :
    Resolved cache address (some index) (walked.record Stats.recordFastPathHit)
  | walked {walked after : Cache} {tag index : Nat}
    (searched : cache.search address = .ok (.hit index, walked))
    (isTag : walked.layout.tag address = .ok tag)
    (absent : walked.fastPath.lookup tag = none)
    (filed : (walked.record Stats.recordSlowPathHit).installFastPath tag index = .ok after) :
    Resolved cache address (some index) after
  | missed {walked : Cache} {anchor : Option Nat} {tag : Nat}
    (searched : cache.search address = .ok (.miss anchor, walked))
    (isTag : walked.layout.tag address = .ok tag)
    (absent : walked.fastPath.lookup tag = none) :
    Resolved cache address none (walked.record Stats.recordMiss)

theorem resolved_of_resolve (ran : cache.resolve address = .ok (found, after)) :
    cache.Resolved address found after := by
  obtain ⟨⟨walk, walked⟩, searched, ran⟩ := bind_eq_ok_iff.mp ran
  obtain ⟨tag, isTag, ran⟩ := bind_eq_ok_iff.mp ran
  split at ran
  next index leads =>
    cases ran
    exact .direct searched isTag leads
  next absent =>
    cases walk with
    | hit index =>
      obtain ⟨installed, filed, same⟩ := bind_eq_ok_iff.mp ran
      cases same
      exact .walked searched isTag absent filed
    | miss anchor =>
      cases ran
      exact .missed searched isTag absent

/-- A read is a look-up and changes nothing else. -/
theorem resolve_of_read {byte : Option UInt8} (ran : cache.read address = .ok (byte, after)) :
    ∃ found, (cache.record Stats.recordAccess).resolve address = .ok (found, after) := by
  obtain ⟨_, _, ran⟩ := bind_eq_ok_iff.mp ran
  obtain ⟨⟨found, resolved⟩, isFound, ran⟩ := bind_eq_ok_iff.mp ran
  cases found with
  | none =>
    cases ran
    exact ⟨none, isFound⟩
  | some index =>
    obtain ⟨offset, _, ran⟩ := bind_eq_ok_iff.mp ran
    obtain ⟨⟨byte, performed⟩, isByte, same⟩ := bind_eq_ok_iff.mp ran
    cases same
    obtain ⟨block, _, isByte⟩ := bind_eq_ok_iff.mp isByte
    dsimp only at isByte
    split at isByte
    · cases isByte
    · split at isByte
      · cases isByte
      · cases isByte
        exact ⟨some index, isFound⟩

/-- A new entry may push out another, which is counted. -/
theorem filed_of_installFastPath (ran : cache.installFastPath tag index = .ok after) :
    ∃ evicted fastPath, cache.fastPath.insert tag index = .ok (evicted, fastPath) ∧
      after = { cache with
        fastPath
        stats := if evicted.isSome then cache.stats.recordFastPathEviction else cache.stats } := by
  obtain ⟨⟨evicted, fastPath⟩, inserted, same⟩ := bind_eq_ok_iff.mp ran
  cases same
  refine ⟨evicted, fastPath, inserted, ?_⟩
  cases evicted <;> rfl

end Resolving

section Cleaning

variable {cache after : Cache} {address : Address} {retired : Nat}

/-- Some changed data blocks were called clean, one after the other. -/
inductive Cleaned (before : Cache) : (after : Cache) → Prop
  | refl : Cleaned before before
  | step {middle : Cache} {index : Nat} {block : Block} : Cleaned before middle →
    middle.pool.blocks[index]? = some block → middle.isLeaf block = true → block.dirty = true →
      Cleaned before (middle.clean index block)

theorem Cleaned.flushBlock (cleaned : cache.Cleaned after) (flushed index : Nat) :
    cache.Cleaned (after.flushBlock flushed index).2 := by
  unfold Cache.flushBlock
  split
  next => exact cleaned
  next block found =>
    split
    next cleans =>
      obtain ⟨leaf, dirty⟩ := Bool.and_eq_true_iff.mp cleans
      exact cleaned.step found leaf dirty
    next => exact cleaned

theorem Cleaned.retireBlock (cleaned : cache.Cleaned after) (tag : Nat) (live : Option Nat)
    (retired index : Nat) : cache.Cleaned (after.retireBlock tag live retired index).2 := by
  unfold Cache.retireBlock
  split
  next => exact cleaned
  next block found =>
    split
    next stale =>
      dsimp only
      split
      next dirty =>
        obtain ⟨leaf, _⟩ := Bool.and_eq_true_iff.mp (Bool.and_eq_true_iff.mp stale).2
        exact cleaned.step found leaf dirty
      next => exact cleaned
    next => exact cleaned

theorem cleaned_of_flushDirty (cache : Cache) : cache.Cleaned cache.flushDirty.2 := by
  refine List.foldlRecOn (motive := fun progress : Nat × Cache => cache.Cleaned progress.2) _ _
    .refl fun progress cleaned index _ => ?_
  exact cleaned.flushBlock progress.1 index

theorem cleaned_of_retireStale (ran : cache.retireStale address = .ok (retired, after)) :
    cache.Cleaned after := by
  obtain ⟨tag, _, same⟩ := bind_eq_ok_iff.mp ran
  obtain ⟨_, rfl⟩ := Prod.mk.inj (Except.ok.inj same)
  refine List.foldlRecOn (motive := fun progress : Nat × Cache => cache.Cleaned progress.2) _ _
    .refl fun progress cleaned index _ => ?_
  exact cleaned.retireBlock tag (cache.fastPath.lookup tag) progress.1 index

end Cleaning

end Cache

end TrieCache
