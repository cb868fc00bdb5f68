import TrieCache.Stats

/-!
# Counters

A counter that reaches the largest word stays there, so what it shows is what it would
show without a bound, cut off at that word.  The counts themselves are kept exact here:
each operation adds what it spends, and the books of an insertion balance once it is
recorded.
-/

namespace TrieCache

theorem Word.saturatingAdd_min (count more : Nat) :
    saturatingAdd (min count max64) more = min (count + more) max64 := by
  unfold saturatingAdd
  omega

attribute [ext] Stats

namespace Stats

/-- No counter has stopped counting. -/
def Unsaturated (stats : Stats) : Prop :=
  ∀ counter ∈ stats.toList, counter.2 < Word.max64

instance (stats : Stats) : Decidable stats.Unsaturated :=
  inferInstanceAs (Decidable (∀ counter ∈ stats.toList, counter.2 < Word.max64))

/-- What is shown of exact counts. -/
def capped (exact : Stats) : Stats where
  accesses := min exact.accesses Word.max64
  hits := min exact.hits Word.max64
  misses := min exact.misses Word.max64
  fastPathHits := min exact.fastPathHits Word.max64
  slowPathHits := min exact.slowPathHits Word.max64
  insertions := min exact.insertions Word.max64
  blocksBuilt := min exact.blocksBuilt Word.max64
  immediateVictims := min exact.immediateVictims Word.max64
  fallbackVictims := min exact.fallbackVictims Word.max64
  orphanedChildren := min exact.orphanedChildren Word.max64
  leafEvictions := min exact.leafEvictions Word.max64
  writebacks := min exact.writebacks Word.max64
  fastPathEvictions := min exact.fastPathEvictions Word.max64

def plus (first second : Stats) : Stats where
  accesses := first.accesses + second.accesses
  hits := first.hits + second.hits
  misses := first.misses + second.misses
  fastPathHits := first.fastPathHits + second.fastPathHits
  slowPathHits := first.slowPathHits + second.slowPathHits
  insertions := first.insertions + second.insertions
  blocksBuilt := first.blocksBuilt + second.blocksBuilt
  immediateVictims := first.immediateVictims + second.immediateVictims
  fallbackVictims := first.fallbackVictims + second.fallbackVictims
  orphanedChildren := first.orphanedChildren + second.orphanedChildren
  leafEvictions := first.leafEvictions + second.leafEvictions
  writebacks := first.writebacks + second.writebacks
  fastPathEvictions := first.fastPathEvictions + second.fastPathEvictions

instance : Add Stats :=
  ⟨plus⟩

theorem add_eq (first second : Stats) : first + second = first.plus second :=
  rfl

theorem add_none (exact : Stats) : exact + {} = exact := by
  simp [add_eq, plus]

theorem none_add (exact : Stats) : {} + exact = exact := by
  simp [add_eq, plus]

theorem add_assoc (first second third : Stats) :
    first + second + third = first + (second + third) := by
  simp [add_eq, plus, Nat.add_assoc]

theorem eq_of_unsaturated {stats exact : Stats} (unsaturated : stats.Unsaturated)
    (same : stats = exact.capped) : stats = exact := by
  subst same
  simp [Unsaturated, toList, capped] at unsaturated
  ext <;> simp [capped] <;> omega

/-- The part of the counts that accesses and insertions are counted in. -/
def served (spent : Stats) : Stats where
  accesses := spent.accesses
  hits := spent.hits
  misses := spent.misses
  insertions := spent.insertions

theorem served_add (first second : Stats) :
    (first + second).served = first.served + second.served := by
  simp [served, add_eq, plus]

/-- Counts that grew by what was spent. -/
def Grew (before after spent : Stats) : Prop :=
  ∀ exact : Stats, before = exact.capped → after = (exact + spent).capped

namespace Grew

variable {before middle after spent spent' : Stats}

theorem refl (stats : Stats) : stats.Grew stats {} :=
  fun exact same => by rw [add_none, same]

theorem trans (first : before.Grew middle spent) (second : middle.Grew after spent') :
    before.Grew after (spent + spent') := by
  intro exact same
  rw [← add_assoc]
  exact second _ (first exact same)

theorem recordAccess (stats : Stats) : stats.Grew stats.recordAccess { accesses := 1 } := by
  rintro exact rfl
  simp [Stats.recordAccess, capped, add_eq, plus, bump, Word.saturatingAdd_min]

theorem recordFastPathHit (stats : Stats) :
    stats.Grew stats.recordFastPathHit { hits := 1, fastPathHits := 1 } := by
  rintro exact rfl
  simp [Stats.recordFastPathHit, capped, add_eq, plus, bump, Word.saturatingAdd_min]

theorem recordSlowPathHit (stats : Stats) :
    stats.Grew stats.recordSlowPathHit { hits := 1, slowPathHits := 1 } := by
  rintro exact rfl
  simp [Stats.recordSlowPathHit, capped, add_eq, plus, bump, Word.saturatingAdd_min]

theorem recordMiss (stats : Stats) : stats.Grew stats.recordMiss { misses := 1 } := by
  rintro exact rfl
  simp [Stats.recordMiss, capped, add_eq, plus, bump, Word.saturatingAdd_min]

theorem recordInsertion (stats : Stats) (built : Nat) :
    stats.Grew (stats.recordInsertion built) { insertions := 1, blocksBuilt := built } := by
  rintro exact rfl
  simp [Stats.recordInsertion, capped, add_eq, plus, bump, Word.saturatingAdd_min]

theorem recordVictim (stats : Stats) (fallback : Bool) :
    stats.Grew (stats.recordVictim fallback)
      { immediateVictims := (!fallback).toNat, fallbackVictims := fallback.toNat } := by
  rintro exact rfl
  cases fallback <;>
    simp [Stats.recordVictim, capped, add_eq, plus, bump, Word.saturatingAdd_min]

theorem recordOrphans (stats : Stats) (count : Nat) :
    stats.Grew (stats.recordOrphans count) { orphanedChildren := count } := by
  rintro exact rfl
  simp [Stats.recordOrphans, capped, add_eq, plus, Word.saturatingAdd_min]

theorem recordLeafEviction (stats : Stats) :
    stats.Grew stats.recordLeafEviction { leafEvictions := 1 } := by
  rintro exact rfl
  simp [Stats.recordLeafEviction, capped, add_eq, plus, bump, Word.saturatingAdd_min]

theorem recordWriteback (stats : Stats) :
    stats.Grew stats.recordWriteback { writebacks := 1 } := by
  rintro exact rfl
  simp [Stats.recordWriteback, capped, add_eq, plus, bump, Word.saturatingAdd_min]

theorem recordFastPathEviction (stats : Stats) :
    stats.Grew stats.recordFastPathEviction { fastPathEvictions := 1 } := by
  rintro exact rfl
  simp [Stats.recordFastPathEviction, capped, add_eq, plus, bump, Word.saturatingAdd_min]

end Grew

/-- What one access spends: it found its block in one way or another, or missed it. -/
def ofAccess (fast slow misses evictions : Nat) : Stats where
  accesses := 1
  hits := fast + slow
  misses := misses
  fastPathHits := fast
  slowPathHits := slow
  fastPathEvictions := evictions

/-- What an access is counted as, as far as it was served. -/
def ofLookup (found : Bool) : Stats where
  accesses := 1
  hits := found.toNat
  misses := (!found).toNat

/-- The books balance, but for the blocks that an insertion under way has built. -/
structure Balanced (spent : Stats) (depth unrecorded : Nat) : Prop where
  accesses : spent.accesses = spent.hits + spent.misses
  hits : spent.hits = spent.fastPathHits + spent.slowPathHits
  victims : spent.immediateVictims + spent.fallbackVictims = spent.blocksBuilt + unrecorded
  insertions_le : spent.insertions ≤ spent.blocksBuilt
  blocksBuilt_le : spent.blocksBuilt ≤ depth * spent.insertions

namespace Balanced

variable {spent spent' : Stats} {depth blocks blocks' : Nat}

/-- Some counters are in none of the balances. -/
theorem apart (orphanedChildren leafEvictions writebacks fastPathEvictions depth : Nat) :
    Balanced { orphanedChildren, leafEvictions, writebacks, fastPathEvictions } depth 0 :=
  ⟨rfl, rfl, rfl, Nat.le_refl _, Nat.zero_le _⟩

theorem add (first : spent.Balanced depth blocks) (second : spent'.Balanced depth blocks') :
    (spent + spent').Balanced depth (blocks + blocks') := by
  obtain ⟨accesses, hits, victims, insertions_le, blocksBuilt_le⟩ := first
  obtain ⟨accesses', hits', victims', insertions_le', blocksBuilt_le'⟩ := second
  constructor <;> simp only [add_eq, plus, Nat.mul_add] <;> omega

theorem ofAccess {fast slow misses : Nat} (once : fast + slow + misses = 1)
    (evictions depth : Nat) : (Stats.ofAccess fast slow misses evictions).Balanced depth 0 :=
  ⟨once.symm, rfl, rfl, Nat.le_refl _, Nat.zero_le _⟩

theorem victim (fallback : Bool) (depth : Nat) : Balanced {
    immediateVictims := (!fallback).toNat, fallbackVictims := fallback.toNat } depth 1 :=
  ⟨rfl, rfl, by cases fallback <;> rfl, Nat.le_refl _, Nat.zero_le _⟩

theorem recorded (balanced : spent.Balanced depth blocks) (blocks_pos : 1 ≤ blocks)
    (blocks_le : blocks ≤ depth) :
    (spent + { insertions := 1, blocksBuilt := blocks }).Balanced depth 0 := by
  obtain ⟨accesses, hits, victims, insertions_le, blocksBuilt_le⟩ := balanced
  constructor <;> simp only [add_eq, plus, Nat.mul_add] <;> omega

end Balanced

end Stats

end TrieCache
