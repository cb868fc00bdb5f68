import TrieCache.Clock
import TrieCache.Proofs.Views

/-!
# What a sweep guarantees

A sweep finds a block that is neither locked nor pinned whenever there is one, and
changes nothing but reference counts and the hand.  It would have to step over a whole
turn of blocks to give up, and such a turn passes every candidate.
-/

namespace TrieCache

namespace Pool

/-- A block that a sweep may take. -/
def Eligible (pool : Pool) (pinned : List Nat) (index : Nat) : Prop :=
  pool.locked? index = some false ∧ index ∉ pinned

/-- The steps that a hand takes to a block. -/
def ahead (capacity hand index : Nat) : Nat :=
  if hand ≤ index then index - hand else index + capacity - hand

/-- What holds whenever a sweep looks at the next block. -/
structure Sweeping (maxAttempts : Nat) (pinned : List Nat) (state : Sweep) (pool : Pool) : Prop where
  hand_lt : pool.hand < pool.capacity
  attempts_pos : 0 < maxAttempts
  examined : 0 < state.attempts → state.best.isSome = true
  best {index reference : Nat} : state.best = some (index, reference) → pool.Eligible pinned index
  /-- The blocks stepped over are no candidates. -/
  ahead_lt {index : Nat} : pool.Eligible pinned index →
    ahead pool.capacity pool.hand index + state.skipped < pool.capacity

/-- What a pool keeps when a sweep goes over it. -/
structure Swept (before after : Pool) : Prop where
  aged : before.Aged after
  hand_lt : after.hand < after.capacity
  bounded {ceiling : Nat} : before.All (fun block => block.reference ≤ ceiling) →
    after.All fun block => block.reference ≤ ceiling

variable {maxAttempts : Nat} {pinned : List Nat} {state : Sweep} {pool : Pool}

theorem Aged.eligible_iff {before after : Pool} (aged : before.Aged after) {index : Nat} :
    after.Eligible pinned index ↔ before.Eligible pinned index := by
  rw [Eligible, Eligible, locked?, locked?, aged.look fun _ => rfl]

theorem Eligible.lt_capacity {index : Nat} (eligible : pool.Eligible pinned index) :
    index < pool.capacity := by
  obtain ⟨block, found, _⟩ := look_eq_some_iff.mp eligible.1
  exact lt_capacity_of_block found

theorem eligible_iff_of_block {index : Nat} {block : Block}
    (found : pool.blocks[index]? = some block) :
    pool.Eligible pinned index ↔ ¬ (block.locked || pinned.contains index) = true := by
  rw [Eligible, locked?, look_of_block found, Option.some.injEq]
  simp

theorem ahead_step {capacity hand index : Nat} (hand_lt : hand < capacity)
    (index_lt : index < capacity) (distinct : index ≠ hand) :
    ahead capacity ((hand + 1) % capacity) index + 1 = ahead capacity hand index := by
  by_cases wraps : hand + 1 = capacity
  · rw [wraps, Nat.mod_self, ahead, ahead, if_pos (Nat.zero_le _), if_neg (by omega)]
    omega
  · rw [Nat.mod_eq_of_lt (by omega), ahead, ahead]
    split <;> split <;> omega

theorem ahead_lt_capacity {capacity hand index : Nat} (hand_lt : hand < capacity)
    (index_lt : index < capacity) : ahead capacity hand index < capacity := by
  rw [ahead]
  split <;> omega

namespace Sweeping

variable (sweeping : Sweeping maxAttempts pinned state pool)
include sweeping

theorem hand_step_lt : (pool.hand + 1) % pool.capacity < pool.capacity :=
  Nat.mod_lt _ (Nat.zero_lt_of_lt sweeping.hand_lt)

theorem skip (passed : ¬ pool.Eligible pinned pool.hand) :
    Sweeping maxAttempts pinned { state with skipped := state.skipped + 1 }
      { pool with hand := (pool.hand + 1) % pool.capacity } where
  hand_lt := sweeping.hand_step_lt
  attempts_pos := sweeping.attempts_pos
  examined := sweeping.examined
  best := sweeping.best
  ahead_lt := by
    intro index eligible
    have before := sweeping.ahead_lt eligible
    have distinct : index ≠ pool.hand := by
      rintro rfl
      exact passed eligible
    have closer := ahead_step sweeping.hand_lt eligible.lt_capacity distinct
    change ahead pool.capacity ((pool.hand + 1) % pool.capacity) index + (state.skipped + 1) <
      pool.capacity
    omega

/-- A whole turn of blocks that are no candidates leaves none. -/
theorem not_eligible (passed : ¬ pool.Eligible pinned pool.hand)
    (turn : pool.capacity ≤ state.skipped + 1) (index : Nat) : ¬ pool.Eligible pinned index := by
  intro eligible
  have before := sweeping.ahead_lt eligible
  have distinct : index ≠ pool.hand := by
    rintro rfl
    exact passed eligible
  have closer := ahead_step sweeping.hand_lt eligible.lt_capacity distinct
  omega

theorem examine (block : Block) (eligible : pool.Eligible pinned pool.hand) :
    Sweeping maxAttempts pinned
      { attempts := state.attempts + 1, skipped := 0,
        best := state.consider pool.hand block.reference }
      (Pool.modify { pool with hand := (pool.hand + 1) % pool.capacity } pool.hand
        fun block => { block with reference := 0 }) := by
  have aged : Aged { pool with hand := (pool.hand + 1) % pool.capacity }
      (Pool.modify { pool with hand := (pool.hand + 1) % pool.capacity } pool.hand
        fun block => { block with reference := 0 }) :=
    Aged.modify _ _ _
  have capacity := aged.capacity
  refine ⟨?_, sweeping.attempts_pos, fun _ => ?_, ?_, ?_⟩
  · rw [capacity]
    exact sweeping.hand_step_lt
  · simp only [Sweep.consider]
    split
    · rfl
    · split <;> rfl
  · intro index reference isBest
    rw [aged.eligible_iff]
    simp only [Sweep.consider] at isBest
    split at isBest
    · cases isBest
      exact eligible
    next best bestReference wasBest =>
      split at isBest
      · cases isBest
        exact eligible
      · cases isBest
        exact sweeping.best wasBest
  · intro index candidate
    have index_lt := candidate.lt_capacity
    rw [capacity] at index_lt ⊢
    exact ahead_lt_capacity sweeping.hand_step_lt index_lt

end Sweeping

theorem Swept.trans {before middle after : Pool} (first : before.Swept middle)
    (second : middle.Swept after) : before.Swept after where
  aged := first.aged.trans second.aged
  hand_lt := second.hand_lt
  bounded := fun all => second.bounded (first.bounded all)

theorem swept_moveHand {hand : Nat} (hand_lt : hand < pool.capacity) :
    pool.Swept { pool with hand } where
  aged := Aged.refl _
  hand_lt := hand_lt
  bounded := fun all => all

theorem swept_settleReference (hand_lt : pool.hand < pool.capacity) (index : Nat) :
    pool.Swept (pool.modify index fun block => { block with reference := 0 }) where
  aged := Aged.modify _ _ _
  hand_lt := by
    rw [capacity_modify]
    exact hand_lt
  bounded := fun all => all.modify fun _ _ => Nat.zero_le _

theorem sweep_outcome (sweeping : Sweeping maxAttempts pinned state pool) :
    Ends (pool.sweep maxAttempts pinned state)
      (fun (victim, after) => pool.Swept after ∧ pool.Eligible pinned victim.index)
      (fun fault => fault = .noVictim ∧ ∀ index, ¬ pool.Eligible pinned index) := by
  fun_induction sweep maxAttempts pinned state pool with
  | case1 state pool attempts capacity empty =>
    exact absurd sweeping.hand_lt (by simp [capacity] at empty; omega)
  | case2 state pool attempts capacity index nonempty missing =>
    obtain ⟨block, found⟩ := exists_block sweeping.hand_lt
    rw [found] at missing
    cases missing
  | case3 state pool attempts capacity index nonempty block found moved passed turn ih =>
    have notEligible : ¬ pool.Eligible pinned pool.hand := by
      rw [eligible_iff_of_block found]
      exact not_not_intro passed
    refine (ih (sweeping.skip notEligible)).mono ?_ ?_
    · rintro ⟨victim, after⟩ ⟨swept, eligible⟩
      exact ⟨(swept_moveHand sweeping.hand_step_lt).trans swept, eligible⟩
    · exact fun fault bad => bad
  | case4 state pool attempts capacity index nonempty block found passed turn =>
    have notEligible : ¬ pool.Eligible pinned pool.hand := by
      rw [eligible_iff_of_block found]
      exact not_not_intro passed
    exact ⟨rfl, sweeping.not_eligible notEligible (Nat.le_of_not_lt turn)⟩
  | case5 state pool attempts capacity index nonempty block found moved candidate free =>
    refine ⟨swept_moveHand sweeping.hand_step_lt, ?_⟩
    exact (eligible_iff_of_block found).mpr candidate
  | case6 state pool attempts capacity index nonempty block found moved candidate taken ih =>
    have eligible : pool.Eligible pinned pool.hand := (eligible_iff_of_block found).mpr candidate
    have swept : pool.Swept (moved.modify index fun block => { block with reference := 0 }) :=
      (swept_moveHand sweeping.hand_step_lt).trans
        (swept_settleReference sweeping.hand_step_lt _)
    refine (ih (sweeping.examine block eligible)).mono ?_ ?_
    · rintro ⟨victim, after⟩ ⟨rest, isEligible⟩
      exact ⟨swept.trans rest, swept.aged.eligible_iff.mp isEligible⟩
    · rintro fault ⟨rfl, none⟩
      exact ⟨rfl, fun other candidate => none other (swept.aged.eligible_iff.mpr candidate)⟩
  | case7 state pool used =>
    have positive := sweeping.attempts_pos
    obtain ⟨⟨index, reference⟩, isBest⟩ :=
      Option.isSome_iff_exists.mp (sweeping.examined (by omega))
    simp only [Sweep.settle, isBest, ok_bind]
    exact ⟨swept_moveHand sweeping.hand_lt, sweeping.best isBest⟩

/-- A victim is found unless every block is locked or pinned. -/
theorem selectVictim_outcome (hand_lt : pool.hand < pool.capacity) (attempts_pos : 0 < maxAttempts)
    (pinned : List Nat) :
    Ends (pool.selectVictim maxAttempts pinned)
      (fun (victim, after) => pool.Swept after ∧ pool.Eligible pinned victim.index)
      (fun fault => fault = .noVictim ∧ ∀ index, ¬ pool.Eligible pinned index) := by
  refine sweep_outcome ⟨hand_lt, attempts_pos, fun none => absurd none (Nat.lt_irrefl 0), nofun, ?_⟩
  intro index eligible
  exact ahead_lt_capacity hand_lt eligible.lt_capacity

end Pool

end TrieCache
