import TrieCache.Proofs.Outline
import TrieCache.Proofs.Rotation

/-!
# The length of a sweep

A sweep counts the blocks that it examines.  It does not count those it steps over, and it
may be allowed to examine far more blocks than there are.  It is over within two turns of
the hand all the same.  The first turn passes every candidate and leaves it unreferenced,
so a candidate that is met in the second turn is free.  Until then the second turn only
steps over blocks, and fewer in a row than make a turn.

The sweep is followed one iteration at a time: by where it stands after so many of them,
and by the iteration it ends with.
-/

namespace TrieCache

namespace Pool

variable {start pool : Pool} {pinned : List Nat} {maxAttempts looks : Nat} {state : Sweep}

/-! ## Iterations -/

/-- What an iteration of a sweep comes to. -/
inductive Glance
  /-- The block under the hand is the victim. -/
  | takes (victim : Victim) (pool : Pool)
  /-- The sweep goes on. -/
  | passes (state : Sweep) (pool : Pool)
  deriving DecidableEq, Repr

/-- One iteration of a sweep: a look at the block under the hand. -/
def glance (pinned : List Nat) (state : Sweep) (pool : Pool) : Checked Glance := do
  let hand ← Word.rem (pool.hand + 1) pool.capacity
  let block ← pool.get pool.hand
  let moved := { pool with hand }
  if block.locked || pinned.contains pool.hand then
    require (decide (state.skipped + 1 < pool.capacity)) .noVictim
    return .passes { state with skipped := state.skipped + 1 } moved
  else if block.isFreeToTake then
    return .takes { index := pool.hand, fallback := false } moved
  else
    return .passes
      { attempts := state.attempts + 1, skipped := 0,
        best := state.consider pool.hand block.reference }
      (moved.modify pool.hand fun block => { block with reference := 0 })

theorem glance_of_block {block : Block} (found : pool.blocks[pool.hand]? = some block) :
    pool.glance pinned state =
      let moved := { pool with hand := (pool.hand + 1) % pool.capacity }
      if block.locked || pinned.contains pool.hand then
        if state.skipped + 1 < pool.capacity then
          .ok (.passes { state with skipped := state.skipped + 1 } moved)
        else .error .noVictim
      else if block.isFreeToTake then
        .ok (.takes { index := pool.hand, fallback := false } moved)
      else
        .ok (.passes
          { attempts := state.attempts + 1, skipped := 0,
            best := state.consider pool.hand block.reference }
          (moved.modify pool.hand fun block => { block with reference := 0 })) := by
  have nonempty : pool.capacity ≠ 0 := Nat.ne_zero_of_lt (lt_capacity_of_block found)
  have hand_eq : Word.rem (pool.hand + 1) pool.capacity =
      .ok ((pool.hand + 1) % pool.capacity) :=
    Word.rem_eq_ok_iff.mpr ⟨nonempty, rfl⟩
  have block_eq : pool.get pool.hand = .ok block := get_eq_ok_iff.mpr found
  rw [glance, hand_eq, ok_bind, block_eq, ok_bind]
  by_cases turn : state.skipped + 1 < pool.capacity <;> simp [turn, require]

/-- A sweep looks at the block under the hand while it has attempts left. -/
theorem sweep_eq_glance (maxAttempts : Nat) (pinned : List Nat) (state : Sweep) (pool : Pool) :
    pool.sweep maxAttempts pinned state =
      if state.attempts < maxAttempts then do
        match ← pool.glance pinned state with
        | .takes victim pool => return (victim, pool)
        | .passes state pool => pool.sweep maxAttempts pinned state
      else do
        return (← state.settle, pool) := by
  by_cases attempts : state.attempts < maxAttempts
  · rw [if_pos attempts]
    cases found : pool.blocks[pool.hand]? with
    | none =>
      unfold sweep
      by_cases empty : pool.capacity = 0 <;>
        simp [attempts, empty, glance, Word.rem, get, found]
    | some block =>
      rw [sweep_of_block attempts found, glance_of_block found]
      dsimp only
      split
      · split <;> rfl
      · split <;> rfl
  · unfold sweep
    rw [if_neg attempts, if_neg attempts]

/-- Where a sweep stands after so many iterations, none of which has ended it. -/
inductive Stands (start : Pool) (maxAttempts : Nat) (pinned : List Nat) :
    (looks : Nat) → Sweep → Pool → Prop
  | begins : Stands start maxAttempts pinned 0 {} start
  | passes {looks : Nat} {state next : Sweep} {pool after : Pool}
      (stands : Stands start maxAttempts pinned looks state pool)
      (attempts : state.attempts < maxAttempts)
      (glanced : pool.glance pinned state = .ok (.passes next after)) :
      Stands start maxAttempts pinned (looks + 1) next after

/-- How a sweep ends, and after how many iterations. -/
inductive Finishes (start : Pool) (maxAttempts : Nat) (pinned : List Nat) :
    (looks : Nat) → Victim → Pool → Prop
  /-- The last iteration takes the block under the hand. -/
  | taken {looks : Nat} {state : Sweep} {pool after : Pool} {victim : Victim}
      (stands : start.Stands maxAttempts pinned looks state pool)
      (attempts : state.attempts < maxAttempts)
      (glanced : pool.glance pinned state = .ok (.takes victim after)) :
      Finishes start maxAttempts pinned (looks + 1) victim after
  /-- The attempts are used up, and the block that is remembered is taken. -/
  | spent {looks : Nat} {state : Sweep} {pool : Pool} {index reference : Nat}
      (stands : start.Stands maxAttempts pinned looks state pool)
      (used : maxAttempts ≤ state.attempts) (best : state.best = some (index, reference)) :
      Finishes start maxAttempts pinned looks { index, fallback := true } pool

theorem Stands.selectVictim_eq (stands : start.Stands maxAttempts pinned looks state pool) :
    start.selectVictim maxAttempts pinned = pool.sweep maxAttempts pinned state := by
  induction stands with
  | begins => rfl
  | passes _ attempts glanced ih => rw [ih, sweep_eq_glance, if_pos attempts, glanced, ok_bind]

theorem Finishes.selectVictim_eq {victim : Victim} {after : Pool}
    (finishes : start.Finishes maxAttempts pinned looks victim after) :
    start.selectVictim maxAttempts pinned = .ok (victim, after) := by
  cases finishes with
  | taken stands attempts glanced =>
    rw [stands.selectVictim_eq, sweep_eq_glance, if_pos attempts, glanced]
    rfl
  | spent stands used best =>
    rw [stands.selectVictim_eq, sweep_eq_glance, if_neg (Nat.not_lt.mpr used), Sweep.settle, best,
      ok_bind, pure_eq_ok]

/-! ## The pace of a sweep -/

/-- What holds after so many iterations. -/
structure Paced (start : Pool) (maxAttempts : Nat) (pinned : List Nat) (looks : Nat)
    (state : Sweep) (pool : Pool) : Prop where
  sweeping : Sweeping maxAttempts pinned state pool
  aged : start.Aged pool
  /-- In the second turn no block is examined. -/
  looks_le : looks ≤ pool.capacity + state.skipped
  /-- A candidate that is still referenced lies ahead in the first turn. -/
  referenced_lt {index : Nat} : pool.Eligible pinned index → ¬ pool.Free index →
    ahead pool.capacity pool.hand index + looks < pool.capacity

theorem paced_start (hand_lt : start.hand < start.capacity) (attempts_pos : 1 ≤ maxAttempts) :
    start.Paced maxAttempts pinned 0 {} start where
  sweeping :=
    { hand_lt
      attempts_pos
      examined := fun some => absurd some (Nat.lt_irrefl 0)
      best := nofun
      ahead_lt := fun eligible => ahead_lt_capacity hand_lt eligible.lt_capacity }
  aged := Aged.refl start
  looks_le := Nat.zero_le _
  referenced_lt := fun eligible _ => ahead_lt_capacity hand_lt eligible.lt_capacity

theorem referenced_of_modify {index other : Nat} (eligible : pool.Eligible pinned other)
    (referenced : ¬ (pool.modify index fun block => { block with reference := 0 }).Free other) :
    other ≠ index ∧ ¬ pool.Free other := by
  obtain ⟨block, found⟩ := exists_block eligible.lt_capacity
  have distinct : other ≠ index := by
    rintro rfl
    exact referenced ⟨_, blocks_modify_self found _, .inr (.inr rfl)⟩
  refine ⟨distinct, ?_⟩
  rintro ⟨block', found', free⟩
  apply referenced
  exact ⟨block', (blocks_modify_of_ne distinct _).trans found', free⟩

namespace Paced

variable (paced : start.Paced maxAttempts pinned looks state pool)
include paced

theorem skip (passed : ¬ pool.Eligible pinned pool.hand) :
    start.Paced maxAttempts pinned (looks + 1) { state with skipped := state.skipped + 1 }
      { pool with hand := (pool.hand + 1) % pool.capacity } where
  sweeping := paced.sweeping.skip passed
  aged := paced.aged
  looks_le := Nat.succ_le_succ paced.looks_le
  referenced_lt := by
    intro index eligible referenced
    have before := paced.referenced_lt eligible referenced
    have distinct : index ≠ pool.hand := by
      rintro rfl
      exact passed eligible
    have closer := ahead_step paced.sweeping.hand_lt eligible.lt_capacity distinct
    change ahead pool.capacity ((pool.hand + 1) % pool.capacity) index + (looks + 1) <
      pool.capacity
    omega

theorem examine {block : Block} (found : pool.blocks[pool.hand]? = some block)
    (eligible : pool.Eligible pinned pool.hand) (taken : ¬ block.isFreeToTake = true) :
    start.Paced maxAttempts pinned (looks + 1)
      { attempts := state.attempts + 1, skipped := 0,
        best := state.consider pool.hand block.reference }
      (Pool.modify { pool with hand := (pool.hand + 1) % pool.capacity } pool.hand
        fun block => { block with reference := 0 }) where
  sweeping := paced.sweeping.examine block eligible
  aged := paced.aged.trans (Aged.modify _ _ _)
  looks_le := by
    have here := paced.referenced_lt eligible (mt (free_of_block found).mp taken)
    rw [capacity_modify]
    change looks + 1 ≤ pool.capacity + 0
    omega
  referenced_lt := by
    intro index candidate referenced
    have older := (Aged.eligible_iff (Aged.modify _ _ _)).mp candidate
    obtain ⟨distinct, stillReferenced⟩ := referenced_of_modify older referenced
    have before := paced.referenced_lt older stillReferenced
    have closer := ahead_step paced.sweeping.hand_lt older.lt_capacity distinct
    rw [capacity_modify]
    change ahead pool.capacity ((pool.hand + 1) % pool.capacity) index + (looks + 1) <
      pool.capacity
    omega

/-- With a candidate in the pool an iteration is carried out: the blocks stepped over do not make
a whole turn. -/
theorem glance_outcome {index : Nat} (candidate : start.Eligible pinned index) :
    Ends (pool.glance pinned state)
      (fun glance => ∀ next after, glance = .passes next after →
        start.Paced maxAttempts pinned (looks + 1) next after)
      (fun _ => False) := by
  obtain ⟨block, found⟩ := exists_block paced.sweeping.hand_lt
  rw [glance_of_block found]
  dsimp only
  split
  next passed =>
    have notEligible : ¬ pool.Eligible pinned pool.hand := by
      rw [eligible_iff_of_block found]
      exact not_not_intro passed
    split
    next turn =>
      rintro next after same
      cases same
      exact paced.skip notEligible
    next turn =>
      have gone := paced.sweeping.not_eligible notEligible (Nat.le_of_not_lt turn) index
      exact gone (paced.aged.eligible_iff.mpr candidate)
  next candidate =>
    split
    next =>
      rintro next after same
      cases same
    next taken =>
      rintro next after same
      cases same
      exact paced.examine found ((eligible_iff_of_block found).mpr candidate) taken

/-- Fewer blocks are stepped over in a row than make the second turn. -/
theorem looks_lt {index : Nat} (candidate : start.Eligible pinned index) :
    looks < 2 * start.capacity := by
  have ahead_lt := paced.sweeping.ahead_lt (paced.aged.eligible_iff.mpr candidate)
  have looks_le := paced.looks_le
  have capacity := paced.aged.capacity
  omega

theorem exists_best (used : maxAttempts ≤ state.attempts) :
    ∃ index reference, state.best = some (index, reference) ∧ start.Eligible pinned index := by
  have attempts_pos := paced.sweeping.attempts_pos
  obtain ⟨⟨index, reference⟩, best⟩ :=
    Option.isSome_iff_exists.mp (paced.sweeping.examined (by omega))
  exact ⟨index, reference, best, paced.aged.eligible_iff.mp (paced.sweeping.best best)⟩

end Paced

section Run

variable (hand_lt : start.hand < start.capacity) (attempts_pos : 1 ≤ maxAttempts)
include hand_lt attempts_pos

theorem Stands.paced {index : Nat} (candidate : start.Eligible pinned index)
    (stands : start.Stands maxAttempts pinned looks state pool) :
    start.Paced maxAttempts pinned looks state pool := by
  induction stands with
  | begins => exact paced_start hand_lt attempts_pos
  | passes _ _ glanced ih => exact (ih.glance_outcome candidate).of_eq_ok glanced _ _ rfl

/-- A sweep that goes on comes to its end within the two turns. -/
theorem Stands.exists_finishes {index : Nat} (candidate : start.Eligible pinned index)
    (stands : start.Stands maxAttempts pinned looks state pool) {left : Nat}
    (enough : 2 * start.capacity ≤ looks + left) :
    ∃ iterations victim after, iterations ≤ 2 * start.capacity ∧
      start.Finishes maxAttempts pinned iterations victim after := by
  have paced := stands.paced hand_lt attempts_pos candidate
  have looks_lt := paced.looks_lt candidate
  -- The iterations that are left to the two turns go down by one each time.
  induction left generalizing looks state pool with
  | zero => omega
  | succ left ih =>
    by_cases attempts : state.attempts < maxAttempts
    · obtain ⟨glance, glanced, keepsPace⟩ :=
        (paced.glance_outcome candidate).exists_ok fun _ never => never
      cases glance with
      | takes victim after =>
        exact ⟨looks + 1, victim, after, looks_lt, .taken stands attempts glanced⟩
      | passes next after =>
        have paced' := keepsPace next after rfl
        exact ih (.passes stands attempts glanced) (by omega) paced' (paced'.looks_lt candidate)
    · have used := Nat.le_of_not_lt attempts
      obtain ⟨_, _, best, _⟩ := paced.exists_best used
      exact ⟨looks, _, pool, looks_lt.le, .spent stands used best⟩

end Run

/-- A sweep is over within so many iterations, and no point that it comes to is a fault. -/
structure EndsWithin (start : Pool) (maxAttempts : Nat) (pinned : List Nat) (bound : Nat) :
    Prop where
  /-- The sweep goes on from where it stands. -/
  selectVictim_eq {looks : Nat} {state : Sweep} {pool : Pool} :
    start.Stands maxAttempts pinned looks state pool →
      start.selectVictim maxAttempts pinned = pool.sweep maxAttempts pinned state
  /-- With attempts left, one more iteration is within the bound, and nothing fails in it. -/
  goesOn {looks : Nat} {state : Sweep} {pool : Pool} :
    start.Stands maxAttempts pinned looks state pool → state.attempts < maxAttempts →
      looks < bound ∧ ∃ glance, pool.glance pinned state = .ok glance
  /-- With none left, a candidate is remembered. -/
  remembers {looks : Nat} {state : Sweep} {pool : Pool} :
    start.Stands maxAttempts pinned looks state pool → maxAttempts ≤ state.attempts →
      ∃ index reference, state.best = some (index, reference) ∧ start.Eligible pinned index
  finishes : ∃ looks victim after, looks ≤ bound ∧
    start.Finishes maxAttempts pinned looks victim after ∧
      start.selectVictim maxAttempts pinned = .ok (victim, after)

/-- While some block is neither locked nor pinned, a sweep is over within two turns of the
hand, however many blocks it may examine. -/
theorem endsWithin_two_turns (hand_lt : pool.hand < pool.capacity)
    (attempts_pos : 1 ≤ maxAttempts) {index : Nat} (candidate : pool.Eligible pinned index) :
    pool.EndsWithin maxAttempts pinned (2 * pool.capacity) where
  selectVictim_eq := Stands.selectVictim_eq
  goesOn := by
    intro looks state reached stands attempts
    have paced := stands.paced hand_lt attempts_pos candidate
    obtain ⟨glance, glanced, _⟩ :=
      (paced.glance_outcome candidate).exists_ok fun _ never => never
    exact ⟨paced.looks_lt candidate, glance, glanced⟩
  remembers := fun stands used => (stands.paced hand_lt attempts_pos candidate).exists_best used
  finishes := by
    obtain ⟨looks, victim, after, within, finishes⟩ :=
      Stands.exists_finishes hand_lt attempts_pos candidate .begins (Nat.le_add_left _ 0)
    exact ⟨looks, victim, after, within, finishes, finishes.selectVictim_eq⟩

/-- All three candidates are referenced, so that the hand comes round to the first again,
however many more could be examined. -/
theorem endsWithin_of_busy :
    busy.hand < busy.capacity ∧ 1 ≤ 2 ^ 64 - 1 ∧ busy.Eligible [4] 3 ∧
      busy.EndsWithin (2 ^ 64 - 1) [4] 10 ∧
      (busy.selectVictim (2 ^ 64 - 1) [4]).map Prod.fst =
        .ok { index := 3, fallback := false } := by
  have hand_lt : busy.hand < busy.capacity := by decide
  have attempts_pos : 1 ≤ 2 ^ 64 - 1 := by decide
  have candidate : busy.Eligible [4] 3 := by decide
  have ends := endsWithin_two_turns hand_lt attempts_pos candidate
  exact ⟨hand_lt, attempts_pos, candidate, ends, by decide +kernel⟩

end Pool

end TrieCache
