import Mathlib.Data.List.MinMax
import Mathlib.Data.List.Rotate
import TrieCache.Proofs.Clock

/-!
# The order of the hand

A sweep meets its candidates, the blocks that are neither locked nor pinned, in the order
in which the hand passes them.  It takes the first that is free.  If none is, and the
attempts suffice for all of them, the first candidate is met a second time and is free by
then, for the sweep has aged it itself.  Otherwise the attempts run out, and the first of the
least referenced candidates is taken.

The sweep is followed by a list of the candidates it has aged and a list of those ahead.
Stepping over a block changes neither, and examining one moves it from the second to the
first, so the candidates ahead of the hand are always a rotation of those at the start.
-/

namespace TrieCache

namespace Pool

variable {pool start : Pool} {pinned : List Nat} {maxAttempts : Nat}

/-- All blocks, in the order of one turn of the hand. -/
def turn (pool : Pool) : List Nat :=
  (List.range pool.capacity).rotate pool.hand

instance (pool : Pool) (pinned : List Nat) (index : Nat) :
    Decidable (pool.Eligible pinned index) :=
  inferInstanceAs (Decidable (_ ∧ _))

/-- What a sweep may take, in the order of the hand. -/
def candidates (pool : Pool) (pinned : List Nat) : List Nat :=
  pool.turn.filter fun index => decide (pool.Eligible pinned index)

/-- How often walks passed a block since it was last aged. -/
def references (pool : Pool) (index : Nat) : Nat :=
  (pool.look (fun block => some block.reference) index).getD 0

/-- A block that was never built, or is orphaned, or was not referenced. -/
def Free (pool : Pool) (index : Nat) : Prop :=
  ∃ block, pool.blocks[index]? = some block ∧
    (block.valid = false ∨ block.parentValid = false ∨ block.reference = 0)

/-- The same pool with some blocks aged to zero and the hand elsewhere. -/
def aging (pool : Pool) (aged : List Nat) (hand : Nat) : Pool where
  blocks := pool.blocks.mapIdx fun index block =>
    if index ∈ aged then { block with reference := 0 } else block
  hand

/-- What a sweep makes of its candidates: a victim, the candidates it ages, and the last
block it examines. -/
inductive Settles (pool : Pool) (maxAttempts : Nat) (candidates : List Nat) :
    Victim → (aged : List Nat) → (last : Nat) → Prop
  /-- The first free candidate within the attempts. -/
  | taken {passed rest : List Nat} {index : Nat}
      (order : candidates.take maxAttempts = passed ++ index :: rest)
      (kept : ∀ other ∈ passed, ¬ pool.Free other) (free : pool.Free index) :
      Settles pool maxAttempts candidates { index, fallback := false } passed index
  /-- The first of the least referenced candidates, once the attempts are used up. -/
  | spent {index last : Nat}
      (kept : ∀ other ∈ candidates.take maxAttempts, ¬ pool.Free other)
      (enough : maxAttempts ≤ candidates.length)
      (least : (candidates.take maxAttempts).argmin pool.references = some index)
      (isLast : (candidates.take maxAttempts).getLast? = some last) :
      Settles pool maxAttempts candidates { index, fallback := true }
        (candidates.take maxAttempts) last
  /-- The first candidate, met again after all of them were aged. -/
  | lapped {first : Nat}
      (kept : ∀ other ∈ candidates, ¬ pool.Free other)
      (few : candidates.length < maxAttempts)
      (isFirst : candidates.head? = some first) :
      Settles pool maxAttempts candidates { index := first, fallback := false } candidates first

theorem mem_candidates {index : Nat} :
    index ∈ pool.candidates pinned ↔ pool.Eligible pinned index := by
  rw [candidates, List.mem_filter, turn, List.mem_rotate, List.mem_range, decide_eq_true_iff]
  exact ⟨And.right, fun eligible => ⟨eligible.lt_capacity, eligible⟩⟩

theorem nodup_candidates : (pool.candidates pinned).Nodup :=
  (List.nodup_rotate.mpr List.nodup_range).filter _

/-- A step of the hand puts the block under it at the end of the turn. -/
theorem exists_turn (hand_lt : pool.hand < pool.capacity) :
    ∃ rest, pool.turn = pool.hand :: rest ∧
      turn { pool with hand := (pool.hand + 1) % pool.capacity } = rest ++ [pool.hand] := by
  have length : (List.range pool.capacity).length = pool.capacity := List.length_range
  have head : pool.turn.head? = some pool.hand := by
    rw [turn, List.head?_rotate (by rwa [length]), List.getElem?_range hand_lt]
  obtain ⟨rest, turns⟩ := List.head?_eq_some_iff.mp head
  refine ⟨rest, turns, ?_⟩
  calc turn { pool with hand := (pool.hand + 1) % pool.capacity }
      = (List.range pool.capacity).rotate ((pool.hand + 1) % pool.capacity) := rfl
    _ = (List.range pool.capacity).rotate (pool.hand + 1) := by
        nth_rewrite 2 [← length]
        exact List.rotate_mod _ _
    _ = pool.turn.rotate 1 := (List.rotate_rotate _ _ _).symm
    _ = rest ++ [pool.hand] := by rw [turns, List.rotate_cons_succ, List.rotate_zero]

theorem candidates_skip (hand_lt : pool.hand < pool.capacity)
    (passed : ¬ pool.Eligible pinned pool.hand) :
    candidates { pool with hand := (pool.hand + 1) % pool.capacity } pinned =
      pool.candidates pinned := by
  obtain ⟨rest, turns, moved⟩ := exists_turn hand_lt
  change List.filter (fun index => decide (pool.Eligible pinned index)) _ = _
  rw [moved, candidates, turns, List.filter_append]
  simp [passed]

/-- Examining a candidate moves it from the front to the back. -/
theorem candidates_step (hand_lt : pool.hand < pool.capacity)
    (eligible : pool.Eligible pinned pool.hand) :
    ∃ rest, pool.candidates pinned = pool.hand :: rest ∧
      candidates { pool with hand := (pool.hand + 1) % pool.capacity } pinned =
        rest ++ [pool.hand] := by
  obtain ⟨rest, turns, moved⟩ := exists_turn hand_lt
  refine ⟨rest.filter fun index => decide (pool.Eligible pinned index), ?_, ?_⟩
  · rw [candidates, turns, List.filter_cons_of_pos (by simpa using eligible)]
  · change List.filter (fun index => decide (pool.Eligible pinned index)) _ = _
    rw [moved, List.filter_append, List.filter_singleton]
    simp [eligible]

theorem candidates_of_aged {after : Pool} (aged : pool.Aged after) (hand : after.hand = pool.hand) :
    after.candidates pinned = pool.candidates pinned := by
  rw [candidates, candidates, turn, turn, aged.capacity, hand]
  congr 1
  funext index
  exact decide_eq_decide.mpr aged.eligible_iff

theorem blocks_aging (pool : Pool) (aged : List Nat) (hand index : Nat) :
    (pool.aging aged hand).blocks[index]? = pool.blocks[index]?.map fun block =>
      if index ∈ aged then { block with reference := 0 } else block :=
  Array.getElem?_mapIdx

theorem capacity_aging (pool : Pool) (aged : List Nat) (hand : Nat) :
    (pool.aging aged hand).capacity = pool.capacity :=
  Array.size_mapIdx

theorem aging_nil (pool : Pool) : pool.aging [] pool.hand = pool := by
  have blocks : pool.blocks.mapIdx (fun _ block => block) = pool.blocks :=
    Array.mapIdx_eq_iff.mpr (by simp)
  simp only [aging, List.not_mem_nil, if_false, blocks]

theorem modify_aging (pool : Pool) (aged : List Nat) (hand index : Nat) :
    (pool.aging aged hand).modify index (fun block => { block with reference := 0 }) =
      pool.aging (aged ++ [index]) hand := by
  have blocks : ((pool.aging aged hand).modify index
      fun block => { block with reference := 0 }).blocks =
        (pool.aging (aged ++ [index]) hand).blocks := by
    apply Array.ext_getElem?
    intro other
    rw [blocks_modify, blocks_aging, blocks_aging]
    by_cases here : other = index
    · subst here
      simp only [if_true, List.mem_append, List.mem_singleton, or_true, Option.map_map]
      congr 1
      funext block
      simp only [Function.comp_apply]
      split <;> rfl
    · simp [here, Ne.symm here]
  exact congrArg (fun blocks => ({ blocks, hand } : Pool)) blocks

theorem free_of_block {index : Nat} {block : Block} (found : pool.blocks[index]? = some block) :
    pool.Free index ↔ block.isFreeToTake = true := by
  simp [Free, found, Block.isFreeToTake, or_assoc]

theorem references_of_block {index : Nat} {block : Block}
    (found : pool.blocks[index]? = some block) : pool.references index = block.reference := by
  rw [references, look_of_block found, Option.getD_some]

/-- Considering one candidate more keeps the first of the least referenced ones. -/
theorem consider_eq {state : Sweep} {seen : List Nat} {index : Nat}
    (best : state.best =
      (seen.argmin pool.references).map fun index => (index, pool.references index)) :
    state.consider index (pool.references index) =
      ((seen ++ [index]).argmin pool.references).map fun index =>
        (index, pool.references index) := by
  rw [List.argmin_concat, Sweep.consider, best]
  cases seen.argmin pool.references with
  | none => rfl
  | some least =>
    dsimp only [Option.map_some]
    split <;> rfl

/-- Where a sweep stands that has aged the candidates `seen` and has others ahead. -/
structure Midway (start : Pool) (maxAttempts : Nat) (pinned seen ahead : List Nat)
    (state : Sweep) (pool : Pool) : Prop where
  pool_eq : pool = start.aging seen pool.hand
  hand_lt : pool.hand < pool.capacity
  before : start.candidates pinned = seen ++ ahead
  now : pool.candidates pinned = ahead ++ seen
  attempts : state.attempts = seen.length
  within : seen.length ≤ maxAttempts
  best : state.best =
    (seen.argmin start.references).map fun index => (index, start.references index)
  kept {index : Nat} : index ∈ seen → ¬ start.Free index
  /-- Nothing is stepped over after the last attempt. -/
  last : seen.length = maxAttempts →
    ∃ last, seen.getLast? = some last ∧ pool.hand = (last + 1) % start.capacity

theorem midway_start (hand_lt : start.hand < start.capacity) (attempts_pos : 1 ≤ maxAttempts) :
    start.Midway maxAttempts pinned [] (start.candidates pinned) {} start where
  pool_eq := (aging_nil start).symm
  hand_lt := hand_lt
  before := rfl
  now := (List.append_nil _).symm
  attempts := rfl
  within := Nat.zero_le _
  best := rfl
  kept := nofun
  last := by
    intro none
    simp only [List.length_nil] at none
    omega

namespace Midway

variable {seen ahead : List Nat} {state : Sweep}
variable (midway : start.Midway maxAttempts pinned seen ahead state pool)
include midway

theorem capacity : pool.capacity = start.capacity := by
  rw [midway.pool_eq, capacity_aging]

theorem step_lt : (pool.hand + 1) % pool.capacity < pool.capacity :=
  Nat.mod_lt _ (Nat.zero_lt_of_lt midway.hand_lt)

/-- A block that is still ahead looks as it did at the start. -/
theorem block_of_not_mem {index : Nat} {block : Block} (fresh : index ∉ seen)
    (found : pool.blocks[index]? = some block) : start.blocks[index]? = some block := by
  rw [midway.pool_eq, blocks_aging] at found
  simpa [fresh] using found

theorem free_of_mem {index : Nat} {block : Block} (aged : index ∈ seen)
    (found : pool.blocks[index]? = some block) : block.isFreeToTake = true := by
  rw [midway.pool_eq, blocks_aging, Option.map_eq_some_iff] at found
  obtain ⟨older, _, rfl⟩ := found
  simp [aged, Block.isFreeToTake]

theorem skip (attempts : state.attempts < maxAttempts)
    (passed : ¬ pool.Eligible pinned pool.hand) :
    start.Midway maxAttempts pinned seen ahead { state with skipped := state.skipped + 1 }
      { pool with hand := (pool.hand + 1) % pool.capacity } where
  pool_eq := congrArg (fun moved : Pool => { moved with hand := (pool.hand + 1) % pool.capacity })
    midway.pool_eq
  hand_lt := midway.step_lt
  before := midway.before
  now := (candidates_skip midway.hand_lt passed).trans midway.now
  attempts := midway.attempts
  within := midway.within
  best := midway.best
  kept := midway.kept
  last := by
    intro spent
    have := midway.attempts
    omega

/-- A candidate that is not free is ahead for the first time. -/
theorem exists_ahead {block : Block} (found : pool.blocks[pool.hand]? = some block)
    (eligible : pool.Eligible pinned pool.hand) (taken : ¬ block.isFreeToTake = true) :
    ∃ rest, ahead = pool.hand :: rest ∧ pool.hand ∉ seen := by
  have fresh : pool.hand ∉ seen := fun aged => taken (midway.free_of_mem aged found)
  obtain ⟨rest, isFirst, _⟩ := candidates_step midway.hand_lt eligible
  rw [midway.now] at isFirst
  cases ahead with
  | nil =>
    rw [List.nil_append] at isFirst
    exact absurd (isFirst ▸ List.mem_cons_self) fresh
  | cons first others =>
    obtain ⟨rfl, _⟩ := List.cons.inj isFirst
    exact ⟨others, rfl, fresh⟩

theorem examine {rest : List Nat} {block : Block} (attempts : state.attempts < maxAttempts)
    (found : pool.blocks[pool.hand]? = some block) (eligible : pool.Eligible pinned pool.hand)
    (taken : ¬ block.isFreeToTake = true) (isAhead : ahead = pool.hand :: rest)
    (fresh : pool.hand ∉ seen) :
    start.Midway maxAttempts pinned (seen ++ [pool.hand]) rest
      { attempts := state.attempts + 1, skipped := 0,
        best := state.consider pool.hand block.reference }
      (Pool.modify { pool with hand := (pool.hand + 1) % pool.capacity } pool.hand
        fun block => { block with reference := 0 }) := by
  have older := midway.block_of_not_mem fresh found
  have counted := midway.attempts
  exact {
    pool_eq := by
      have moved : ({ pool with hand := (pool.hand + 1) % pool.capacity } : Pool) =
          start.aging seen ((pool.hand + 1) % pool.capacity) :=
        congrArg (fun moved : Pool => { moved with hand := (pool.hand + 1) % pool.capacity })
          midway.pool_eq
      rw [moved, modify_aging]
      rfl
    hand_lt := by
      rw [capacity_modify]
      exact midway.step_lt
    before := by
      rw [midway.before, isAhead, List.append_assoc, List.singleton_append]
    now := by
      obtain ⟨others, isFirst, isLast⟩ := candidates_step midway.hand_lt eligible
      rw [midway.now, isAhead, List.cons_append] at isFirst
      obtain ⟨_, rfl⟩ := List.cons.inj isFirst
      rw [← List.append_assoc, ← isLast]
      exact candidates_of_aged (Aged.modify _ _ _) rfl
    attempts := by
      rw [List.length_append, List.length_singleton, counted]
    within := by
      rw [List.length_append, List.length_singleton]
      omega
    best := by
      rw [← references_of_block older]
      exact consider_eq midway.best
    kept := by
      intro index mem
      rcases List.mem_append.mp mem with aged | here
      · exact midway.kept aged
      · rw [List.mem_singleton.mp here, free_of_block older]
        exact taken
    last := by
      intro _
      refine ⟨pool.hand, List.getLast?_concat, ?_⟩
      rw [← midway.capacity]
      rfl }

theorem settles_of_free {block : Block} (attempts : state.attempts < maxAttempts)
    (found : pool.blocks[pool.hand]? = some block) (eligible : pool.Eligible pinned pool.hand)
    (free : block.isFreeToTake = true) :
    start.Settles maxAttempts (start.candidates pinned)
      { index := pool.hand, fallback := false } seen pool.hand := by
  obtain ⟨rest, isFirst, _⟩ := candidates_step midway.hand_lt eligible
  have before := midway.before
  have counted := midway.attempts
  rw [midway.now] at isFirst
  cases ahead with
  | nil =>
    rw [List.append_nil] at before
    rw [List.nil_append] at isFirst
    subst before
    refine .lapped (fun _ => midway.kept) (by omega) ?_
    rw [isFirst, List.head?_cons]
  | cons first others =>
    obtain ⟨rfl, _⟩ := List.cons.inj isFirst
    have distinct : (seen ++ pool.hand :: others).Nodup := before ▸ nodup_candidates
    have fresh : pool.hand ∉ seen := fun aged =>
      (List.nodup_append.mp distinct).2.2 _ aged _ List.mem_cons_self rfl
    obtain ⟨room, isRoom⟩ : ∃ room, maxAttempts - seen.length = room + 1 :=
      ⟨maxAttempts - seen.length - 1, by omega⟩
    have order : (start.candidates pinned).take maxAttempts =
        seen ++ pool.hand :: others.take room := by
      rw [before, List.take_append, List.take_of_length_le midway.within, isRoom,
        List.take_succ_cons]
    exact .taken order (fun _ => midway.kept)
      ((free_of_block (midway.block_of_not_mem fresh found)).mpr free)

theorem settles_of_spent {victim : Victim} (used : ¬ state.attempts < maxAttempts)
    (settled : state.settle = .ok victim) :
    ∃ last, start.Settles maxAttempts (start.candidates pinned) victim seen last ∧
      pool = start.aging seen ((last + 1) % start.capacity) := by
  have counted := midway.attempts
  have within := midway.within
  have spent : seen.length = maxAttempts := by omega
  obtain ⟨last, isLast, hand⟩ := midway.last spent
  have examined : (start.candidates pinned).take maxAttempts = seen := by
    rw [midway.before, ← spent, List.take_left]
  refine ⟨last, ?_, hand ▸ midway.pool_eq⟩
  rw [Sweep.settle, midway.best] at settled
  cases least : seen.argmin start.references with
  | none =>
    rw [least] at settled
    cases settled
  | some index =>
    rw [least] at settled
    cases settled
    have enough : maxAttempts ≤ (start.candidates pinned).length := by
      rw [midway.before, List.length_append]
      omega
    rw [← examined] at least isLast ⊢
    exact .spent (fun other mem => midway.kept (examined ▸ mem)) enough least isLast

end Midway

/-- What a sweep that is under way comes to. -/
theorem settles_of_sweep {state : Sweep}
    (stands : ∃ seen ahead, start.Midway maxAttempts pinned seen ahead state pool) :
    Ends (pool.sweep maxAttempts pinned state)
      (fun (victim, after) => ∃ aged last,
        start.Settles maxAttempts (start.candidates pinned) victim aged last ∧
          after = start.aging aged ((last + 1) % start.capacity))
      (fun _ => True) := by
  -- The recursion of the sweep: a step over a block keeps both lists, an examination moves one.
  fun_induction sweep maxAttempts pinned state pool with
  | case1 state pool attempts capacity empty => trivial
  | case2 state pool attempts capacity index nonempty missing => trivial
  | case3 state pool attempts capacity index nonempty block found moved passed turn ih =>
    have notEligible : ¬ pool.Eligible pinned pool.hand := by
      rw [eligible_iff_of_block found]
      exact not_not_intro passed
    obtain ⟨seen, ahead, midway⟩ := stands
    exact ih ⟨seen, ahead, midway.skip attempts notEligible⟩
  | case4 state pool attempts capacity index nonempty block found passed turn => trivial
  | case5 state pool attempts capacity index nonempty block found moved candidate free =>
    have eligible : pool.Eligible pinned pool.hand := (eligible_iff_of_block found).mpr candidate
    obtain ⟨seen, ahead, midway⟩ := stands
    refine ⟨seen, pool.hand, midway.settles_of_free attempts found eligible free, ?_⟩
    rw [← midway.capacity]
    exact congrArg (fun moved : Pool => { moved with hand := (pool.hand + 1) % pool.capacity })
      midway.pool_eq
  | case6 state pool attempts capacity index nonempty block found moved candidate taken ih =>
    have eligible : pool.Eligible pinned pool.hand := (eligible_iff_of_block found).mpr candidate
    obtain ⟨seen, ahead, midway⟩ := stands
    obtain ⟨rest, isAhead, fresh⟩ := midway.exists_ahead found eligible taken
    exact ih ⟨_, rest, midway.examine attempts found eligible taken isAhead fresh⟩
  | case7 state pool used =>
    cases settled : state.settle with
    | error fault => trivial
    | ok victim =>
      obtain ⟨seen, ahead, midway⟩ := stands
      obtain ⟨last, settles, isPool⟩ := midway.settles_of_spent used settled
      exact ⟨seen, last, settles, isPool⟩

/-- A sweep fails exactly when there is no candidate.  Otherwise it takes the first free one
within its attempts, or the first of the least referenced if it has used them up, or else the
first candidate of all.  It ages the candidates it examined and passed by, leaves the hand one
past the last, and changes nothing else. -/
theorem selectVictim_in_order (hand_lt : pool.hand < pool.capacity)
    (attempts_pos : 1 ≤ maxAttempts) (pinned : List Nat) :
    ((∃ fault, pool.selectVictim maxAttempts pinned = .error fault) ↔
        (pool.candidates pinned).length = 0) ∧
      ((pool.candidates pinned).length ≠ 0 → ∃ victim aged last,
        pool.selectVictim maxAttempts pinned =
            .ok (victim, pool.aging aged ((last + 1) % pool.capacity)) ∧
          pool.Settles maxAttempts (pool.candidates pinned) victim aged last) := by
  have outcome := selectVictim_outcome hand_lt attempts_pos pinned
  cases ran : pool.selectVictim maxAttempts pinned with
  | error fault =>
    rw [ran] at outcome
    have none : pool.candidates pinned = [] :=
      List.eq_nil_iff_forall_not_mem.mpr fun index mem => outcome.2 index (mem_candidates.mp mem)
    simp [none]
  | ok result =>
    obtain ⟨victim, after⟩ := result
    rw [ran] at outcome
    have some : victim.index ∈ pool.candidates pinned := mem_candidates.mpr outcome.2
    have nonempty : (pool.candidates pinned).length ≠ 0 := List.length_pos_of_mem some |>.ne'
    obtain ⟨aged, last, settles, rfl⟩ :=
      (settles_of_sweep ⟨_, _, midway_start hand_lt attempts_pos⟩).of_eq_ok ran
    refine ⟨⟨?_, fun none => absurd none nonempty⟩, fun _ => ⟨victim, aged, last, rfl, settles⟩⟩
    rintro ⟨fault, failed⟩
    cases failed

/-- Three referenced candidates between a locked block and one that is free, but may be pinned. -/
def busy : Pool where
  blocks := #[
    { valid := true, parentValid := true, level := 1, reference := 1 },
    { valid := true, parentValid := true, level := 1, reference := 1 },
    { valid := true, parentValid := true, level := 1, locked := true },
    { valid := true, parentValid := true, level := 1, reference := 2 },
    {}]
  hand := 2

/-- Of two candidates with as few references the one that the hand meets first is taken. -/
theorem least_of_busy :
    ∃ aged last, busy.candidates [4] = [3, 0, 1] ∧
      busy.selectVictim 3 [4] = .ok ({ index := 0, fallback := true },
        busy.aging aged ((last + 1) % busy.capacity)) ∧
      busy.Settles 3 (busy.candidates [4]) { index := 0, fallback := true } aged last := by
  have picks : (busy.selectVictim 3 [4]).map Prod.fst = .ok { index := 0, fallback := true } := by
    decide +kernel
  obtain ⟨victim, aged, last, ran, settles⟩ :=
    (@selectVictim_in_order busy 3 (by decide) (by decide) [4]).2 (by decide)
  rw [ran] at picks
  cases picks
  exact ⟨aged, last, by decide, ran, settles⟩

end Pool

end TrieCache
