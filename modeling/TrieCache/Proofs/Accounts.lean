import TrieCache.Proofs.Growth
import TrieCache.Proofs.Status

/-!
# What the statistics tell

The counters of a cache account for its structure.  Every access is a hit or a miss, and
every hit is one of two kinds; every block built was a victim of one of two kinds.  An
insertion builds one leaf and no more blocks than a path has levels, and an eviction of a
leaf takes one away.  A block is counted as orphaned each time that it loses its parent,
and a block for the store when it joins the queue.
-/

namespace TrieCache

/-! ## Counting -/

section Counting

variable {α : Type}

theorem countP_mem_range {count : Nat} {list : List Nat} (nodup : list.Nodup)
    (below : ∀ index ∈ list, index < count) :
    (List.range count).countP (fun index => decide (index ∈ list)) = list.length := by
  rw [List.countP_eq_length_filter]
  refine List.Perm.length_eq ((List.perm_ext_iff_of_nodup (List.nodup_range.filter _) nodup).mpr ?_)
  intro index
  simp only [List.mem_filter, List.mem_range, decide_eq_true_eq]
  exact ⟨fun found => found.2, fun isMember => ⟨below index isMember, isMember⟩⟩

theorem countP_le_add {list : List α} {whole part other : α → Bool}
    (covered : ∀ member ∈ list, whole member = true → part member = true ∨ other member = true) :
    list.countP whole ≤ list.countP part + list.countP other := by
  induction list with
  | nil => simp
  | cons first rest ih =>
    have here := covered first List.mem_cons_self
    have others := ih fun member isMember => covered member (List.mem_cons_of_mem _ isMember)
    simp only [List.countP_cons]
    revert here
    cases whole first <;> cases part first <;> cases other first <;> simp <;> omega

end Counting

namespace Pool

/-- The number of blocks that stand in a certain way. -/
def census (pool : Pool) (good : Status → Bool) : Nat :=
  (List.range pool.capacity).countP fun index => (pool.statuses index).any good

theorem countP_blocks (pool : Pool) (good : Status → Bool) :
    pool.blocks.countP (fun block => good block.status) = pool.census good := by
  rw [← Array.countP_toList, countP_eq_range, Array.length_toList]
  refine List.countP_congr fun index _ => ?_
  rw [statuses, look, Array.getElem?_toList]
  cases pool.blocks[index]? <;> simp

def attached (pool : Pool) (index : Nat) : Bool :=
  pool.blocks[index]?.any Block.parentValid

/-- The number of slots whose block has lost its parent. -/
def losses (before after : Pool) : Nat :=
  (List.range before.capacity).countP fun index => before.attached index && !after.attached index

/-- How often the block in a slot lost its parent as the pool went through these states. -/
def lossesAlong (pool : Pool) : List Pool → Nat
  | [] => 0
  | next :: rest => pool.losses next + next.lossesAlong rest

theorem attached_eq (pool : Pool) (index : Nat) :
    pool.attached index = (pool.statuses index).any Status.attached := by
  rw [attached, statuses, look]
  cases pool.blocks[index]? <;> rfl

variable {before after : Pool}

theorem losses_eq_zero (kept : ∀ index, before.attached index = true → after.attached index = true) :
    before.losses after = 0 := by
  refine List.countP_eq_zero.mpr fun index _ => ?_
  cases attached : before.attached index with
  | false => simp
  | true => simp [kept index attached]

theorem lossesAlong_append (pool : Pool) (first rest : List Pool) :
    pool.lossesAlong (first ++ rest) =
      pool.lossesAlong first + ((first.getLast?).getD pool).lossesAlong rest := by
  induction first generalizing pool with
  | nil => simp [lossesAlong]
  | cons next others ih =>
    rw [List.cons_append, lossesAlong, lossesAlong, ih, List.getLast?_cons, Nat.add_assoc]
    simp

/-- The first and the last of these states show no loss. -/
theorem lossesAlong_between {pool first middle last : Pool} {stages : List Pool}
    (isMiddle : stages.getLast? = some middle) (early : pool.losses first = 0)
    (late : middle.losses last = 0) :
    pool.lossesAlong (first :: stages ++ [last]) = first.lossesAlong stages := by
  rw [List.cons_append, lossesAlong, lossesAlong_append, isMiddle, early]
  change 0 + (_ + (middle.losses last + 0)) = _
  rw [late]
  omega

/-- A block without a parent never had one, or has lost it. -/
theorem census_orphaned_le (capacity : after.capacity = before.capacity)
    (newly : ∀ index, (after.statuses index).any Status.isOrphaned = true →
      (before.statuses index).any Status.isOrphaned = true ∨ before.attached index = true) :
    after.census Status.isOrphaned ≤ before.census Status.isOrphaned + before.losses after := by
  rw [census, capacity]
  refine countP_le_add fun index _ isOrphaned => ?_
  rcases newly index isOrphaned with already | attached
  · exact .inl already
  · refine .inr ?_
    rw [attached, attached_eq]
    cases stands : after.statuses index with
    | none => simp
    | some status =>
      rw [stands] at isOrphaned
      simp [Status.isOrphaned] at isOrphaned
      simp [isOrphaned.2]

end Pool

namespace Cache

variable {cache before middle after : Cache} {address : Address} {index level : Nat}

def leaves (cache : Cache) : Nat :=
  cache.pool.blocks.countP cache.isLeaf

def orphaned (cache : Cache) : Nat :=
  cache.pool.blocks.countP Block.isOrphaned

theorem leaves_eq (cache : Cache) :
    cache.leaves = cache.pool.census (Status.isLeaf cache.layout.depth) :=
  cache.pool.countP_blocks (Status.isLeaf cache.layout.depth)

theorem orphaned_eq (cache : Cache) :
    cache.orphaned = cache.pool.census Status.isOrphaned :=
  cache.pool.countP_blocks Status.isOrphaned

/-- The counters, the leaves and the orphans of a cache moved together.  An insertion under
way may have built blocks, and a leaf among them, that are not counted yet. -/
structure Moved (before after : Cache) (spent : Stats) (blocks leaves lost handedOut : Nat) : Prop
    extends before.Spends after spent handedOut where
  balanced : spent.Balanced before.layout.depth blocks
  leaves_eq : after.leaves + spent.leafEvictions = before.leaves + spent.insertions + leaves
  orphans : spent.orphanedChildren = lost
  orphaned_le : after.orphaned ≤ before.orphaned + lost

namespace Moved

variable {spent spent' : Stats} {blocks blocks' leaves leaves' lost lost' early late : Nat}

theorem trans (first : before.Moved middle spent blocks leaves lost early)
    (second : middle.Moved after spent' blocks' leaves' lost' late) :
    before.Moved after (spent + spent') (blocks + blocks') (leaves + leaves') (lost + lost')
      (early + late) where
  toSpends := first.toSpends.trans second.toSpends
  balanced := first.balanced.add (first.layout ▸ second.balanced)
  leaves_eq := by
    have before := first.leaves_eq
    have after := second.leaves_eq
    simp only [Stats.add_eq, Stats.plus]
    omega
  orphans := by
    simp only [Stats.add_eq, Stats.plus, first.orphans, second.orphans]
  orphaned_le := by
    have before := first.orphaned_le
    have after := second.orphaned_le
    omega

theorem recorded (moved : cache.Moved after spent blocks 1 lost early) (blocks_pos : 1 ≤ blocks)
    (blocks_le : blocks ≤ cache.layout.depth) :
    cache.Moved (after.record (Stats.recordInsertion · blocks))
      (spent + { insertions := 1, blocksBuilt := blocks }) 0 0 lost early where
  toSpends := by
    have counted : after.Spends (after.record (Stats.recordInsertion · blocks))
      { insertions := 1, blocksBuilt := blocks } 0 := ⟨rfl, rfl, .recordInsertion _ _, rfl⟩
    exact moved.toSpends.trans counted
  balanced := moved.balanced.recorded blocks_pos blocks_le
  leaves_eq := moved.leaves_eq
  orphans := moved.orphans
  orphaned_le := moved.orphaned_le

end Moved

theorem Idle.losses_eq {spent : Stats} (idle : before.Idle after spent) :
    before.pool.losses after.pool = 0 := by
  refine Pool.losses_eq_zero fun index attached => ?_
  rwa [Pool.attached_eq, idle.statuses, ← Pool.attached_eq]

theorem Idle.moved {spent : Stats} {blocks : Nat} (idle : before.Idle after spent)
    (balanced : spent.Balanced before.layout.depth blocks)
    (leaves : spent.leafEvictions = spent.insertions) (orphans : spent.orphanedChildren = 0) :
    before.Moved after spent blocks 0 0 0 where
  toSpends := idle.toSpends
  balanced := balanced
  leaves_eq := by
    rw [Cache.leaves_eq, Cache.leaves_eq, idle.layout, Pool.census, idle.capacity, idle.statuses,
      leaves]
    rfl
  orphans := orphans
  orphaned_le := by
    rw [orphaned_eq, orphaned_eq, Pool.census, idle.capacity, idle.statuses]
    exact Nat.le_refl _

/-- Emptying a block takes the parent from every child it has. -/
theorem Emptied.losses_eq {children : List Nat} {spent : Stats}
    (emptied : before.Emptied after index children spent) :
    before.pool.losses after.pool = children.length := by
  have below : ∀ child ∈ children, child < before.pool.capacity := by
    intro child isChild
    obtain ⟨status, stands, _⟩ := emptied.attached isChild
    obtain ⟨block, found, _⟩ := Pool.block_of_statuses stands
    exact Pool.lt_capacity_of_block found
  rw [← countP_mem_range emptied.nodup below, Pool.losses]
  refine List.countP_congr fun other _ => ?_
  rw [Pool.attached_eq, Pool.attached_eq, emptied.statuses]
  by_cases isChild : other ∈ children
  · obtain ⟨status, stands, attached⟩ := emptied.attached isChild
    simp [stands, isChild, attached]
  · cases before.pool.statuses other <;> simp [isChild]

theorem Emptied.orphaned_le {children : List Nat} {spent : Stats}
    (emptied : before.Emptied after index children spent) :
    after.orphaned ≤ before.orphaned + children.length := by
  rw [orphaned_eq, orphaned_eq, ← emptied.losses_eq]
  refine Pool.census_orphaned_le emptied.capacity fun other isOrphaned => ?_
  rw [emptied.statuses] at isOrphaned
  rw [Pool.attached_eq]
  cases stands : before.pool.statuses other with
  | none => simp [stands] at isOrphaned
  | some status =>
    cases attached : status.attached with
    | true => simp [attached]
    | false =>
      refine .inl ?_
      simp only [stands, Option.map_some, Option.any_some] at isOrphaned
      split at isOrphaned <;> simpa [Status.isOrphaned, attached] using isOrphaned

theorem Emptied.any_statuses {children : List Nat} {spent : Stats}
    (emptied : before.Emptied after index children spent) (good : Status → Bool)
    (blind : ∀ status, good { status with attached := false } = good status) (other : Nat) :
    (after.pool.statuses other).any good = (before.pool.statuses other).any good := by
  rw [emptied.statuses]
  cases before.pool.statuses other with
  | none => rfl
  | some status => by_cases isChild : other ∈ children <;> simp [isChild, blind]

theorem Emptied.leaves_eq {children : List Nat} {spent : Stats}
    (emptied : before.Emptied after index children spent) : after.leaves = before.leaves := by
  rw [Cache.leaves_eq, Cache.leaves_eq, emptied.layout, Pool.census, emptied.capacity]
  refine List.countP_congr fun other _ => ?_
  rw [emptied.any_statuses _ fun _ => rfl]

theorem Rebuilt.leaves_eq (rebuilt : before.Rebuilt after index level) :
    after.leaves + ((before.pool.statuses index).any (Status.isLeaf before.layout.depth)).toNat =
      before.leaves + (level == before.layout.depth).toNat := by
  have others : ∀ other, other ≠ index →
      (after.pool.statuses other).any (Status.isLeaf before.layout.depth) =
        (before.pool.statuses other).any (Status.isLeaf before.layout.depth) := by
    intro other distinct
    rw [rebuilt.statuses, Function.update_of_ne distinct]
  have counted := countP_range_of_eq_off rebuilt.index_lt others
  rw [rebuilt.statuses, Function.update_self, ← rebuilt.statuses] at counted
  rw [Cache.leaves_eq, Cache.leaves_eq, rebuilt.layout, Pool.census, rebuilt.capacity]
  exact counted

theorem Rebuilt.attached (rebuilt : before.Rebuilt after index level) {other : Nat}
    (attached : before.pool.attached other = true) : after.pool.attached other = true := by
  rw [Pool.attached_eq] at attached ⊢
  rw [rebuilt.statuses]
  by_cases here : other = index
  · rw [here, Function.update_self]
    rfl
  · rwa [Function.update_of_ne here]

theorem Rebuilt.orphaned_le (rebuilt : before.Rebuilt after index level) :
    after.orphaned ≤ before.orphaned := by
  have kept := Pool.losses_eq_zero fun _ => rebuilt.attached
  have counted := Pool.census_orphaned_le rebuilt.capacity fun other isOrphaned => ?_
  · rwa [kept, ← orphaned_eq, ← orphaned_eq] at counted
  · rw [rebuilt.statuses] at isOrphaned
    by_cases here : other = index
    · rw [here, Function.update_self] at isOrphaned
      cases isOrphaned
    · rw [Function.update_of_ne here] at isOrphaned
      exact .inl isOrphaned

theorem Emptied.moved {children : List Nat} {spent : Stats}
    (emptied : before.Emptied middle index children spent)
    (rebuilt : middle.Rebuilt after index level) :
    before.Moved after spent 0 (level == before.layout.depth).toNat children.length 0 := by
  have taken := emptied.leaves_eq
  have was := emptied.any_statuses (Status.isLeaf before.layout.depth) (fun _ => rfl) index
  have becomes := rebuilt.leaves_eq
  rw [emptied.layout, was, taken] at becomes
  have orphaned_le := Nat.le_trans rebuilt.orphaned_le emptied.orphaned_le
  have spends := emptied.toSpends.trans rebuilt.toSpends
  rw [Stats.add_none] at spends
  obtain ⟨writebacks, rfl⟩ := emptied.spent_eq
  exact ⟨spends, .apart _ _ _ 0 _, becomes, rfl, orphaned_le⟩

/-- The states of the pool as one level is built: after the sweep, after its victim was
emptied, and after it was built.  Between one and the next no block both gets a parent and
loses one. -/
def levelStages (cache : Cache) (address : Address) (level : Nat) (parent : Option Nat)
    (pinned : List Nat) : Checked (List Pool) := do
  let (victim, pool) ← cache.pool.selectVictim cache.config.maxAttempts.toNat pinned
  let evicted ← evict { cache with pool, stats := cache.stats.recordVictim victim.fallback }
    victim.index
  let built ← evicted.build victim.index level address parent
  return [pool, evicted.pool, built.pool]

def pathStages (cache : Cache) (address : Address) (level : Nat) (parent : Option Nat)
    (pinned : List Nat) : (levels : Nat) → Checked (List Pool)
  | 0 => .ok []
  | levels + 1 => do
    let first ← cache.levelStages address level parent pinned
    let (built, middle) ← cache.buildLevel address level parent pinned
    let rest ← middle.pathStages address (level + 1) (some built) (built :: pinned) levels
    return first ++ rest

/-- The states of the pool as a block is put in. -/
def installStages (cache : Cache) (address : Address) : Checked (List Pool) := do
  let (walk, walked) ← cache.search address
  let attachment ← walked.attachment walk.anchor
  let pinned ← walked.pinnedBy attachment
  let path ← walked.pathStages address attachment.level attachment.parent pinned
    (walked.layout.depth + 1 - attachment.level)
  return walked.pool :: path

/-- The states of the pool in the course of an operation. -/
def stages (cache : Cache) : Command → Checked (List Pool)
  | .insert address _ => cache.installStages address
  | .fill address _ => cache.installStages address
  | _ => .ok []

/-- How often the block in a slot loses its parent in the course of a run. -/
def lossesAll (cache : Cache) : List Command → Checked Nat
  | [] => .ok 0
  | command :: commands => do
    let stages ← cache.stages command
    let (_, after) ← cache.run command
    let later ← after.lossesAll commands
    return cache.pool.lossesAlong (stages ++ [after.pool]) + later

section Inserting

variable {parent : Option Nat} {pinned : List Nat}

theorem moved_of_buildLevel (sound : cache.view.Sound) (tidy : cache.Tidy) {built : Nat}
    (free : cache.SlotFree address { level, parent })
    (guarded : ∀ table ∈ parent, table ∈ pinned)
    (ran : cache.buildLevel address level parent pinned = .ok (built, after)) :
    ∃ stages spent, cache.levelStages address level parent pinned = .ok stages ∧
      stages.getLast? = some after.pool ∧ spent.served = {} ∧
      cache.Moved after spent 1 (level == cache.layout.depth).toNat
        (cache.pool.lossesAlong stages) 0 := by
  obtain ⟨⟨victim, pool⟩, selected, ran⟩ := bind_eq_ok_iff.mp ran
  obtain ⟨evicted, emptied, ran⟩ := bind_eq_ok_iff.mp ran
  obtain ⟨hung, built', same⟩ := bind_eq_ok_iff.mp ran
  cases same
  obtain ⟨swept, _⟩ := Pool.swept_of_selectVictim selected
  obtain ⟨apart, free'⟩ := slotFree_of_evict free guarded selected emptied
  have idle := Idle.of_aged swept.aged (.recordVictim cache.stats victim.fallback) rfl
  have sound' := sound
  rw [← view_of_aged swept.aged (cache.stats.recordVictim victim.fallback)] at sound'
  obtain ⟨children, spent, taken⟩ := emptied_of_evict sound' (tidy.of_swept swept _) emptied
  have rebuilt := rebuilt_of_build apart free' built'
  have moved := (idle.moved (.victim victim.fallback _) rfl rfl).trans (taken.moved rebuilt)
  have losses : cache.pool.lossesAlong [pool, evicted.pool, after.pool] = children.length := by
    have early : cache.pool.losses pool = 0 := idle.losses_eq
    have late : evicted.pool.losses after.pool = 0 := Pool.losses_eq_zero fun _ => rebuilt.attached
    have here : pool.losses evicted.pool = children.length := taken.losses_eq
    rw [Pool.lossesAlong, Pool.lossesAlong, Pool.lossesAlong, Pool.lossesAlong, early, here, late]
    omega
  rw [Nat.add_zero, Nat.zero_add, Nat.zero_add, ← losses] at moved
  have staged : cache.levelStages address level parent pinned =
      .ok [pool, evicted.pool, after.pool] := by
    rw [levelStages, selected, ok_bind]
    dsimp only
    rw [emptied, ok_bind, built']
    rfl
  have served : spent.served = {} := by
    obtain ⟨writebacks, rfl⟩ := taken.spent_eq
    rfl
  exact ⟨_, _, staged, rfl, (Stats.served_add _ _).trans (congrArg _ served), moved⟩

theorem moved_of_anchored (sound : cache.view.Sound) (tidy : cache.Tidy) {built : Nat}
    (level_lt : level < cache.layout.depth)
    (anchored : cache.view.Anchored (cache.layout.blockOf address) level parent pinned)
    (ran : cache.buildLevel address (level + 1) parent pinned = .ok (built, after)) :
    ∃ stages spent, cache.levelStages address (level + 1) parent pinned = .ok stages ∧
      stages.getLast? = some after.pool ∧ spent.served = {} ∧
      cache.Moved after spent 1 (level + 1 == cache.layout.depth).toNat
        (cache.pool.lossesAlong stages) 0 := by
  refine moved_of_buildLevel sound tidy ?_ (fun table isParent => ?_) ran
  · exact slotFree_of_free sound level_lt anchored.route anchored.free
  · cases isParent
    exact anchored.guarded List.suffix_rfl anchored.route

/-- The levels of a path are built one after the other, and one of them is the leaf. -/
theorem moved_of_buildPath (sound : cache.view.Sound) (tidy : cache.Tidy)
    (inRange : cache.layout.contains address = true) {levels : Nat} {built : List Nat}
    (depth_eq : level + levels + 1 = cache.layout.depth)
    (anchored : cache.view.Anchored (cache.layout.blockOf address) level parent pinned)
    (ran : cache.buildPath address (level + 1) parent pinned (levels + 1) = .ok (built, after)) :
    ∃ stages spent, cache.pathStages address (level + 1) parent pinned (levels + 1) = .ok stages ∧
      stages.getLast? = some after.pool ∧ spent.served = {} ∧
      cache.Moved after spent (levels + 1) 1 (cache.pool.lossesAlong stages) 0 := by
  induction levels generalizing cache level parent pinned built with
  | zero =>
    obtain ⟨⟨first, middle⟩, ranLevel, ran⟩ := bind_eq_ok_iff.mp ran
    cases ran
    obtain ⟨stages, spent, staged, last, served, moved⟩ :=
      moved_of_anchored sound tidy (by omega) anchored ranLevel
    rw [beq_iff_eq.mpr (show level + 1 = cache.layout.depth from depth_eq)] at moved
    refine ⟨stages, spent, ?_, last, served, moved⟩
    rw [pathStages, staged, ok_bind, ranLevel, ok_bind]
    simp [pathStages]
  | succ levels ih =>
    obtain ⟨⟨first, middle⟩, ranLevel, ran⟩ := bind_eq_ok_iff.mp ran
    obtain ⟨⟨rest, bottom⟩, ranRest, same⟩ := bind_eq_ok_iff.mp ran
    cases same
    obtain ⟨early, spent, staged, last, served, moved⟩ :=
      moved_of_anchored sound tidy (by omega) anchored ranLevel
    have isTable : (level + 1 == cache.layout.depth) = false := beq_eq_false_iff_ne.mpr (by omega)
    obtain ⟨tidy', sound', shed, below⟩ :=
      (buildTable_outcome sound tidy inRange (by omega) anchored).of_eq_ok ranLevel
    have layout : middle.layout = cache.layout := congrArg Frame.layout shed.frame
    rw [← layout] at below inRange depth_eq
    obtain ⟨late, spent', staged', last', served', moved'⟩ :=
      ih sound' tidy' inRange (by omega) below ranRest
    refine ⟨early ++ late, spent + spent', ?_, ?_, ?_, ?_⟩
    · rw [pathStages, staged, ok_bind, ranLevel, ok_bind]
      dsimp only
      rw [staged', ok_bind]
      rfl
    · rw [List.getLast?_append, last']
      rfl
    · rw [Stats.served_add, served, served']
      rfl
    · rw [Pool.lossesAlong_append, last]
      rw [isTable] at moved
      have both := moved.trans moved'
      rw [Nat.add_comm 1, Bool.toNat_false, Nat.zero_add] at both
      exact both

/-- An insertion is counted once, with one leaf and all the blocks that it built. -/
theorem moved_of_installPath (sound : cache.view.Sound) (tidy : cache.Tidy)
    {content : Nat → Array UInt8 → Array UInt8} {built : List Nat}
    (ran : cache.installPath address content = .ok (built, after)) :
    ∃ stages spent, cache.installStages address = .ok stages ∧
      spent.served = { insertions := 1 } ∧
        cache.Moved after spent 0 0 (cache.pool.lossesAlong (stages ++ [after.pool])) 0 := by
  cases staged_of_installPath sound tidy ran with
  | @mk anchor level levels leaf pinned built walked hung labelled indexed passed searched unmoved
      checked attached pins depth_eq anchored path isLast changed installed =>
    have layout : walked.layout = cache.layout := unmoved.layout
    have inRange := require_eq_ok_iff.mp passed
    have sound' := unmoved.sound sound
    rw [← layout] at inRange depth_eq anchored
    have looked := idle_of_search searched
    obtain ⟨stages, spent, staged, last, served, moved⟩ :=
      moved_of_buildPath sound' unmoved.tidy inRange depth_eq anchored path
    obtain ⟨_, length⟩ :=
      raised_of_buildPath sound' unmoved.tidy inRange (by omega) anchored path
    obtain ⟨evictions, filed⟩ := idle_of_installFastPath installed
    have named : hung.Idle labelled {} := by
      refine .updateBlock changed fun block => ?_
      exact Block.status_mapBytes (content (cache.layout.placeOf address)) block
    have settled := named.trans filed
    rw [Stats.none_add] at settled
    have whole := ((looked.moved (.apart 0 0 0 0 _) rfl rfl).trans moved).trans
      (settled.moved (.apart 0 0 0 _ _) rfl rfl)
    simp only [Nat.zero_add, Nat.add_zero] at whole
    have losses : cache.pool.lossesAlong (walked.pool :: stages ++ [indexed.pool]) =
        walked.pool.lossesAlong stages :=
      Pool.lossesAlong_between last looked.losses_eq settled.losses_eq
    have counted := whole.recorded (by omega) (by rw [← layout]; omega)
    rw [← length, ← losses] at counted
    refine ⟨walked.pool :: stages, _, ?_, ?_, counted⟩
    · rw [installStages, searched, ok_bind]
      dsimp only [Walk.anchor]
      have count : walked.layout.depth + 1 - (level + 1) = levels + 1 := by omega
      rw [attached, ok_bind, pins, ok_bind, count, staged]
      rfl
    · rw [Stats.served_add, Stats.served_add, Stats.served_add, served]
      rfl

end Inserting

/-- The number of blocks that a reply hands out for the store. -/
def Reply.handedOut : Reply → Nat
  | .drained blocks => blocks.size
  | _ => 0

/-- What an operation is counted as when it answers so, in accesses and in insertions. -/
def served : Command × Reply → Stats
  | (.access _ _, .byte found) | (.read _, .byte found) => .ofLookup found.isSome
  | (.write _ _, .written cached) => .ofLookup cached
  | (.insert _ _, _) | (.fill _ _, _) => { insertions := 1 }
  | _ => {}

def servedAll (history : List (Command × Reply)) : Stats :=
  history.foldr (fun entry rest => served entry + rest) {}

section Running

variable {commands : List Command} {replies : List Reply}

theorem Idle.movedAlong {spent : Stats} (idle : cache.Idle after spent)
    (balanced : spent.Balanced cache.layout.depth 0)
    (leaves : spent.leafEvictions = spent.insertions) (orphans : spent.orphanedChildren = 0) :
    cache.Moved after spent 0 0 (cache.pool.lossesAlong [after.pool]) 0 := by
  have lost : cache.pool.lossesAlong [after.pool] = 0 := idle.losses_eq
  rw [lost]
  exact idle.moved balanced leaves orphans

theorem moved_of_access {access : Access} {byte : Option UInt8}
    (ran : cache.access address access = .ok (byte, after)) :
    ∃ spent, spent.served = .ofLookup byte.isSome ∧
      cache.Moved after spent 0 0 (cache.pool.lossesAlong [after.pool]) 0 := by
  obtain ⟨fast, slow, misses, evictions, idle, once, missed⟩ := idle_of_access ran
  refine ⟨_, ?_, idle.movedAlong (.ofAccess once evictions _) rfl rfl⟩
  cases byte with
  | none =>
    have never : fast + slow = 0 := by
      rw [if_pos rfl] at missed
      omega
    rw [Stats.served, Stats.ofAccess, never, missed]
    rfl
  | some byte =>
    have found : fast + slow = 1 := by
      rw [if_neg (Option.some_ne_none byte)] at missed
      omega
    rw [Stats.served, Stats.ofAccess, found, missed]
    rfl

/-- An insertion that returns found the cache sound. -/
theorem Ready.moved_of_installPath (ready : cache.Ready)
    {content : Nat → Array UInt8 → Array UInt8} {built : List Nat}
    (ran : cache.installPath address content = .ok (built, after)) :
    ∃ stages spent, cache.installStages address = .ok stages ∧
      spent.served = { insertions := 1 } ∧
        cache.Moved after spent 0 0 (cache.pool.lossesAlong (stages ++ [after.pool])) 0 := by
  cases ready with
  | sound tidy sound => exact Cache.moved_of_installPath sound tidy ran
  | vacant vacant => exact absurd ran (vacant.installPath_ne _)

theorem moved_of_run (ready : cache.Ready) {command : Command} {reply : Reply}
    (ran : cache.run command = .ok (reply, after)) :
    ∃ stages spent, cache.stages command = .ok stages ∧ spent.served = served (command, reply) ∧
      cache.Moved after spent 0 0 (cache.pool.lossesAlong (stages ++ [after.pool]))
        reply.handedOut := by
  cases command with
  | access address access =>
    obtain ⟨⟨byte, _⟩, ran, same⟩ := bind_eq_ok_iff.mp ran
    cases same
    obtain ⟨spent, served, moved⟩ := moved_of_access ran
    exact ⟨[], spent, rfl, served, moved⟩
  | read address =>
    obtain ⟨⟨byte, _⟩, ran, same⟩ := bind_eq_ok_iff.mp ran
    cases same
    obtain ⟨spent, served, moved⟩ := moved_of_access ran
    exact ⟨[], spent, rfl, served, moved⟩
  | write address value =>
    obtain ⟨⟨cached, _⟩, written, same⟩ := bind_eq_ok_iff.mp ran
    cases same
    obtain ⟨byte, accessed, rfl⟩ := write_eq_ok written
    obtain ⟨spent, served, moved⟩ := moved_of_access accessed
    exact ⟨[], spent, rfl, served, moved⟩
  | insert address value =>
    obtain ⟨⟨leaf, _⟩, inserted, same⟩ := bind_eq_ok_iff.mp ran
    cases same
    obtain ⟨⟨built, _⟩, ran, same⟩ := bind_eq_ok_iff.mp inserted
    cases same
    exact ready.moved_of_installPath ran
  | fill address block =>
    obtain ⟨⟨leaf, _⟩, filled, same⟩ := bind_eq_ok_iff.mp ran
    cases same
    obtain ⟨_, _, filled⟩ := bind_eq_ok_iff.mp filled
    obtain ⟨_, _, filled⟩ := bind_eq_ok_iff.mp filled
    obtain ⟨⟨built, _⟩, ran, same⟩ := bind_eq_ok_iff.mp filled
    cases same
    exact ready.moved_of_installPath ran
  | search address =>
    obtain ⟨⟨walk, _⟩, searched, same⟩ := bind_eq_ok_iff.mp ran
    cases same
    exact ⟨[], {}, rfl, rfl, (idle_of_search searched).movedAlong (.apart 0 0 0 0 _) rfl rfl⟩
  | setLocked index locked =>
    obtain ⟨_, changed, same⟩ := bind_eq_ok_iff.mp ran
    cases same
    have idle : cache.Idle after {} := .updateBlock changed fun _ => rfl
    exact ⟨[], {}, rfl, rfl, idle.movedAlong (.apart 0 0 0 0 _) rfl rfl⟩
  | drain =>
    cases ran
    have lost : cache.pool.lossesAlong [cache.pool] = 0 := (Idle.refl cache).losses_eq
    refine ⟨[], {}, rfl, rfl, ?_⟩
    rw [List.nil_append, lost]
    exact ⟨⟨rfl, rfl, .refl _, Nat.add_comm ..⟩, .apart 0 0 0 0 _, rfl, rfl, Nat.le_refl _⟩
  | flush =>
    cases ran
    obtain ⟨writebacks, idle⟩ := idle_of_cleaned (cleaned_of_flushDirty cache)
    exact ⟨[], { writebacks }, rfl, rfl, idle.movedAlong (.apart 0 0 _ 0 _) rfl rfl⟩
  | retire address =>
    obtain ⟨⟨retired, _⟩, ran, same⟩ := bind_eq_ok_iff.mp ran
    cases same
    obtain ⟨writebacks, idle⟩ := idle_of_cleaned (cleaned_of_retireStale ran)
    exact ⟨[], { writebacks }, rfl, rfl, idle.movedAlong (.apart 0 0 _ 0 _) rfl rfl⟩

/-- So does every run, by induction on its operations. -/
theorem moved_of_runAll (ready : cache.Ready) (ran : cache.runAll commands = .ok (replies, after)) :
    ∃ lost spent, cache.lossesAll commands = .ok lost ∧
      spent.served = servedAll (commands.zip replies) ∧
      cache.Moved after spent 0 0 lost (replies.map Reply.handedOut).sum := by
  induction commands generalizing cache replies with
  | nil =>
    cases ran
    exact ⟨0, {}, rfl, rfl, (Idle.refl _).moved (.apart 0 0 0 0 _) rfl rfl⟩
  | cons command rest ih =>
    obtain ⟨⟨reply, middle⟩, first, ran⟩ := bind_eq_ok_iff.mp ran
    obtain ⟨⟨replies', _⟩, others, same⟩ := bind_eq_ok_iff.mp ran
    cases same
    obtain ⟨stages, spent, staged, served, moved⟩ := moved_of_run ready first
    obtain ⟨lost, spent', lostLater, served', moved'⟩ := ih (ready.run first) others
    refine ⟨_, _, ?_, ?_, moved.trans moved'⟩
    · rw [lossesAll, staged, ok_bind, first, ok_bind]
      dsimp only
      rw [lostLater]
      rfl
    · rw [Stats.served_add, served, served']
      rfl

end Running

/-- What the statistics after a run say about it. -/
structure Accounted (cache : Cache) (commands : List Command) (replies : List Reply)
    (after : Cache) : Prop where
  accesses : after.stats.accesses = after.stats.hits + after.stats.misses
  hits : after.stats.hits = after.stats.fastPathHits + after.stats.slowPathHits
  victims : after.stats.blocksBuilt = after.stats.immediateVictims + after.stats.fallbackVictims
  insertions_le : after.stats.insertions ≤ after.stats.blocksBuilt
  blocksBuilt_le : after.stats.blocksBuilt ≤ after.layout.depth * after.stats.insertions
  leaves : after.leaves + after.stats.leafEvictions = after.stats.insertions
  /-- Every loss of a parent in the course of the run was counted. -/
  losses : cache.lossesAll commands = .ok after.stats.orphanedChildren
  orphaned_le : after.orphaned ≤ after.stats.orphanedChildren
  /-- What was counted for the store was handed out, or is in the queue. -/
  writebacks : after.stats.writebacks =
    (replies.map Reply.handedOut).sum + after.writebacks.size

theorem countP_of_ofConfig {config : Config} (made : ofConfig config = .ok cache)
    {good : Block → Bool} (unbuilt : good {} = false) : cache.pool.blocks.countP good = 0 := by
  obtain ⟨capacity, _, _, _, _, _, pool, _⟩ := ofConfig_spec made
  rw [pool, Array.countP_replicate, unbuilt]
  rfl

/-- As long as no counter is full, the statistics account for all that a cache has done since
it was made. -/
theorem accounted_of_runAll {config : Config} {commands : List Command} {replies : List Reply}
    (made : ofConfig config = .ok cache) (ran : cache.runAll commands = .ok (replies, after))
    (unsaturated : after.stats.Unsaturated) : cache.Accounted commands replies after := by
  obtain ⟨_, _, _, _, _, _, _, _, noQueue⟩ := ofConfig_spec made
  obtain ⟨lost, spent, lossesAll, _, moved⟩ := moved_of_runAll (ready_of_ofConfig made) ran
  have stats : after.stats = spent := by
    have grown := moved.grew {} (stats_of_ofConfig made)
    rw [Stats.none_add] at grown
    exact Stats.eq_of_unsaturated unsaturated grown
  have noLeaves : cache.leaves = 0 := countP_of_ofConfig made rfl
  have noOrphans : cache.orphaned = 0 := countP_of_ofConfig made rfl
  have leaves := moved.leaves_eq
  have orphaned_le := moved.orphaned_le
  have queued := moved.queued
  rw [noLeaves, Nat.zero_add, Nat.add_zero] at leaves
  rw [noOrphans, Nat.zero_add, ← moved.orphans] at orphaned_le
  rw [noQueue, Array.size_empty, Nat.zero_add] at queued
  rw [← moved.orphans] at lossesAll
  obtain ⟨accesses, hits, victims, insertions_le, blocksBuilt_le⟩ := moved.balanced
  rw [← moved.layout] at blocksBuilt_le
  subst stats
  exact { accesses, hits, insertions_le, blocksBuilt_le, leaves, orphaned_le
          victims := victims.symm
          losses := lossesAll
          writebacks := queued.symm.trans (Nat.add_comm ..) }

/-- A table is evicted over four leaves, and two of them are still there at the end. -/
theorem accounted_with_orphans : ∃ cache replies after, ofConfig .tiny = .ok cache ∧
    cache.runAll [.insert 0x00 1, .write 0x00 9, .insert 0x04 3, .insert 0x08 3, .insert 0x0c 3,
      .insert 0x40 3, .read 0x00, .insert 0x80 4, .insert 0xc0 5, .drain, .write 0x40 7,
      .flush] = .ok (replies, after) ∧
    after.stats.Unsaturated ∧ after.stats.orphanedChildren = 4 ∧ after.orphaned = 2 ∧
    cache.Accounted [.insert 0x00 1, .write 0x00 9, .insert 0x04 3, .insert 0x08 3,
      .insert 0x0c 3, .insert 0x40 3, .read 0x00, .insert 0x80 4, .insert 0xc0 5, .drain,
      .write 0x40 7, .flush] replies after := by
  have answers : (do
      let cache ← ofConfig .tiny
      let result ← cache.runAll [.insert 0x00 1, .write 0x00 9, .insert 0x04 3, .insert 0x08 3,
        .insert 0x0c 3, .insert 0x40 3, .read 0x00, .insert 0x80 4, .insert 0xc0 5, .drain,
        .write 0x40 7, .flush]
      return (decide result.2.stats.Unsaturated, result.2.stats.orphanedChildren,
        result.2.orphaned)) = .ok (true, 4, 2) := by decide +kernel
  obtain ⟨cache, made, answers⟩ := bind_eq_ok_iff.mp answers
  obtain ⟨⟨replies, after⟩, ran, answers⟩ := bind_eq_ok_iff.mp answers
  simp only [pure_eq_ok, Except.ok.injEq, Prod.mk.injEq, decide_eq_true_eq] at answers
  obtain ⟨unsaturated, lost, orphaned⟩ := answers
  exact ⟨cache, replies, after, made, ran, unsaturated, lost, orphaned,
    accounted_of_runAll made ran unsaturated⟩

end Cache

end TrieCache
