import TrieCache.Cache.Command
import TrieCache.Proofs.Outcome
import TrieCache.Proofs.Views

/-!
# The outline of a cache

What is left of a cache without its data: the bytes of its blocks become zeros, no block is
dirty, and nothing waits for the store.  Leaving the data out commutes with every step that
looks for a block or replaces one, so no such step depends on the data.
-/

namespace TrieCache

namespace Payload

def outline : Payload → Payload
  | .data bytes => .data (Array.replicate bytes.size 0)
  | payload => payload

end Payload

namespace Block

def outline (block : Block) : Block :=
  { block with dirty := false, payload := block.payload.outline }

variable (block : Block)

@[simp]
theorem links_outline : block.outline.links = block.links := by
  cases block with | mk _ _ _ _ _ _ _ _ payload => cases payload <;> rfl

@[simp]
theorem children_outline : block.outline.children = block.children := by
  rw [children, links_outline, children]

@[simp]
theorem child?_outline (selector : Nat) :
    block.outline.child? selector = block.child? selector := by
  rw [child?, links_outline, child?]

theorem bytes?_outline :
    block.outline.bytes? = block.bytes?.map fun bytes => Array.replicate bytes.size 0 := by
  cases block with | mk _ _ _ _ _ _ _ _ payload => cases payload <;> rfl

theorem outline_setLink (selector : Nat) (link : Link) :
    (block.setLink selector link).outline = block.outline.setLink selector link := by
  cases block with | mk _ _ _ _ _ _ _ _ payload => cases payload <;> rfl

theorem outline_dropChild (child : Nat) :
    (block.dropChild child).outline = block.outline.dropChild child := by
  rw [dropChild, dropChild, links_outline]
  split
  · exact outline_setLink _ _ _
  · rfl

theorem outline_touch (ceiling : Nat) :
    (block.touch ceiling).outline = block.outline.touch ceiling := by
  unfold touch
  change Block.outline (if block.reference < ceiling then _ else _) =
    if block.reference < ceiling then _ else _
  split <;> rfl

theorem outline_mapBytes {change change' : Array UInt8 → Array UInt8}
    (same : ∀ bytes, Array.replicate (change bytes).size 0 =
      change' (Array.replicate bytes.size 0)) :
    (block.mapBytes change).outline = block.outline.mapBytes change' := by
  cases block with
  | mk _ _ _ _ _ _ _ _ payload =>
    cases payload with
    | data bytes => simp only [mapBytes, outline, Payload.outline, same]
    | empty => rfl
    | table links => rfl

theorem outline_setByte (offset : Nat) (value : UInt8) :
    ({ block.setByte offset value with dirty := true } : Block).outline = block.outline := by
  cases block with
  | mk _ _ _ _ _ _ _ _ payload =>
    cases payload <;> simp [setByte, mapBytes, outline, Payload.outline]

end Block

namespace Pool

def outline (pool : Pool) : Pool :=
  { pool with blocks := pool.blocks.map Block.outline }

variable (pool : Pool)

@[simp]
theorem capacity_outline : pool.outline.capacity = pool.capacity :=
  Array.size_map

@[simp]
theorem blocks_outline (index : Nat) :
    pool.outline.blocks[index]? = pool.blocks[index]?.map Block.outline :=
  Array.getElem?_map

theorem get_outline (index : Nat) :
    (pool.get index).map Block.outline = pool.outline.get index := by
  rw [get, get, blocks_outline, missing, missing, capacity_outline]
  cases pool.blocks[index]? <;> rfl

theorem outline_modify {change change' : Block → Block}
    (same : ∀ block, (change block).outline = change' block.outline) (index : Nat) :
    (pool.modify index change).outline = pool.outline.modify index change' := by
  refine congrArg (Pool.mk · pool.hand) (Array.ext_getElem? fun other => ?_)
  have before : (pool.modify index change).outline.blocks[other]? =
      (pool.modify index change).blocks[other]?.map Block.outline :=
    blocks_outline _ _
  have after : (pool.outline.modify index change').blocks[other]? = _ := blocks_modify _ _ _ _
  refine before.trans (Eq.trans ?_ after.symm)
  rw [blocks_modify, blocks_outline]
  split
  · rw [Option.map_map, Option.map_map]
    exact congrArg (Option.map · _) (funext same)
  · rfl

theorem outline_modify_of_same {change : Block → Block}
    (same : ∀ block, (change block).outline = block.outline) (index : Nat) :
    (pool.modify index change).outline = pool.outline := by
  have unchanged : pool.outline.modify index (fun block => block) = pool.outline :=
    congrArg (Pool.mk · pool.hand) (Array.ext_getElem? fun other => by
      simp [Array.getElem?_modify, Function.comp_def])
  refine Eq.trans (pool.outline_modify ?_ index) unchanged
  exact same

/-- How a sweep treats the block under the hand. -/
theorem sweep_of_block {maxAttempts : Nat} {pinned : List Nat} {state : Sweep} {pool : Pool}
    {block : Block} (attempts : state.attempts < maxAttempts)
    (found : pool.blocks[pool.hand]? = some block) :
    pool.sweep maxAttempts pinned state =
      let moved := { pool with hand := (pool.hand + 1) % pool.capacity }
      if block.locked || pinned.contains pool.hand then
        if state.skipped + 1 < pool.capacity then
          moved.sweep maxAttempts pinned { state with skipped := state.skipped + 1 }
        else .error .noVictim
      else if block.isFreeToTake then
        .ok ({ index := pool.hand, fallback := false }, moved)
      else
        sweep maxAttempts pinned
          { attempts := state.attempts + 1, skipped := 0,
            best := state.consider pool.hand block.reference }
          (moved.modify pool.hand fun block => { block with reference := 0 }) := by
  have nonempty : pool.capacity ≠ 0 := Nat.ne_zero_of_lt (lt_capacity_of_block found)
  conv => lhs; unfold sweep
  simp only [if_pos attempts, if_neg nonempty, found]

/-- A sweep sees neither the data of a block nor whether it is dirty. -/
theorem sweep_outline (maxAttempts : Nat) (pinned : List Nat) (state : Sweep) :
    (pool.sweep maxAttempts pinned state).map (Prod.map id outline) =
      pool.outline.sweep maxAttempts pinned state := by
  have outlined {pool : Pool} {block : Block} (found : pool.blocks[pool.hand]? = some block) :
      pool.outline.blocks[pool.outline.hand]? = some block.outline := by
    rw [blocks_outline]
    exact congrArg (Option.map Block.outline) found
  fun_induction sweep maxAttempts pinned state pool with
  | case1 state pool attempts capacity empty =>
    unfold sweep
    simp only [if_pos attempts, capacity_outline]
    rw [if_pos empty]
    rfl
  | case2 state pool attempts capacity index nonempty missing =>
    unfold sweep
    simp only [if_pos attempts, capacity_outline, blocks_outline]
    rw [if_neg nonempty]
    have missing' : pool.blocks[pool.outline.hand]? = none := missing
    rw [missing', Option.map_none, Pool.missing, Pool.missing, capacity_outline]
    rfl
  | case3 state pool attempts capacity index nonempty block found moved passed turn ih =>
    rw [ih, sweep_of_block attempts (outlined found), capacity_outline]
    exact ((if_pos passed).trans (if_pos turn)).symm
  | case4 state pool attempts capacity index nonempty block found passed turn =>
    rw [sweep_of_block attempts (outlined found), capacity_outline]
    exact ((if_pos passed).trans (if_neg turn)).symm
  | case5 state pool attempts capacity index nonempty block found moved candidate free =>
    rw [sweep_of_block attempts (outlined found), capacity_outline]
    exact ((if_neg candidate).trans (if_pos free)).symm
  | case6 state pool attempts capacity index nonempty block found moved candidate taken ih =>
    rw [ih, sweep_of_block attempts (outlined found), capacity_outline]
    refine Eq.trans ?_ ((if_neg candidate).trans (if_neg taken)).symm
    have settled : (moved.modify index fun block => { block with reference := 0 }).outline =
        moved.outline.modify index fun block => { block with reference := 0 } := by
      refine outline_modify moved ?_ index
      exact fun _ => rfl
    exact congrArg (sweep _ _ _) settled
  | case7 state pool used =>
    unfold sweep
    rw [if_neg used]
    cases state.settle <;> rfl

end Pool

namespace Stats

/-- Changed blocks alone decide how many are written back. -/
def outline (stats : Stats) : Stats :=
  { stats with writebacks := 0 }

theorem outline_recordVictim (stats : Stats) (fallback : Bool) :
    (stats.recordVictim fallback).outline = stats.outline.recordVictim fallback := by
  cases fallback <;> rfl

end Stats

namespace Cache

def outline (cache : Cache) : Cache :=
  { cache with pool := cache.pool.outline, writebacks := #[], stats := cache.stats.outline }

variable (cache : Cache) (address : Address)

theorem updateBlock_outline {change change' : Block → Block}
    (same : ∀ block, (change block).outline = change' block.outline) (index : Nat) :
    (cache.updateBlock index change).map outline = cache.outline.updateBlock index change' := by
  have capacity : cache.outline.pool.capacity = cache.pool.capacity := cache.pool.capacity_outline
  have pool : (cache.pool.modify index change).outline = cache.outline.pool.modify index change' :=
    cache.pool.outline_modify same index
  rw [updateBlock, updateBlock, capacity]
  split
  · exact congrArg (fun pool => Except.ok { cache.outline with pool }) pool
  · rw [Pool.missing, Pool.missing, capacity]
    rfl

theorem setLocked_outline (index : Nat) (locked : Bool) :
    (cache.setLocked index locked).map outline = cache.outline.setLocked index locked := by
  refine cache.updateBlock_outline ?_ index
  exact fun _ => rfl

theorem installFastPath_outline (tag index : Nat) :
    (cache.installFastPath tag index).map outline = cache.outline.installFastPath tag index := by
  refine map_bind_eq_of_same _ fun (evicted, fastPath) => ?_
  cases evicted <;> rfl

section Searching

theorem arrive_outline (index : Nat) :
    cache.outline.arrive address index = cache.arrive address index := by
  have got := cache.pool.get_outline index
  rw [arrive, arrive]
  change cache.pool.outline.get index >>= _ = _
  rw [← got]
  cases cache.pool.get index <;> rfl

theorem descend_outline (index level steps : Nat) :
    (cache.descend address index level steps).map (Prod.map id outline) =
      cache.outline.descend address index level steps := by
  induction steps generalizing cache index level with
  | zero =>
    rw [descend, descend, arrive_outline]
    exact map_bind_eq_of_same _ fun _ => rfl
  | succ steps ih =>
    refine map_bind_eq_of_same _ fun selector => ?_
    refine map_bind_eq (cache.pool.get_outline index) fun block => ?_
    rw [Block.child?_outline]
    cases block.child? selector with
    | none => rfl
    | some child =>
      refine map_bind_eq (cache.updateBlock_outline ?_ child) fun touched => ih touched _ _
      exact fun block => block.outline_touch cache.maxReference

theorem search_outline :
    (cache.search address).map (Prod.map id outline) = cache.outline.search address := by
  refine map_bind_eq_of_same _ fun slot => ?_
  refine map_bind_eq_of_same _ fun entry => ?_
  split
  · exact cache.descend_outline address _ _ _
  · rfl

theorem resolve_outline :
    (cache.resolve address).map (Prod.map id outline) = cache.outline.resolve address := by
  refine map_bind_eq (cache.search_outline address) fun (walk, walked) => ?_
  refine map_bind_eq_of_same _ fun tag => ?_
  have same : walked.outline.fastPath = walked.fastPath := rfl
  dsimp only [Prod.map, id]
  rw [same]
  cases walked.fastPath.lookup tag with
  | some index => rfl
  | none =>
    cases walk with
    | hit index =>
      refine map_bind_eq (installFastPath_outline _ tag index) fun _ => rfl
    | miss anchor => rfl

theorem perform_outline (index offset : Nat) (access : Access) :
    (cache.perform index offset access).map (fun result => (true, result.2.outline)) =
      (cache.outline.perform index offset .read).map (fun result => (true, result.2)) := by
  have got := cache.pool.get_outline index
  unfold perform
  change Except.map _ (cache.pool.get index >>= _) =
    Except.map _ (cache.pool.outline.get index >>= _)
  rw [← got]
  cases found : cache.pool.get index with
  | error fault => rfl
  | ok block =>
    simp only [Except.map, ok_bind, Block.bytes?_outline]
    cases block.bytes? with
    | none => rfl
    | some bytes =>
      dsimp only [Option.map]
      by_cases inside : offset < bytes.size
      · have byte : bytes[offset]? = some bytes[offset] := Array.getElem?_eq_getElem inside
        have blank : (Array.replicate bytes.size (0 : UInt8))[offset]? = some 0 := by simp [inside]
        rw [byte, blank]
        cases access with
        | read => rfl
        | write value =>
          have index_lt := Pool.lt_capacity_of_block (Pool.get_eq_ok_iff.mp found)
          have hidden :=
            cache.pool.outline_modify_of_same (Block.outline_setByte · offset value) index
          dsimp only
          rw [updateBlock, if_pos index_lt, ok_bind]
          exact congrArg (fun pool => Except.ok (true, { cache.outline with pool })) hidden
      · have byte : bytes[offset]? = none := Array.getElem?_eq_none (Nat.le_of_not_lt inside)
        have blank : (Array.replicate bytes.size (0 : UInt8))[offset]? = none := by simp [inside]
        rw [byte, blank, Array.size_replicate]
        rfl

/-- Look for the byte of an address, as a read does that does not tell its value. -/
def seek (cache : Cache) (address : Address) : Checked (Bool × Cache) := do
  let (found, cache) ← cache.access address .read
  return (found.isSome, cache)

/-- Of an access only shows whether it found its byte. -/
theorem access_outline (access : Access) :
    (cache.access address access).map (Prod.map Option.isSome outline) =
      cache.outline.seek address := by
  unfold seek Cache.access
  simp only [bind_assoc]
  refine map_bind_eq_of_same (cache.checkAddress address) fun _ => ?_
  refine map_bind_eq ((cache.record Stats.recordAccess).resolve_outline address)
    fun (found, resolved) => ?_
  cases found with
  | none => rfl
  | some index =>
    simp only [Prod.map, id, bind_assoc]
    refine map_bind_eq_of_same (resolved.layout.offset address) fun offset => ?_
    have told (step : Checked (UInt8 × Cache)) (forget : Cache → Cache) :
        (step >>= fun result => .ok (some result.1, result.2)).map
            (Prod.map Option.isSome forget) =
          step.map fun result => (true, forget result.2) := by
      cases step <;> rfl
    refine (told _ outline).trans ((resolved.perform_outline index offset access).trans ?_)
    cases resolved.outline.perform index offset .read <;> rfl

end Searching

section Replacing

theorem unlink_outline (index : Nat) :
    (cache.unlink index).map outline = cache.outline.unlink index := by
  refine map_bind_eq (cache.pool.get_outline index) fun block => ?_
  change Except.map _ (if block.level = 1 then _ else _) = if block.level = 1 then _ else _
  split
  · refine map_bind_eq_of_same _ fun entry => ?_
    split <;> rfl
  · refine cache.updateBlock_outline ?_ _
    exact fun parent => parent.outline_dropChild index

theorem orphan_outline (indices : List Nat) :
    (cache.orphan indices).map outline = cache.outline.orphan indices := by
  induction indices generalizing cache with
  | nil => rfl
  | cons index rest ih =>
    refine map_bind_eq (cache.updateBlock_outline ?_ index) ih
    exact fun _ => rfl

theorem retireData_outline (index : Nat) :
    (cache.retireData index).map outline = cache.outline.retireData index := by
  refine map_bind_eq (cache.pool.get_outline index) fun block => ?_
  have queued : (if block.dirty then cache.queueWriteback block.tag (block.bytes?.getD #[])
      else cache).outline = cache.outline := by
    split <;> rfl
  change Except.map _
      (updateBlock (if block.dirty then cache.queueWriteback block.tag (block.bytes?.getD #[])
        else cache) index _ >>= _) =
    updateBlock cache.outline index _ >>= _
  generalize (if block.dirty then cache.queueWriteback block.tag (block.bytes?.getD #[])
    else cache) = before at queued ⊢
  rw [← queued]
  refine map_bind_eq (before.updateBlock_outline ?_ index) fun retired => ?_
  · exact fun _ => rfl
  · change Except.map _ (.ok (record (if retired.fastPath.lookup block.tag = some index then _
      else _) _)) = .ok (record (if retired.fastPath.lookup block.tag = some index then _ else _) _)
    split <;> rfl

theorem retireTable_outline (index : Nat) :
    (cache.retireTable index).map outline = cache.outline.retireTable index := by
  refine map_bind_eq (cache.pool.get_outline index) fun block => ?_
  rw [Block.children_outline]
  exact map_bind_eq (cache.orphan_outline _) fun _ => rfl

theorem evict_outline (index : Nat) :
    (cache.evict index).map outline = cache.outline.evict index := by
  refine map_bind_eq (cache.pool.get_outline index) fun block => ?_
  change Except.map _ (if block.valid ∧ block.level ≠ 0 then _ else _) =
    if block.valid ∧ block.level ≠ 0 then _ else _
  split
  · have retired (detached : Cache) :
        (if block.level = detached.layout.depth then detached.retireData index
          else detached.retireTable index).map outline =
        if block.level = detached.layout.depth then detached.outline.retireData index
          else detached.outline.retireTable index := by
      split
      · exact detached.retireData_outline index
      · exact detached.retireTable_outline index
    change Except.map _ (if block.parentValid then _ else _) = if block.parentValid then _ else _
    split
    · exact map_bind_eq (cache.unlink_outline index) fun detached => retired detached
    · exact retired cache
  · rfl

theorem freshPayload_outline (level : Nat) :
    (cache.freshPayload level).map Payload.outline = cache.outline.freshPayload level := by
  change Except.map _ (if level = cache.layout.depth then _ else _) =
    if level = cache.layout.depth then _ else _
  split
  · refine map_bind_eq_of_same _ fun size => ?_
    cases made : allocate 1 size (0 : UInt8) with
    | error fault => rw [Payload.blankData, made]; rfl
    | ok bytes =>
      obtain ⟨_, rfl⟩ := allocate_eq_ok_iff.mp made
      have blank : (Payload.data (Array.replicate size 0)).outline =
          .data (Array.replicate size 0) := by
        rw [Payload.outline, Array.size_replicate]
      rw [Payload.blankData, made]
      exact congrArg Except.ok blank
  · refine map_bind_eq_of_same _ fun count => ?_
    exact map_bind_eq_of_same _ fun _ => rfl

theorem hangFromTop_outline (index : Nat) :
    (cache.hangFromTop index address).map (Prod.map id outline) =
      cache.outline.hangFromTop index address := by
  refine map_bind_eq_of_same _ fun slot => ?_
  refine map_bind_eq_of_same _ fun former => ?_
  refine map_bind_eq (updateBlock_outline _ ?_ index) fun _ => rfl
  exact fun _ => rfl

theorem hangFromTable_outline (index level parent : Nat) :
    (cache.hangFromTable index level address parent).map (Prod.map id outline) =
      cache.outline.hangFromTable index level address parent := by
  refine map_bind_eq_of_same _ fun selector => ?_
  refine map_bind_eq (cache.pool.get_outline parent) fun table => ?_
  rw [Block.links_outline]
  cases table.links[selector]? with
  | none => rfl
  | some former =>
    refine map_bind_eq (updateBlock_outline _ ?_ parent) fun linked => ?_
    · exact fun block => block.outline_setLink selector _
    · refine map_bind_eq (updateBlock_outline _ ?_ index) fun _ => rfl
      exact fun _ => rfl

theorem build_outline (index level : Nat) (parent : Option Nat) :
    (cache.build index level address parent).map outline =
      cache.outline.build index level address parent := by
  refine map_bind_eq (cache.freshPayload_outline level) fun payload => ?_
  refine map_bind_eq (updateBlock_outline _ ?_ index) fun made => ?_
  · exact fun _ => rfl
  · have adopted (former : Link) (hung : Cache) :
        (if former.valid ∧ former.target ≠ index then do
            let cache ← hung.orphan [former.target]
            return cache.record (Stats.recordOrphans · 1)
          else return hung).map outline =
        if former.valid ∧ former.target ≠ index then do
            let cache ← hung.outline.orphan [former.target]
            return cache.record (Stats.recordOrphans · 1)
          else return hung.outline := by
      split
      · exact map_bind_eq (hung.orphan_outline _) fun _ => rfl
      · rfl
    cases parent with
    | none =>
      exact map_bind_eq (made.hangFromTop_outline address index) fun (former, hung) =>
        adopted former hung
    | some parent =>
      exact map_bind_eq (made.hangFromTable_outline address index level parent)
        fun (former, hung) => adopted former hung

theorem buildLevel_outline (level : Nat) (parent : Option Nat) (pinned : List Nat) :
    (cache.buildLevel address level parent pinned).map (Prod.map id outline) =
      cache.outline.buildLevel address level parent pinned := by
  refine map_bind_eq (cache.pool.sweep_outline _ _ _) fun (victim, pool) => ?_
  have taken : outline { cache with pool, stats := cache.stats.recordVictim victim.fallback } =
      { cache.outline with
        pool := pool.outline
        stats := cache.outline.stats.recordVictim victim.fallback } :=
    congrArg (fun stats => { cache.outline with pool := pool.outline, stats })
      (cache.stats.outline_recordVictim victim.fallback)
  refine map_bind_eq ((evict_outline _ victim.index).trans (taken ▸ rfl)) fun cleared => ?_
  exact map_bind_eq (cleared.build_outline _ _ _ _) fun _ => rfl

theorem buildPath_outline (level : Nat) (parent : Option Nat) (pinned : List Nat) (levels : Nat) :
    (cache.buildPath address level parent pinned levels).map (Prod.map id outline) =
      cache.outline.buildPath address level parent pinned levels := by
  induction levels generalizing cache level parent pinned with
  | zero => rfl
  | succ levels ih =>
    refine map_bind_eq (cache.buildLevel_outline address level parent pinned)
      fun (built, after) => ?_
    refine map_bind_eq (ih after _ _ _) fun _ => rfl

end Replacing

section Inserting

theorem attachment_outline (anchor : Option Nat) :
    cache.outline.attachment anchor = cache.attachment anchor := by
  cases anchor with
  | none => rfl
  | some index =>
    have got := cache.pool.get_outline index
    rw [attachment, attachment]
    change cache.pool.outline.get index >>= _ = _
    rw [← got]
    cases cache.pool.get index <;> rfl

theorem lineage_outline (index levels : Nat) :
    cache.outline.lineage index levels = cache.lineage index levels := by
  induction levels generalizing index with
  | zero => rfl
  | succ levels ih =>
    have got := cache.pool.get_outline index
    rw [lineage, lineage]
    change cache.pool.outline.get index >>= _ = _
    rw [← got]
    cases cache.pool.get index with
    | error fault => rfl
    | ok block =>
      change (if 1 < block.level then cache.outline.lineage block.parent levels >>= _ else _) = _
      rw [ih]
      rfl

theorem pinnedBy_outline (attachment : Attachment) :
    cache.outline.pinnedBy attachment = cache.pinnedBy attachment := by
  rw [pinnedBy, pinnedBy]
  cases attachment.parent with
  | none => rfl
  | some parent => exact cache.lineage_outline parent _

/-- Of the content that is put in only the size shows. -/
theorem installPath_outline {content content' : Nat → Array UInt8 → Array UInt8}
    (same : ∀ offset bytes, Array.replicate (content offset bytes).size 0 =
      content' offset (Array.replicate bytes.size 0)) :
    (cache.installPath address content).map (Prod.map id outline) =
      cache.outline.installPath address content' := by
  refine map_bind_eq_of_same (cache.checkAddress address) fun _ => ?_
  refine map_bind_eq_of_same (cache.layout.tag address) fun tag => ?_
  refine map_bind_eq (cache.search_outline address) fun (walk, walked) => ?_
  refine map_bind_eq_of_same (walked.checkAbsent address walk tag) fun _ => ?_
  change Except.map _ (walked.attachment walk.anchor >>= _) =
    walked.outline.attachment walk.anchor >>= _
  rw [attachment_outline]
  refine map_bind_eq_of_same _ fun attachment => ?_
  change Except.map _ (walked.pinnedBy attachment >>= _) = walked.outline.pinnedBy attachment >>= _
  rw [pinnedBy_outline]
  refine map_bind_eq_of_same _ fun pinned => ?_
  refine map_bind_eq (walked.buildPath_outline address _ _ _ _) fun (built, raised) => ?_
  dsimp only [Prod.map, id]
  cases built.getLast? with
  | none => rfl
  | some leaf =>
    refine map_bind_eq_of_same (raised.layout.offset address) fun offset => ?_
    refine map_bind_eq (raised.updateBlock_outline ?_ leaf) fun filled => ?_
    · intro block
      exact congrArg (fun block : Block => { block with tag })
        (block.outline_mapBytes (same offset))
    · refine map_bind_eq (filled.installFastPath_outline tag leaf) fun _ => rfl

theorem fill_outline (block : Array UInt8) :
    (cache.fill address block).map (Prod.map id outline) =
      cache.outline.fill address (Array.replicate block.size 0) := by
  refine map_bind_eq_of_same cache.layout.blockSize fun size => ?_
  rw [Array.size_replicate]
  refine map_bind_eq_of_same (require _ _) fun _ => ?_
  exact map_bind_eq (cache.installPath_outline address fun _ _ => rfl) fun _ => rfl

end Inserting

section Publishing

theorem outline_clean (index : Nat) (block : Block) :
    (cache.clean index block).outline = cache.outline := by
  have hidden : (cache.pool.modify index fun block => { block with dirty := false }).outline =
      cache.pool.outline := by
    refine cache.pool.outline_modify_of_same ?_ index
    exact fun _ => rfl
  unfold clean
  cases block.bytes? <;> exact congrArg (fun pool => { cache.outline with pool }) hidden

theorem outline_flushBlock (flushed index : Nat) :
    (cache.flushBlock flushed index).2.outline = cache.outline := by
  unfold flushBlock
  split
  · rfl
  · split
    · exact cache.outline_clean index _
    · rfl

theorem outline_retireBlock (tag : Nat) (live : Option Nat) (retired index : Nat) :
    (cache.retireBlock tag live retired index).2.outline = cache.outline := by
  unfold retireBlock
  split
  · rfl
  · split
    · dsimp only
      split
      · exact cache.outline_clean index _
      · rfl
    · rfl

theorem outline_foldl {step : Nat × Cache → Nat → Nat × Cache}
    (same : ∀ state index, (step state index).2.outline = state.2.outline)
    (indices : List Nat) (state : Nat × Cache) :
    (indices.foldl step state).2.outline = state.2.outline := by
  induction indices generalizing state with
  | nil => rfl
  | cons index rest ih => exact (ih _).trans (same state index)

theorem outline_flushDirty : cache.flushDirty.2.outline = cache.outline :=
  outline_foldl (fun state index => state.2.outline_flushBlock state.1 index) _ _

theorem outline_of_retireStale {retired : Nat} {after : Cache}
    (ran : cache.retireStale address = .ok (retired, after)) : after.outline = cache.outline := by
  obtain ⟨tag, _, ran⟩ := bind_eq_ok_iff.mp ran
  have last : _ = after := congrArg Prod.snd (Except.ok.inj ran)
  rw [← last]
  exact outline_foldl (fun state index => state.2.outline_retireBlock tag _ state.1 index) _ _

end Publishing

end Cache

end TrieCache
