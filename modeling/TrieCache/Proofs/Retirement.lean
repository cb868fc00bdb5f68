import Mathlib.Logic.Function.Iterate
import TrieCache.Proofs.Guard
import TrieCache.Proofs.Index

/-!
# What a retirement cleans

A retirement goes over the pool once and cleans the copies of a block, all but the one that
the fast path leads to.  A copy that only a walk leads to counts among the others: it is
cleaned and queued like a copy that nothing leads to.  So the copies that nothing leads to are
the ones that are retired exactly where whatever is found is found on the fast path, as it is
after a miss.
-/

namespace TrieCache.Cache

variable {cache after : Cache} {address : Address} {tag index : Nat} {retired : List Nat}

/-- The fast path leads from the block of an address to this place. -/
def OnFastPath (cache : Cache) (address : Address) (index : Nat) : Prop :=
  ∃ tag, cache.layout.tag address = .ok tag ∧ cache.fastPath.lookup tag = some index

/-- Fast path or walk lead from an address to this place. -/
def Finds (cache : Cache) (address : Address) (index : Nat) : Prop :=
  cache.OnFastPath address index ∨ ∃ walked, cache.search address = .ok (.hit index, walked)

/-- What a changed block has for the store. -/
def unsaved? (cache : Cache) (index : Nat) : Option Writeback :=
  cache.pool.blocks[index]?.bind fun block =>
    if block.dirty then some { tag := block.tag, bytes := block.bytes?.getD #[] } else none

/-- Blocks were cleaned, and those that had changed were queued, in the order of the pool. -/
structure Retires (cache : Cache) (retired : List Nat) (after : Cache) : Prop where
  blocks (index : Nat) : after.pool.blocks[index]? =
    if index ∈ retired then
      cache.pool.blocks[index]?.map fun block => { block with dirty := false }
    else cache.pool.blocks[index]?
  queue : after.writebacks = cache.writebacks ++ (retired.filterMap cache.unsaved?).toArray
  stats : after.stats = Stats.recordWriteback^[(retired.filterMap cache.unsaved?).length] cache.stats
  rest : after = { cache with
    pool := { cache.pool with blocks := after.pool.blocks }
    writebacks := after.writebacks
    stats := after.stats }

/-- A retirement cleans and counts the copies of the block, all but those that it spares. -/
def RetiresBut (cache : Cache) (address : Address) (spared : Nat → Prop) : Prop :=
  ∃ tag retired after, cache.layout.tag address = .ok tag ∧
    cache.retireStale address = .ok (retired.length, after) ∧ cache.Retires retired after ∧
      retired.Pairwise (· < ·) ∧
        ∀ index, index ∈ retired ↔ (∃ block, cache.Carries tag index block) ∧ ¬ spared index

section Sweep

theorem Retires.refl (cache : Cache) : cache.Retires [] cache where
  blocks _ := by simp
  queue := by simp
  stats := rfl
  rest := rfl

theorem Retires.layout (retires : cache.Retires retired after) : after.layout = cache.layout := by
  rw [retires.rest]

theorem Retires.block_of_notMem (retires : cache.Retires retired after) (fresh : index ∉ retired) :
    after.pool.blocks[index]? = cache.pool.blocks[index]? := by
  rw [retires.blocks, if_neg fresh]

theorem Retires.pass {block : Block} (retires : cache.Retires retired after)
    (found : cache.pool.blocks[index]? = some block) (isClean : block.dirty = false) :
    cache.Retires (retired ++ [index]) after := by
  have nothing : [index].filterMap cache.unsaved? = [] := by
    simp [unsaved?, found, isClean]
  refine ⟨fun other => ?_, ?_, ?_, retires.rest⟩
  · rw [retires.blocks]
    by_cases here : other = index
    · subst here
      have same : ({ block with dirty := false } : Block) = block := by rw [← isClean]
      simp [found, same]
    · simp [here]
  · rw [List.filterMap_append, nothing, List.append_nil, retires.queue]
  · rw [List.filterMap_append, nothing, List.append_nil, retires.stats]

theorem Retires.clean {block : Block} {bytes : Array UInt8} (retires : cache.Retires retired after)
    (fresh : index ∉ retired) (found : cache.pool.blocks[index]? = some block)
    (isDirty : block.dirty = true) (isBytes : block.bytes? = some bytes) :
    cache.Retires (retired ++ [index]) (after.clean index block) := by
  have sent : [index].filterMap cache.unsaved? = [{ tag := block.tag, bytes }] := by
    simp [unsaved?, found, isDirty, isBytes]
  have cleaned : after.clean index block = { after.queueWriteback block.tag bytes with
      pool := after.pool.modify index fun block => { block with dirty := false } } := by
    simp only [Cache.clean, isBytes]
    rfl
  rw [cleaned]
  refine ⟨fun other => ?_, ?_, ?_, ?_⟩
  · change (after.pool.modify index _).blocks[other]? = _
    rw [Pool.blocks_modify, retires.blocks]
    by_cases here : index = other
    · subst here
      simp [fresh]
    · simp [here, Ne.symm here]
  · change after.writebacks.push _ = _
    rw [List.filterMap_append, sent, retires.queue]
    simp
  · change after.stats.recordWriteback = _
    rw [List.filterMap_append, sent, List.length_append, List.length_singleton,
      Function.iterate_succ_apply', retires.stats]
  · rw [retires.rest]
    rfl

def isStale (cache : Cache) (tag : Nat) (live : Option Nat) (index : Nat) : Bool :=
  live != some index &&
    cache.pool.blocks[index]?.any fun block => cache.isLeaf block && block.tag == tag

theorem isStale_iff {live : Option Nat} : cache.isStale tag live index = true ↔
    (∃ block, cache.Carries tag index block) ∧ live ≠ some index := by
  simp only [isStale, Bool.and_eq_true, bne_iff_ne, Option.any_eq_true, isLeaf_iff, beq_iff_eq]
  constructor
  · rintro ⟨other, block, found, ⟨valid, level⟩, tagged⟩
    exact ⟨⟨block, found, valid, level, tagged⟩, other⟩
  · rintro ⟨⟨block, found, valid, level, tagged⟩, other⟩
    exact ⟨other, block, found, ⟨valid, level⟩, tagged⟩

theorem Retires.retireBlock (tidy : cache.Tidy) (retires : cache.Retires retired after)
    (fresh : index ∉ retired) (tag : Nat) (live : Option Nat) :
    (after.retireBlock tag live retired.length index).1 =
        (retired ++ [index].filter (cache.isStale tag live)).length ∧
      cache.Retires (retired ++ [index].filter (cache.isStale tag live))
        (after.retireBlock tag live retired.length index).2 := by
  rw [Cache.retireBlock, retires.block_of_notMem fresh]
  cases found : cache.pool.blocks[index]? with
  | none =>
    have spared : cache.isStale tag live index = false := by simp [isStale, found]
    simpa [spared] using retires
  | some block =>
    have sameLeaf : after.isLeaf block = cache.isLeaf block := by
      rw [isLeaf, isLeaf, retires.layout]
    have stale : cache.isStale tag live index =
        (live != some index && (cache.isLeaf block && block.tag == tag)) := by
      simp [isStale, found]
    dsimp only
    rw [sameLeaf, ← stale, List.filter_singleton]
    cases isStale : cache.isStale tag live index with
    | false => simpa using retires
    | true =>
      rw [stale, Bool.and_eq_true, Bool.and_eq_true, isLeaf_iff] at isStale
      obtain ⟨_, ⟨valid, level⟩, _⟩ := isStale
      obtain ⟨bytes, payload, _⟩ := tidy.data_of_leaf found valid level
      have isBytes : block.bytes? = some bytes := by rw [Block.bytes?, payload]
      rw [if_pos rfl, cond_true]
      refine ⟨by rw [List.length_append, List.length_singleton], ?_⟩
      cases isDirty : block.dirty with
      | false => exact retires.pass found isDirty
      | true => exact retires.clean fresh found isDirty isBytes

/-- The pass over the pool, by induction on how far it has come. -/
theorem retires_below (tidy : cache.Tidy) (tag : Nat) (live : Option Nat) (count : Nat) :
    ((List.range count).foldl (fun (retired, cache) index =>
        retireBlock cache tag live retired index) (0, cache)).1 =
        ((List.range count).filter (cache.isStale tag live)).length ∧
      cache.Retires ((List.range count).filter (cache.isStale tag live))
        ((List.range count).foldl (fun (retired, cache) index =>
          retireBlock cache tag live retired index) (0, cache)).2 := by
  induction count with
  | zero => exact ⟨rfl, .refl cache⟩
  | succ count ih =>
    obtain ⟨counted, retires⟩ := ih
    have fresh : count ∉ (List.range count).filter (cache.isStale tag live) := by simp
    have next := retires.retireBlock tidy fresh tag live
    rw [← counted] at next
    rw [List.range_succ, List.filter_append, List.foldl_append]
    exact next

/-- A retirement spares what is on the fast path. -/
theorem retiresBut_onFastPath (tidy : cache.Tidy) (isTag : cache.layout.tag address = .ok tag) :
    cache.RetiresBut address (cache.OnFastPath address) := by
  obtain ⟨counted, retires⟩ :=
    retires_below tidy tag (cache.fastPath.lookup tag) cache.pool.capacity
  refine ⟨tag, _, _, isTag, ?_, retires, List.pairwise_lt_range.filter _, fun index => ?_⟩
  · rw [retireStale, isTag, ok_bind, ← counted]
    rfl
  · rw [List.mem_filter, List.mem_range, isStale_iff]
    have leads : cache.OnFastPath address index ↔ cache.fastPath.lookup tag = some index := by
      constructor
      · rintro ⟨tag', isTag', leads⟩
        cases isTag.symm.trans isTag'
        exact leads
      · exact fun leads => ⟨tag, isTag, leads⟩
    rw [leads]
    constructor
    · exact And.right
    · rintro ⟨⟨block, carries⟩, other⟩
      exact ⟨Pool.lt_capacity_of_block carries.found, ⟨block, carries⟩, other⟩

end Sweep

section Finding

theorem finds_of_resolve {resolved : Cache}
    (ran : cache.resolve address = .ok (some index, resolved)) : cache.Finds address index := by
  cases resolved_of_resolve ran with
  | direct searched isTag leads =>
    obtain ⟨pool, _, _, rfl⟩ := aged_of_search searched
    exact .inl ⟨_, isTag, leads⟩
  | walked searched => exact .inr ⟨_, searched⟩

theorem Ready.carries_of_finds (ready : cache.Ready) (isTag : cache.layout.tag address = .ok tag)
    (finds : cache.Finds address index) : ∃ block, cache.Carries tag index block := by
  have locates : cache.Locates tag index := by
    rcases finds with ⟨tag', isTag', leads⟩ | ⟨walked, searched⟩
    · cases isTag.symm.trans isTag'
      exact .inl leads
    · exact .inr ⟨address, walked, isTag, searched⟩
  cases ready with
  | sound tidy sound =>
    obtain ⟨node, isNode, level, tagged⟩ := sound.node_of_resolves (locates.resolves sound tidy)
    obtain ⟨block, found, valid, rfl⟩ := block_of_node isNode
    exact ⟨block, found, valid, level, tagged⟩
  | vacant vacant => exact absurd locates (vacant.not_locates tag index)

/-- A retirement spares all that is found only where all of it is on the fast path. -/
theorem Ready.retiresBut_finds_iff (ready : cache.Ready)
    (spares : cache.RetiresBut address (cache.OnFastPath address)) :
    cache.RetiresBut address (cache.Finds address) ↔
      ∀ index, cache.Finds address index → cache.OnFastPath address index := by
  obtain ⟨tag, retired, after, isTag, ran, retires, sorted, mem_iff⟩ := spares
  constructor
  · rintro ⟨tag', fewer, after', isTag', ran', _, sorted', mem_iff'⟩ index finds
    cases isTag.symm.trans isTag'
    have length_eq : retired.length = fewer.length :=
      congrArg Prod.fst (Except.ok.inj (ran.symm.trans ran'))
    -- Both lists have as many places, and the places of one are among those of the other.
    have subset : fewer ⊆ retired := fun other member =>
      (mem_iff other).mpr ⟨((mem_iff' other).mp member).1,
        fun leads => ((mem_iff' other).mp member).2 (.inl leads)⟩
    have nodup : fewer.Nodup := sorted'.imp Nat.ne_of_lt
    have same : fewer.Perm retired :=
      (nodup.subperm subset).perm_of_length_le (Nat.le_of_eq length_eq)
    by_contra hidden
    have member : index ∈ fewer :=
      same.mem_iff.mpr ((mem_iff index).mpr ⟨ready.carries_of_finds isTag finds, hidden⟩)
    exact ((mem_iff' index).mp member).2 finds
  · intro onPath
    refine ⟨tag, retired, after, isTag, ran, retires, sorted, fun index => (mem_iff index).trans ?_⟩
    exact and_congr_right fun _ => not_congr ⟨.inl, onPath index⟩

end Finding

/-- Whatever operations a fresh cache carries out, a retirement answers, and it cleans, counts
and queues the copies of the block that the fast path does not lead to.  These are the copies
that neither fast path nor walk find exactly where the walk finds none that the fast path does
not; an access takes one of those that are found. -/
theorem retiresBut_of_runAll {config : Config} {commands : List Command} {replies : List Reply}
    (made : ofConfig config = .ok cache) (ran : cache.runAll commands = .ok (replies, after))
    (address : Address) :
    after.RetiresBut address (after.OnFastPath address) ∧
      (after.RetiresBut address (after.Finds address) ↔
        ∀ index, after.Finds address index → after.OnFastPath address index) ∧
      ∀ index resolved, after.resolve address = .ok (some index, resolved) →
        after.Finds address index := by
  have ready := (ready_of_ofConfig made).runAll ran
  have spares := retiresBut_onFastPath ready.tidy (ready.tag_eq address)
  exact ⟨spares, ready.retiresBut_finds_iff spares, fun _ _ => finds_of_resolve⟩

/-- A locked leaf has lost its table and its place on the fast path: it is the one copy that
is retired. -/
theorem retiresBut_after_orphaning : ∃ cache after,
    ofConfig { Config.tiny with fastPathSize := 1 } = .ok cache ∧
      cache.runAll [.insert 0x01 1, .write 0x02 9, .setLocked 1 true, .insert 0x08 3,
        .insert 0x10 4, .insert 0x18 5, .insert 0x20 6] =
          .ok ([.index 1, .written true, .done, .index 3, .index 5, .index 7, .index 2], after) ∧
      (after.retireStale 0x01).map Prod.fst = .ok 1 ∧
      after.RetiresBut 0x01 (after.OnFastPath 0x01) ∧
      (after.RetiresBut 0x01 (after.Finds 0x01) ↔
        ∀ index, after.Finds 0x01 index → after.OnFastPath 0x01 index) ∧
      ∀ index resolved, after.resolve 0x01 = .ok (some index, resolved) →
        after.Finds 0x01 index := by
  have answers : (do
      let cache ← ofConfig { Config.tiny with fastPathSize := 1 }
      let result ← cache.runAll [.insert 0x01 1, .write 0x02 9, .setLocked 1 true, .insert 0x08 3,
        .insert 0x10 4, .insert 0x18 5, .insert 0x20 6]
      return (result.1, (result.2.retireStale 0x01).map Prod.fst)) =
        .ok ([.index 1, .written true, .done, .index 3, .index 5, .index 7, .index 2], .ok 1) := by
    decide +kernel
  obtain ⟨cache, made, answers⟩ := bind_eq_ok_iff.mp answers
  obtain ⟨⟨replies, after⟩, ran, answers⟩ := bind_eq_ok_iff.mp answers
  simp only [pure_eq_ok, Except.ok.injEq, Prod.mk.injEq] at answers
  obtain ⟨rfl, retired⟩ := answers
  exact ⟨cache, after, made, ran, retired, retiresBut_of_runAll made ran 0x01⟩

/-- A changed leaf that was pushed off the fast path is cleaned, queued and counted, although
the walk still leads to it. -/
theorem not_retiresBut_finds :
    (∃ cache replies after walked retired,
      ofConfig { Config.tiny with fastPathSize := 1 } = .ok cache ∧
        cache.runAll [.insert 0x01 1, .write 0x02 9, .insert 0x08 3] = .ok (replies, after) ∧
        after.layout.contains 0x01 = true ∧ after.search 0x01 = .ok (.hit 1, walked) ∧
        after.retireStale 0x01 = .ok (1, retired) ∧
        retired.writebacks = #[{ tag := 0, bytes := #[0, 1, 9, 0] }]) ∧
    ¬ ∀ (config : Config) (cache after : Cache) (commands : List Command) (replies : List Reply)
      (address : Address), ofConfig config = .ok cache →
        cache.runAll commands = .ok (replies, after) → after.layout.contains address = true →
          after.RetiresBut address (after.Finds address) := by
  have answers : (do
      let cache ← ofConfig { Config.tiny with fastPathSize := 1 }
      let result ← cache.runAll [.insert 0x01 1, .write 0x02 9, .insert 0x08 3]
      let walked ← result.2.search 0x01
      let tag ← result.2.layout.tag 0x01
      let retired ← result.2.retireStale 0x01
      return (result.2.layout.contains 0x01, walked.1, result.2.fastPath.lookup tag, retired.1,
        retired.2.writebacks)) =
        .ok (true, .hit 1, none, 1, #[{ tag := 0, bytes := #[0, 1, 9, 0] }]) := by
    decide +kernel
  obtain ⟨cache, made, answers⟩ := bind_eq_ok_iff.mp answers
  obtain ⟨⟨replies, after⟩, ran, answers⟩ := bind_eq_ok_iff.mp answers
  obtain ⟨⟨walk, walked⟩, searched, answers⟩ := bind_eq_ok_iff.mp answers
  obtain ⟨tag, isTag, answers⟩ := bind_eq_ok_iff.mp answers
  obtain ⟨⟨count, retired⟩, retires, answers⟩ := bind_eq_ok_iff.mp answers
  simp only [pure_eq_ok, Except.ok.injEq, Prod.mk.injEq] at answers
  obtain ⟨inside, rfl, absent, rfl, queue⟩ := answers
  refine ⟨⟨cache, replies, after, walked, retired, made, ran, inside, searched, retires, queue⟩,
    fun all => ?_⟩
  have ready := (ready_of_ofConfig made).runAll ran
  have onPath := (ready.retiresBut_finds_iff (retiresBut_onFastPath ready.tidy isTag)).mp
    (all _ cache after _ _ 0x01 made ran inside)
  obtain ⟨tag', isTag', leads⟩ := onPath 1 (.inr ⟨walked, searched⟩)
  cases isTag.symm.trans isTag'
  rw [absent] at leads
  cases leads

end TrieCache.Cache
