import TrieCache.Proofs.Growth
import TrieCache.Proofs.Outline

/-!
# The fast path as an index

A fast path with room for as many entries as the pool has blocks is an index of the data
blocks: it leads from the tag of each of them to it, and nowhere else.  Its entries lead to
different data blocks.  So when a block becomes a data block there is always room for one
entry more, and none is pushed out.  A data block that loses its way down keeps its entry.
No access has to rely on the walk, and no block ever has a second copy.
-/

namespace TrieCache

namespace View

/-- The fast path leads to every copy, and has room for as many as the pool can hold. -/
structure Indexed (view : View) : Prop where
  room : view.frame.capacity ≤ view.frame.fastPathCapacity
  leads {index : Nat} {copy : Copy} : view.copies index = some copy →
    view.shortcut copy.tag = some index

variable {before after : View}

theorem Indexed.of_copies (indexed : before.Indexed) (frame : after.frame = before.frame)
    (shortcut : after.shortcut = before.shortcut)
    (copies : ∀ {index : Nat} {copy : Copy}, after.copies index = some copy →
      ∃ older, before.copies index = some older ∧ older.tag = copy.tag) : after.Indexed := by
  refine ⟨frame ▸ indexed.room, fun {index copy} holds => ?_⟩
  obtain ⟨older, holds', tagged⟩ := copies holds
  rw [shortcut, ← tagged]
  exact indexed.leads holds'

/-- An access finds its copy on the fast path, which stays as it is. -/
theorem Indexed.accessed {tag place : Nat} {access : Access} {byte : Option UInt8}
    (indexed : before.Indexed) (accessed : before.Accessed tag place access byte after) :
    after.Indexed := by
  refine indexed.of_copies accessed.frame ?_ accessed.exists_copy_before
  cases accessed with
  | miss => rfl
  | @hit middle index copy _ rerouted resolves direct holds tagged answer =>
    have leads := indexed.leads holds
    rw [tagged] at leads
    have same := congrArg View.shortcut (direct (by simp [leads]))
    exact same

theorem Indexed.published {chosen : Nat → Nat → Bool} (indexed : before.Indexed)
    (published : before.Published chosen after) : after.Indexed :=
  indexed.of_copies published.frame (by rw [published.same]) published.exists_copy_before

end View

namespace Cache

variable {cache after : Cache} {address : Address}

section Walks

/-- A walk finds nothing that the fast path does not lead to. -/
def Direct (cache : Cache) : Prop :=
  ∀ {address : Address} {index : Nat} {walked : Cache},
    cache.search address = .ok (.hit index, walked) →
      cache.fastPath.lookup (cache.layout.blockOf address) = some index

theorem direct_of_indexed (sound : cache.view.Sound) (tidy : cache.Tidy)
    (indexed : cache.view.Indexed) : cache.Direct := by
  intro address index walked searched
  obtain ⟨_, route⟩ := (search_outcome sound tidy address).of_eq_ok searched
  obtain ⟨copy, holds, tagged⟩ := copy_of_resolves sound (.inr route)
  rw [← tagged]
  exact indexed.leads holds

theorem Vacant.direct (vacant : cache.Vacant) : cache.Direct :=
  fun searched => nomatch (vacant.search_eq searched).1

theorem steady_of_perform {index offset : Nat} {access : Access} {byte : UInt8}
    (ran : cache.perform index offset access = .ok (byte, after)) : cache.Steady after := by
  obtain ⟨block, _, ran⟩ := bind_eq_ok_iff.mp ran
  split at ran
  · cases ran
  · split at ran
    · cases ran
    · cases access with
      | read =>
        cases ran
        exact .refl _
      | write value =>
        obtain ⟨_, changed, same⟩ := bind_eq_ok_iff.mp ran
        cases same
        exact stable_steady.updateBlock changed

theorem steady_of_resolve {found : Option Nat} (direct : cache.Direct)
    (isTag : cache.layout.tag address = .ok (cache.layout.blockOf address))
    (ran : cache.resolve address = .ok (found, after)) : cache.Steady after := by
  cases resolved_of_resolve ran with
  | direct searched =>
    obtain ⟨pool, _, _, rfl⟩ := aged_of_search searched
    exact ⟨rfl, rfl, rfl⟩
  | walked searched isTag' absent =>
    obtain ⟨pool, _, _, rfl⟩ := aged_of_search searched
    cases isTag.symm.trans isTag'
    rw [direct searched] at absent
    cases absent
  | missed searched =>
    obtain ⟨pool, _, _, rfl⟩ := aged_of_search searched
    exact ⟨rfl, rfl, rfl⟩

theorem steady_of_access {access : Access} {byte : Option UInt8}
    (direct : (cache.record Stats.recordAccess).Direct)
    (isTag : cache.layout.tag address = .ok (cache.layout.blockOf address))
    (ran : cache.access address access = .ok (byte, after)) : cache.Steady after := by
  obtain ⟨_, _, ran⟩ := bind_eq_ok_iff.mp ran
  obtain ⟨⟨found, resolved⟩, isFound, ran⟩ := bind_eq_ok_iff.mp ran
  have steady : cache.Steady resolved := by
    have resolves := steady_of_resolve direct isTag isFound
    exact ⟨resolves.layout, resolves.slowPathHits, resolves.fastPathEvictions⟩
  cases found with
  | none =>
    cases ran
    exact steady
  | some index =>
    obtain ⟨_, _, ran⟩ := bind_eq_ok_iff.mp ran
    obtain ⟨⟨_, _⟩, performed, same⟩ := bind_eq_ok_iff.mp ran
    cases same
    exact steady.trans (steady_of_perform performed)

end Walks

section Insertion

theorem steady_of_installFastPath {tag index : Nat} (recorded : cache.fastPath.Recorded)
    (absent : cache.fastPath.lookup tag = none)
    (room : cache.fastPath.size < cache.fastPath.capacity)
    (ran : cache.installFastPath tag index = .ok after) :
    cache.Steady after ∧ ∀ other, other ≠ tag →
      after.fastPath.lookup other = cache.fastPath.lookup other := by
  obtain ⟨⟨evicted, fastPath⟩, inserted, same⟩ := bind_eq_ok_iff.mp ran
  cases FastPath.evicted_eq_none absent room inserted
  cases same
  obtain ⟨_, _, _, _, elsewhere⟩ := (FastPath.insert_outcome recorded tag index).of_eq_ok inserted
  refine ⟨⟨rfl, rfl, rfl⟩, fun other distinct => ?_⟩
  have kept := elsewhere other distinct
  rwa [if_neg nofun] at kept

variable {tag level leaf : Nat} {anchor : Option Nat} {built : List Nat} {labelled : Cache}

/-- The entries that are left when a path was built lead to other places than its leaf. -/
theorem size_lt_of_grown (sound : cache.view.Sound) (indexed : cache.view.Indexed)
    (grown : cache.view.Grown tag level anchor built labelled.view) (isBuilt : leaf ∈ built)
    (leaf_lt : leaf < cache.pool.capacity) :
    labelled.fastPath.size < labelled.fastPath.capacity := by
  have kept {other index : Nat} (leads : labelled.fastPath.lookup other = some index) :
      cache.view.shortcut other = some index ∧ index ∉ built := grown.shortcut.mp leads
  have inside {other index : Nat} (leads : labelled.fastPath.lookup other = some index) :
      index ∈ (List.range cache.pool.capacity).erase leaf := by
    obtain ⟨node, isNode, _⟩ := sound.tagged (kept leads).1
    obtain ⟨block, found, _⟩ := block_of_node isNode
    have distinct : index ≠ leaf := by
      rintro rfl
      exact (kept leads).2 isBuilt
    exact (List.mem_erase_of_ne distinct).mpr
      (List.mem_range.mpr (Pool.lt_capacity_of_block found))
  have injective {first second index : Nat} (one : labelled.fastPath.lookup first = some index)
      (other : labelled.fastPath.lookup second = some index) : first = second := by
    obtain ⟨node, isNode, _, tagged⟩ := sound.tagged (kept one).1
    obtain ⟨node', isNode', _, tagged'⟩ := sound.tagged (kept other).1
    cases isNode.symm.trans isNode'
    exact tagged.symm.trans tagged'
  have few := FastPath.size_le_of_injective inside injective
  rw [List.length_erase_of_mem (List.mem_range.mpr leaf_lt), List.length_range] at few
  have capacity : labelled.fastPath.capacity = cache.fastPath.capacity :=
    congrArg Frame.fastPathCapacity grown.frame
  have room : cache.pool.capacity ≤ cache.fastPath.capacity := indexed.room
  omega

theorem PutIn.not_copy {bytes : Array UInt8} (putIn : cache.PutIn address bytes built leaf after)
    (layout : after.layout = cache.layout) {index : Nat} (isBuilt : index ∈ built)
    (distinct : index ≠ leaf) (copy : Copy) : after.view.copies index ≠ some copy := by
  intro holds
  obtain ⟨_, _, level, _, _, length_eq, _, reached⟩ := putIn.missing
  obtain ⟨place, isPlace⟩ := List.mem_iff_getElem?.mp isBuilt
  have place_lt := (List.getElem?_eq_some_iff.mp isPlace).1
  have notLast : place ≠ built.length - 1 := by
    rintro rfl
    rw [← List.getLast?_eq_getElem?, putIn.last] at isPlace
    exact distinct (Option.some.inj isPlace).symm
  obtain ⟨block, found, _, _, level_eq⟩ := reached place index isPlace
  obtain ⟨block', found', seen⟩ := Pool.look_eq_some_iff.mp holds
  cases found.symm.trans found'
  have isLeaf := (Block.copy?_eq_some_iff.mp seen).2.1
  rw [layout] at isLeaf
  omega

/-- The entry of a victim goes before that of the new leaf comes. -/
theorem indexed_of_installPath (sound : cache.view.Sound) (tidy : cache.Tidy)
    (indexed : cache.view.Indexed) {content : Nat → Array UInt8 → Array UInt8}
    {bytes : Array UInt8}
    (bytes_eq : content (cache.layout.placeOf address)
      (Array.replicate cache.layout.blockBytes 0) = bytes)
    (whole : bytes.size = cache.layout.blockBytes)
    (ran : cache.installPath address content = .ok (built, after)) :
    after.view.Indexed ∧ cache.Steady after := by
  obtain ⟨leaf, isLast, _, _, inserted⟩ :=
    (installPath_outcome sound tidy bytes_eq whole).of_eq_ok ran
  have putIn := putIn_of_installPath sound tidy bytes_eq whole ran
  obtain ⟨_, _, level, labelled, filed, leaf', _, grown, steady, recorded, isLast', installed, same⟩ :=
    grown_of_installPath sound tidy ran
  cases isLast.symm.trans isLast'
  rw [isLast, Option.getD_some] at putIn
  have absent := View.shortcut_eq_none inserted.unresolved
  have isBuilt : leaf ∈ built := List.mem_of_getLast? isLast
  have leaf_lt : leaf < cache.pool.capacity := by
    have bound := lt_capacity_of_copy inserted.held
    rwa [inserted.frame] at bound
  have unlisted : labelled.fastPath.lookup (cache.layout.blockOf address) = none := by
    refine Option.eq_none_iff_forall_ne_some.mpr fun index leads => ?_
    have leads' := (grown.shortcut.mp leads).1
    rw [absent] at leads'
    cases leads'
  obtain ⟨filing, others⟩ := steady_of_installFastPath recorded unlisted
    (size_lt_of_grown sound indexed grown isBuilt leaf_lt) installed
  refine ⟨⟨inserted.frame ▸ indexed.room, fun {index copy} holds => ?_⟩, ?_⟩
  · by_cases isLeaf : index = leaf
    · rw [isLeaf, inserted.held, Option.some.injEq] at holds
      rw [isLeaf, ← holds]
      exact inserted.shortcut
    · have leads := indexed.leads (inserted.copies isLeaf holds)
      have distinct : copy.tag ≠ cache.layout.blockOf address := by
        intro isTag
        rw [isTag, absent] at leads
        cases leads
      have notBuilt : index ∉ built := fun isBuilt =>
        putIn.not_copy (congrArg Frame.layout inserted.frame) isBuilt isLeaf copy holds
      have kept : labelled.fastPath.lookup copy.tag = some index :=
        grown.shortcut.mpr ⟨leads, notBuilt⟩
      rw [same]
      exact (others copy.tag distinct).trans kept
  · rw [same]
    exact (steady.trans filing).trans ⟨rfl, rfl, rfl⟩

theorem indexed_of_insert (sound : cache.view.Sound) (tidy : cache.Tidy)
    (indexed : cache.view.Indexed) {value : UInt8}
    (ran : cache.insert address value = .ok (leaf, after)) :
    after.view.Indexed ∧ cache.Steady after := by
  obtain ⟨⟨built, _⟩, installed, same⟩ := bind_eq_ok_iff.mp ran
  cases same
  exact indexed_of_installPath sound tidy indexed rfl (by simp) installed

theorem indexed_of_fill (sound : cache.view.Sound) (tidy : cache.Tidy)
    (indexed : cache.view.Indexed) {block : Array UInt8}
    (ran : cache.fill address block = .ok (leaf, after)) :
    after.view.Indexed ∧ cache.Steady after := by
  have regular : cache.layout.Regular := sound.founded.regular
  obtain ⟨size, isSize, ran⟩ := bind_eq_ok_iff.mp ran
  cases regular.blockSize_eq.symm.trans isSize
  obtain ⟨_, passed, ran⟩ := bind_eq_ok_iff.mp ran
  obtain ⟨⟨built, _⟩, installed, same⟩ := bind_eq_ok_iff.mp ran
  cases same
  have whole := of_decide_eq_true (require_eq_ok_iff.mp passed)
  exact indexed_of_installPath sound tidy indexed rfl whole installed

end Insertion

section Publishing

theorem steady_of_flushDirty (cache : Cache) : cache.Steady cache.flushDirty.2 := by
  have same := cache.outline_flushDirty
  have layout := congrArg Cache.layout same
  have slowPathHits := congrArg (fun cache : Cache => cache.stats.slowPathHits) same
  have evictions := congrArg (fun cache : Cache => cache.stats.fastPathEvictions) same
  exact ⟨layout, slowPathHits, evictions⟩

/-- A block that the fast path leads to has no other copy to retire. -/
theorem retireStale_eq_self (indexed : cache.view.Indexed)
    (isTag : cache.layout.tag address = .ok (cache.layout.blockOf address)) :
    cache.retireStale address = .ok (0, cache) := by
  have spared (index : Nat) : cache.retireBlock (cache.layout.blockOf address)
      (cache.fastPath.lookup (cache.layout.blockOf address)) 0 index = (0, cache) := by
    unfold retireBlock
    split
    · rfl
    next block found =>
      refine if_neg fun chosen => ?_
      simp only [Bool.and_eq_true, bne_iff_ne, beq_iff_eq] at chosen
      obtain ⟨notLive, isLeaf, tagged⟩ := chosen
      obtain ⟨valid, level⟩ := isLeaf_iff.mp isLeaf
      have holds := (copies_of_block found).trans (Block.copy?_eq_some_iff.mpr ⟨valid, level, rfl⟩)
      exact notLive (tagged ▸ indexed.leads holds)
  rw [retireStale, isTag, ok_bind]
  exact congrArg Except.ok (List.foldl_fixed' spared _)

end Publishing

section Runs

theorem Ready.tag_eq (ready : cache.Ready) (address : Address) :
    cache.layout.tag address = .ok (cache.layout.blockOf address) := by
  cases ready with
  | sound tidy sound => exact sound.founded.regular.tag_eq address
  | vacant vacant => exact vacant.tag_eq

theorem Ready.direct (ready : cache.Ready) (indexed : cache.view.Indexed) : cache.Direct := by
  cases ready with
  | sound tidy sound => exact direct_of_indexed sound tidy indexed
  | vacant vacant => exact vacant.direct

theorem Ready.record (ready : cache.Ready) (change : Stats → Stats) :
    (cache.record change).Ready := by
  cases ready with
  | sound tidy sound => exact .sound (tidy.record change) sound
  | vacant vacant => exact .vacant (vacant.withStats _)

theorem Ready.steady_of_access (ready : cache.Ready) (indexed : cache.view.Indexed)
    {access : Access} {byte : Option UInt8}
    (ran : cache.access address access = .ok (byte, after)) : cache.Steady after :=
  Cache.steady_of_access ((ready.record Stats.recordAccess).direct indexed)
    (ready.tag_eq address) ran

theorem Vacant.indexed (vacant : cache.Vacant)
    (room : cache.view.frame.capacity ≤ cache.view.frame.fastPathCapacity) :
    cache.view.Indexed := by
  refine ⟨room, fun {index copy} holds => ?_⟩
  rw [vacant.blank.copies] at holds
  cases holds

variable {command : Command} {reply : Reply}

/-- No operation counts what does not happen. -/
theorem steady_of_run (ready : cache.Ready) (indexed : cache.view.Indexed)
    (ran : cache.run command = .ok (reply, after)) : cache.Steady after := by
  cases command with
  | access address access =>
    obtain ⟨⟨byte, _⟩, accessed, same⟩ := bind_eq_ok_iff.mp ran
    cases same
    exact ready.steady_of_access indexed accessed
  | read address =>
    obtain ⟨⟨byte, _⟩, accessed, same⟩ := bind_eq_ok_iff.mp ran
    cases same
    exact ready.steady_of_access indexed accessed
  | write address value =>
    obtain ⟨⟨cached, _⟩, written, same⟩ := bind_eq_ok_iff.mp ran
    cases same
    obtain ⟨byte, accessed, rfl⟩ := write_eq_ok written
    exact ready.steady_of_access indexed accessed
  | insert address value =>
    obtain ⟨⟨leaf, _⟩, inserted, same⟩ := bind_eq_ok_iff.mp ran
    cases same
    cases ready with
    | sound tidy sound => exact (indexed_of_insert sound tidy indexed inserted).2
    | vacant vacant =>
      obtain ⟨result, installed, _⟩ := bind_eq_ok_iff.mp inserted
      exact absurd installed (vacant.installPath_ne result)
  | fill address block =>
    obtain ⟨⟨leaf, _⟩, filled, same⟩ := bind_eq_ok_iff.mp ran
    cases same
    cases ready with
    | sound tidy sound => exact (indexed_of_fill sound tidy indexed filled).2
    | vacant vacant => exact absurd filled (vacant.fill_ne block _)
  | search address =>
    obtain ⟨⟨walk, _⟩, searched, same⟩ := bind_eq_ok_iff.mp ran
    cases same
    exact stable_steady.search searched
  | setLocked index locked =>
    obtain ⟨_, changed, same⟩ := bind_eq_ok_iff.mp ran
    cases same
    exact stable_steady.updateBlock changed
  | drain =>
    cases ran
    exact ⟨rfl, rfl, rfl⟩
  | flush =>
    cases ran
    exact steady_of_flushDirty cache
  | retire address =>
    obtain ⟨_, retired, same⟩ := bind_eq_ok_iff.mp ran
    cases (retireStale_eq_self indexed (ready.tag_eq address)).symm.trans retired
    cases same
    exact .refl _

theorem indexed_of_run (ready : cache.Ready) (indexed : cache.view.Indexed)
    (ran : cache.run command = .ok (reply, after)) : after.view.Indexed := by
  cases ready with
  | vacant vacant =>
    have frame : after.view.frame = cache.view.frame := (vacant.run ran).2.1
    exact (vacant.run ran).1.indexed (frame ▸ indexed.room)
  | sound tidy sound =>
    obtain ⟨_, _, effect⟩ := run_effect sound tidy ran
    generalize same : after.view = view at effect ⊢
    cases effect with
    | access accessed => exact indexed.accessed accessed
    | read accessed => exact indexed.accessed accessed
    | write accessed => exact indexed.accessed accessed
    | insert =>
      obtain ⟨_, inserted, ended⟩ := bind_eq_ok_iff.mp ran
      cases ended
      exact same ▸ (indexed_of_insert sound tidy indexed inserted).1
    | fill =>
      obtain ⟨_, filled, ended⟩ := bind_eq_ok_iff.mp ran
      cases ended
      exact same ▸ (indexed_of_fill sound tidy indexed filled).1
    | flush published => exact indexed.published published
    | retire published => exact indexed.published published
    | search => exact indexed
    | setLocked => exact ⟨indexed.room, indexed.leads⟩
    | drain => exact ⟨indexed.room, indexed.leads⟩

theorem indexed_of_runAll {commands : List Command} {replies : List Reply} (ready : cache.Ready)
    (indexed : cache.view.Indexed) (ran : cache.runAll commands = .ok (replies, after)) :
    after.Ready ∧ after.view.Indexed ∧ cache.Steady after := by
  induction commands generalizing cache replies with
  | nil =>
    cases ran
    exact ⟨ready, indexed, .refl _⟩
  | cons command rest ih =>
    obtain ⟨⟨reply, middle⟩, first, ran⟩ := bind_eq_ok_iff.mp ran
    obtain ⟨⟨replies', _⟩, others, same⟩ := bind_eq_ok_iff.mp ran
    cases same
    obtain ⟨ready', indexed', steady⟩ :=
      ih (ready.run first) (indexed_of_run ready indexed first) others
    exact ⟨ready', indexed', (steady_of_run ready indexed first).trans steady⟩

end Runs

/-- The fast path leads to the data blocks under their tags, and nowhere else. -/
structure IndexesLeaves (cache : Cache) : Prop where
  lookup_iff {tag index : Nat} :
    cache.fastPath.lookup tag = some index ↔ ∃ block, cache.Carries tag index block
  single {tag first second : Nat} {one other : Block} : cache.Carries tag first one →
    cache.Carries tag second other → first = second
  /-- Nothing was ever pushed out. -/
  fastPathEvictions_eq : cache.stats.fastPathEvictions = 0
  /-- No access ever had to rely on the walk. -/
  slowPathHits_eq : cache.stats.slowPathHits = 0
  walk {address : Address} {index : Nat} {walked : Cache} :
    cache.search address = .ok (.hit index, walked) →
      cache.fastPath.lookup (cache.layout.blockOf address) = some index
  /-- There is never a stale copy. -/
  retireStale_eq (address : Address) : cache.retireStale address = .ok (0, cache)

theorem indexesLeaves_of_indexed (ready : cache.Ready) (indexed : cache.view.Indexed)
    (fresh : cache.stats.fastPathEvictions = 0 ∧ cache.stats.slowPathHits = 0) :
    cache.IndexesLeaves := by
  have leads {tag index : Nat} {block : Block} (carries : cache.Carries tag index block) :
      cache.fastPath.lookup tag = some index := indexed.leads carries.holds
  refine ⟨fun {tag index} => ⟨fun shortcut => ?_, fun ⟨_, carries⟩ => leads carries⟩,
    fun one other => Option.some.inj ((leads one).symm.trans (leads other)), fresh.1, fresh.2,
    ready.direct indexed, fun address => retireStale_eq_self indexed (ready.tag_eq address)⟩
  cases ready with
  | sound tidy sound =>
    obtain ⟨node, isNode, level, tagged⟩ := sound.tagged shortcut
    obtain ⟨block, found, valid, rfl⟩ := block_of_node isNode
    exact ⟨block, found, valid, level, tagged⟩
  | vacant vacant =>
    have absent : cache.fastPath.lookup tag = none := vacant.blank.shortcut tag
    rw [absent] at shortcut
    cases shortcut

/-- In a cache whose fast path has as many entries as its pool has blocks, the fast path is an
index of the data blocks at every point of a run. -/
theorem indexesLeaves_of_runAll {config : Config} {capacity : Nat} {commands : List Command}
    {replies : List Reply} (made : ofConfig config = .ok cache)
    (isCapacity : config.capacity = .ok capacity)
    (room : capacity ≤ config.fastPathSize.toNat)
    (ran : cache.runAll commands = .ok (replies, after)) : after.IndexesLeaves := by
  obtain ⟨capacity', _, accepted, _, _, _, pool, isFastPath, _⟩ := ofConfig_spec made
  cases accepted.capacity_eq.symm.trans isCapacity
  have blank := blank_of_ofConfig made
  have fresh : cache.view.Indexed := by
    refine ⟨?_, fun {index copy} holds => ?_⟩
    · change cache.pool.capacity ≤ cache.fastPath.capacity
      rw [pool, (FastPath.recorded_of_ofCapacity isFastPath).2.1]
      simpa [Pool.capacity] using room
    · rw [blank.copies] at holds
      cases holds
  obtain ⟨ready, indexed, steady⟩ := indexed_of_runAll (ready_of_ofConfig made) fresh ran
  refine indexesLeaves_of_indexed ready indexed ⟨?_, ?_⟩
  · rw [steady.fastPathEvictions, stats_of_ofConfig made]
  · rw [steady.slowPathHits, stats_of_ofConfig made]

/-- The default configuration has room on the fast path for every block of its pool. -/
theorem indexesLeaves_of_default : ∃ cache replies after, ofConfig {} = .ok cache ∧
    Config.capacity {} = .ok 1024 ∧ 1024 ≤ (Config.fastPathSize {}).toNat ∧
    cache.runAll [.insert 0x01 1, .read 0x02] = .ok (replies, after) ∧ after.IndexesLeaves := by
  have answers : (do
      let cache ← ofConfig {}
      let result ← cache.runAll [.insert 0x01 1, .read 0x02]
      return result.1) = .ok [.index 2, .byte (some 0)] := by decide +kernel
  obtain ⟨cache, made, answers⟩ := bind_eq_ok_iff.mp answers
  obtain ⟨⟨replies, after⟩, ran, _⟩ := bind_eq_ok_iff.mp answers
  have capacity : Config.capacity {} = .ok 1024 := by decide
  have room : 1024 ≤ (Config.fastPathSize {}).toNat := by decide
  exact ⟨cache, replies, after, made, capacity, room, ran,
    indexesLeaves_of_runAll made capacity room ran⟩

-- With a single entry the second block pushes the first one out, and only the walk finds it.
example : (do
    let cache ← ofConfig { Config.tiny with fastPathSize := 1 }
    let result ← cache.runAll [.insert 0x01 1, .insert 0x10 2, .read 0x01]
    return (result.2.stats.fastPathEvictions, result.2.stats.slowPathHits)) = .ok (2, 1) := by
  decide +kernel

end Cache

end TrieCache
