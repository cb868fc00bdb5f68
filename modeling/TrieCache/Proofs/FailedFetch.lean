import TrieCache.Proofs.Consistency
import TrieCache.Proofs.Stranded
import TrieCache.Proofs.Withholding

/-!
# A fetch that fails

When the store does not hand out a missing block, the copies of it that nothing leads to have
already been called clean and sent.  That is no harm: nothing that an access goes by has
changed, and what was sent is what the store has now.  Every address shows the byte that it
showed before, and later accesses answer with it.
-/

namespace TrieCache

namespace Cache

section Frame

variable {origin cache after : Cache} {address : Address} {index tag : Nat}

/-- A block is as it was up to its reference count, if it is on the walk to an address, and its
dirty flag, if it holds a copy of the address's block that no access finds. -/
structure Spares (cache : Cache) (address : Address) (index : Nat) (block later : Block) :
    Prop where
  same : later = { block with reference := later.reference, dirty := later.dirty }
  reference : later.reference ≠ block.reference → ∃ links, cache.Follows address links index
  dirty : later.dirty ≠ block.dirty → later.dirty = false ∧
    ∃ tag, cache.layout.tag address = .ok tag ∧ cache.Stranded index tag

/-- All blocks are spared, and the rest of the cache is as it was up to the queue and the
counts. -/
structure Unaltered (before : Cache) (address : Address) (after : Cache) : Prop where
  same : after = { before with
    pool := after.pool, writebacks := after.writebacks, stats := after.stats }
  cursor : after.cursor = before.cursor
  capacity : after.pool.capacity = before.pool.capacity
  blocks {index : Nat} {block : Block} : before.pool.blocks[index]? = some block →
    ∃ later, after.pool.blocks[index]? = some later ∧ before.Spares address index block later

namespace Unaltered

theorem refl (cache : Cache) (address : Address) : cache.Unaltered address cache where
  same := rfl
  cursor := rfl
  capacity := rfl
  blocks := fun {_ block} found =>
    ⟨block, found, rfl, fun changed => absurd rfl changed, fun changed => absurd rfl changed⟩

variable (unaltered : origin.Unaltered address cache)
include unaltered

theorem layout : cache.layout = origin.layout := by
  rw [unaltered.same]

theorem top : cache.top = origin.top := by
  rw [unaltered.same]

theorem exists_block {later : Block} (found : cache.pool.blocks[index]? = some later) :
    ∃ block, origin.pool.blocks[index]? = some block ∧ origin.Spares address index block later := by
  obtain ⟨block, isBlock⟩ := Pool.exists_block
    (unaltered.capacity ▸ Pool.lt_capacity_of_block found : index < origin.pool.capacity)
  obtain ⟨later', found', spares⟩ := unaltered.blocks isBlock
  cases found.symm.trans found'
  exact ⟨block, isBlock, spares⟩

theorem aside (writebacks : Array Writeback) (stats : Stats) :
    origin.Unaltered address { cache with writebacks, stats } where
  same := by
    rw [unaltered.same]
  cursor := unaltered.cursor
  capacity := unaltered.capacity
  blocks := unaltered.blocks

theorem modify {change : Block → Block}
    (spares : ∀ {block later : Block}, origin.pool.blocks[index]? = some block →
      origin.Spares address index block later →
        origin.Spares address index block (change later)) :
    origin.Unaltered address { cache with pool := cache.pool.modify index change } where
  same := by
    rw [unaltered.same]
  cursor := unaltered.cursor
  capacity := (Pool.capacity_modify _ _ _).trans unaltered.capacity
  blocks := by
    intro other block isBlock
    obtain ⟨later, found, spared⟩ := unaltered.blocks isBlock
    by_cases here : other = index
    · subst here
      exact ⟨_, Pool.blocks_modify_self found change, spares isBlock spared⟩
    · exact ⟨later, (Pool.blocks_modify_of_ne here change).trans found, spared⟩

theorem visit {links ceiling : Nat} (follows : origin.Follows address links index) :
    origin.Unaltered address
      { cache with pool := cache.pool.modify index (Block.touch ceiling) } := by
  refine unaltered.modify fun {block later} _ spared => ?_
  rw [Block.touch_eq]
  exact ⟨by rw [spared.same], fun _ => ⟨links, follows⟩, spared.dirty⟩

theorem follows {links : Nat} (follows : cache.Follows address links index) :
    origin.Follows address links index := by
  induction follows with
  | top isSlot isEntry valid => exact .top (unaltered.layout ▸ isSlot) (unaltered.top ▸ isEntry) valid
  | step _ isSelector found isChild ih =>
    obtain ⟨block, isBlock, spared⟩ := unaltered.exists_block found
    rw [spared.same] at isChild
    exact .step ih (unaltered.layout ▸ isSelector) isBlock isChild

theorem marked {passed : List Nat}
    (follows : ∀ index ∈ passed, ∃ links, origin.Follows address links index) :
    origin.Unaltered address (cache.marked passed) := by
  induction passed generalizing cache with
  | nil => exact unaltered
  | cons index passed ih =>
    obtain ⟨links, follows'⟩ := follows index List.mem_cons_self
    exact ih (unaltered.visit follows') fun other member =>
      follows other (List.mem_cons_of_mem _ member)

theorem search {walk : Walk} (ran : cache.search address = .ok (walk, after)) :
    origin.Unaltered address after := by
  rw [(visits_of_search ran).2]
  refine unaltered.marked fun index member => ?_
  obtain ⟨place, isPlace⟩ := List.mem_iff_getElem?.mp (List.mem_of_mem_tail member)
  exact ⟨place + 1, unaltered.follows (follows_of_visits isPlace)⟩

theorem clean (isTag : origin.layout.tag address = .ok tag)
    (stranded : origin.Stranded index tag) (block : Block) :
    origin.Unaltered address (cache.clean index block) := by
  have cleaned : ∀ writebacks stats, origin.Unaltered address { cache with
      writebacks, stats
      pool := cache.pool.modify index fun block => { block with dirty := false } } :=
    fun writebacks stats => (unaltered.aside writebacks stats).modify fun _ spared =>
      ⟨by rw [spared.same], spared.reference, fun _ => ⟨rfl, tag, isTag, stranded⟩⟩
  rw [Cache.clean]
  cases block.bytes? with
  | none => exact cleaned cache.writebacks cache.stats
  | some bytes => exact cleaned _ _

theorem retireBlock (isTag : origin.layout.tag address = .ok tag)
    (unlocated : ∀ index, ¬ origin.Locates tag index) (live : Option Nat) (retired index : Nat) :
    origin.Unaltered address (cache.retireBlock tag live retired index).2 := by
  rw [Cache.retireBlock]
  cases found : cache.pool.blocks[index]? with
  | none => exact unaltered
  | some later =>
    dsimp only
    split
    next stale =>
      split
      next dirty =>
        obtain ⟨block, isBlock, spared⟩ := unaltered.exists_block found
        rw [Bool.and_eq_true, Bool.and_eq_true, isLeaf_iff, beq_iff_eq, unaltered.layout,
          spared.same] at stale
        obtain ⟨_, ⟨valid, level⟩, tagged⟩ := stale
        exact unaltered.clean isTag ⟨⟨block, isBlock, valid, level, tagged⟩, unlocated index⟩ later
      next => exact unaltered
    next => exact unaltered

theorem retireStale {retired : Nat} (isTag : origin.layout.tag address = .ok tag)
    (unlocated : ∀ index, ¬ origin.Locates tag index)
    (ran : cache.retireStale address = .ok (retired, after)) : origin.Unaltered address after := by
  obtain ⟨tag', isTag', ran⟩ := bind_eq_ok_iff.mp ran
  rw [unaltered.layout] at isTag'
  cases isTag.symm.trans isTag'
  obtain ⟨_, rfl⟩ := Prod.mk.inj (Except.ok.inj ran)
  refine List.foldlRecOn (motive := fun progress : Nat × Cache =>
    origin.Unaltered address progress.2) _ _ unaltered fun progress spared index _ => ?_
  exact spared.retireBlock isTag unlocated _ _ _

end Unaltered

/-- An access that misses is a walk, and is counted. -/
theorem unaltered_of_missed {access : Access}
    (ran : cache.access address access = .ok (none, after)) : cache.Unaltered address after := by
  obtain ⟨_, _, ran⟩ := bind_eq_ok_iff.mp ran
  obtain ⟨⟨found, resolved⟩, resolves, ran⟩ := bind_eq_ok_iff.mp ran
  cases found with
  | some index =>
    obtain ⟨_, _, ran⟩ := bind_eq_ok_iff.mp ran
    obtain ⟨_, _, same⟩ := bind_eq_ok_iff.mp ran
    cases same
  | none =>
    cases ran
    cases resolved_of_resolve resolves with
    | missed searched =>
      have spared := ((Unaltered.refl cache address).aside _ _).search searched
      exact spared.aside _ _

end Frame

end Cache

namespace Cache

/-- The place where an access finds its block. -/
def find? (cache : Cache) (address : Address) : Checked (Option Nat) := do
  let (walk, _) ← cache.search address
  let tag ← cache.layout.tag address
  match cache.fastPath.lookup tag with
  | some index => return some index
  | none =>
    match walk with
    | .hit index => return some index
    | .miss _ => return none

/-- A place where a block is changed. -/
def changed? (cache : Cache) (tag : Nat) : Option Nat :=
  (List.range cache.pool.capacity).find? fun index =>
    cache.pool.blocks[index]?.any fun block =>
      cache.isLeaf block && block.tag == tag && block.dirty

variable {cache : Cache} {address : Address} {tag index : Nat}

/-- An access in range finds at most what resolves. -/
theorem find?_outcome (sound : cache.view.Sound) (tidy : cache.Tidy) (address : Address) :
    Ends (cache.find? address)
      (fun found => ∀ index, found = some index →
        cache.view.Resolves (cache.layout.blockOf address) index)
      (fun _ => cache.layout.contains address = false) := by
  have isTag : cache.layout.tag address = .ok (cache.layout.blockOf address) :=
    sound.founded.regular.tag_eq address
  refine (search_outcome sound tidy address).andThen (fun _ outside => outside) ?_
  rintro ⟨walk, walked⟩ ⟨_, ends⟩
  dsimp only
  rw [isTag, ok_bind]
  cases leads : cache.fastPath.lookup (cache.layout.blockOf address) with
  | some index => exact fun _ same => .inl (leads.trans same)
  | none =>
    cases walk with
    | hit index =>
      intro found same
      cases same
      exact .inr ends
    | miss anchor => exact nofun

theorem carries_of_changed? (isChanged : cache.changed? tag = some index) :
    ∃ block, cache.Carries tag index block ∧ block.dirty = true := by
  have holds := List.find?_some isChanged
  obtain ⟨block, found, holds⟩ := (Option.any_eq_true _ _).mp holds
  simp only [Bool.and_eq_true, isLeaf_iff, beq_iff_eq] at holds
  obtain ⟨⟨⟨valid, level⟩, tagged⟩, dirty⟩ := holds
  exact ⟨block, ⟨found, valid, level, tagged⟩, dirty⟩

theorem clean_of_changed?_eq_none (unchanged : cache.changed? tag = none) {copy : Copy}
    (holds : cache.view.copies index = some copy) (tagged : copy.tag = tag) :
    copy.dirty = false := by
  obtain ⟨block, found, seen⟩ := Pool.look_eq_some_iff.mp holds
  obtain ⟨valid, level, rfl⟩ := Block.copy?_eq_some_iff.mp seen
  have isPlace := List.mem_range.mpr (Pool.lt_capacity_of_block found)
  have skipped := List.find?_eq_none.mp unchanged index isPlace
  change block.tag = tag at tagged
  simpa [found, isLeaf_iff.mpr ⟨valid, level⟩, tagged] using skipped

end Cache

/-- A memory that refuses some of its next fetches, and those after them never. -/
structure Intermittent where
  memory : Memory
  refusals : List Bool

instance : BlockStore Intermittent where
  blockSize store := store.memory.blockSize
  fetch store tag :=
    match store.refusals with
    | true :: rest => .ok (.error (.fetchRefused tag), { store with refusals := rest })
    | refusals => do
      let (bytes, memory) ← store.memory.fetch tag
      return (.ok bytes, { memory, refusals := refusals.tail })
  writeback store tag bytes := do
    let memory ← store.memory.writeback tag bytes
    return (.ok (), { store with memory })

namespace Intermittent

open BlockStore

def contents (store : Intermittent) : Blocks :=
  store.memory.contents

theorem remembers : Remembers (fun store : Intermittent => store.memory.Whole) contents where
  fetch := by
    intro store after tag outcome whole served
    obtain ⟨⟨fetched, middle⟩, isFetched, served⟩ := bind_eq_ok_iff.mp served
    dsimp only [BlockStore.fetch] at isFetched
    split at isFetched
    · cases isFetched
      cases served
      exact ⟨whole, rfl, rfl, nofun⟩
    · obtain ⟨⟨bytes, memory⟩, isFetched, same⟩ := bind_eq_ok_iff.mp isFetched
      obtain ⟨rfl, rfl⟩ := (Memory.fetch_outcome store.memory tag).of_eq_ok isFetched
      cases same
      dsimp only at served
      split at served
      · cases served
        exact ⟨whole, rfl, rfl, fun _ same => (Except.ok.inj same).symm⟩
      · cases served
        exact ⟨whole, rfl, rfl, nofun⟩
  writeback := by
    intro store after tag bytes whole served
    unfold writebackBlock at served
    split at served
    next size =>
      obtain ⟨memory, taken, same⟩ := bind_eq_ok_iff.mp served
      obtain rfl := (Memory.writeback_outcome store.memory tag bytes).of_eq_ok taken
      cases same
      exact ⟨whole.insert size _ _, rfl, Memory.contents_insert _ _ _ _⟩
    next => cases served

end Intermittent

namespace BackedCache

open BlockStore

variable {σ : Type} [BlockStore σ] {good : σ → Prop} {contents : σ → Blocks} {flat : Blocks}
  {backed after : BackedCache σ} {address : Address} {access : Access}

/-- An access whose fetch fails alters nothing that accesses go by, and leaves nothing queued. -/
theorem Unserved.unaltered (unserved : backed.Unserved address access after) {tag : Nat}
    (isTag : backed.cache.layout.tag address = .ok tag)
    (unlocated : ∀ index, ¬ backed.cache.Locates tag index) :
    backed.cache.Unaltered address after.cache ∧ after.cache.writebacks = #[] := by
  obtain ⟨missed, misses, unsupplied⟩ := unserved
  cases unsupplied with
  | mk retires sends =>
    have spared := (Cache.unaltered_of_missed misses).retireStale isTag unlocated retires
    obtain ⟨⟨outcome, store⟩, _, same⟩ := bind_eq_ok_iff.mp sends
    obtain ⟨_, rfl⟩ := Prod.mk.inj (Except.ok.inj same)
    exact ⟨spared.aside _ _, rfl⟩

theorem unsent_of_sendAll {store store' : σ} {queue : List Writeback}
    (ran : sendAll store queue = .ok (.ok (), store')) : unsent store queue = [] := by
  induction queue generalizing store with
  | nil => rfl
  | cons block rest ih =>
    obtain ⟨⟨outcome, middle⟩, served, ran⟩ := bind_eq_ok_iff.mp ran
    cases outcome with
    | error error => cases ran
    | ok => simpa only [unsent, served] using ih ran

theorem shed_of_drain (ran : backed.drain = .ok (.ok (), after)) : backed.shed = [] := by
  obtain ⟨⟨outcome, store⟩, sent, same⟩ := bind_eq_ok_iff.mp ran
  cases outcome with
  | error error => cases same
  | ok => exact List.map_eq_nil_iff.mpr (unsent_of_sendAll sent)

/-- An access whose fetch fails has sent all that it had to send. -/
theorem Unserved.shed_eq_nil (unserved : backed.Unserved address access after) :
    ∀ state ∈ backed.accessSends address access, state.shed = [] := by
  obtain ⟨missed, misses, unsupplied⟩ := unserved
  cases unsupplied with
  | @mk cleaned retired tag sent store retires sends isTag withholds =>
    have nothing : sent.refillSends address = [] := by
      obtain ⟨error, served⟩ := withholds_iff.mp withholds
      have here : tag = sent.cache.layout.blockOf address :=
        (Word.shiftRight_eq_ok_iff.mp isTag).2
      subst here
      rw [refillSends, served]
    rw [accessSends, misses]
    dsimp only
    rw [missSends, retires]
    dsimp only
    rw [sends]
    dsimp only
    rw [nothing, List.forall_mem_singleton]
    exact shed_of_drain sends

/-- The byte to be seen at an address: that of the copy that an access finds, else of a changed
copy that none finds, else of the store. -/
def visible (contents : σ → Blocks) (backed : BackedCache σ) (address : Address) :
    Checked (Option UInt8) := do
  let tag ← backed.cache.layout.tag address
  let offset ← backed.cache.layout.offset address
  let found ← backed.cache.find? address
  match found.or (backed.cache.changed? tag) with
  | some index =>
    let block ← backed.cache.pool.get index
    return block.bytes?.bind (·[offset]?)
  | none => return (contents backed.store tag)[offset]?

/-- These are the bytes to be seen at the addresses in range. -/
def Displays (contents : σ → Blocks) (held : Address → Option UInt8) (backed : BackedCache σ) : Prop :=
  ∀ address, backed.cache.layout.contains address = true →
    backed.visible contents address = .ok (held address)

/-- A copy that an access finds has the bytes of the flat memory, and so has a changed one. -/
theorem Faithful.bytes_of_place (faithful : Faithful good contents flat backed) {tag index : Nat}
    {found : Option Nat}
    (resolved : ∀ index, found = some index → backed.cache.view.Resolves tag index)
    (isPlace : found.or (backed.cache.changed? tag) = some index) :
    ∃ copy, backed.cache.view.copies index = some copy ∧ copy.bytes = flat tag := by
  rcases Option.or_eq_some_iff.mp isPlace with here | ⟨_, isChanged⟩
  · obtain ⟨copy, holds, _, same⟩ := faithful.coherent.kept (resolved index here)
    exact ⟨copy, holds, (Option.some.inj same).symm⟩
  · obtain ⟨block, carries, dirty⟩ := Cache.carries_of_changed? isChanged
    exact ⟨_, carries.holds, faithful.coherent.dirty carries.holds dirty⟩

/-- Cache and store show the flat memory that they hold. -/
theorem Faithful.visible_eq (faithful : Faithful good contents flat backed)
    (idle : backed.cache.view.queue = []) (inRange : backed.cache.layout.contains address = true) :
    backed.visible contents address =
      .ok (flat (backed.cache.layout.blockOf address))[backed.cache.layout.placeOf address]? := by
  have regular : backed.cache.layout.Regular := faithful.sound.founded.regular
  obtain ⟨found, isFound, resolved⟩ :=
    (Cache.find?_outcome faithful.sound faithful.tidy address).exists_ok fun _ outside => by
      rw [inRange] at outside
      cases outside
  rw [visible, regular.tag_eq, ok_bind, regular.offset_eq, ok_bind, isFound, ok_bind]
  cases place : found.or (backed.cache.changed? (backed.cache.layout.blockOf address)) with
  | some index =>
    obtain ⟨copy, holds, same⟩ := faithful.bytes_of_place resolved place
    obtain ⟨block, carries, _, payload⟩ := Cache.carries_of_copy faithful.tidy holds
    have isBytes : block.bytes? = some copy.bytes := by rw [Block.bytes?, payload]
    dsimp only
    rw [Pool.get_eq_ok_iff.mpr carries.found, ok_bind, isBytes, same]
    rfl
  | none =>
    obtain ⟨_, unchanged⟩ := Option.or_eq_none_iff.mp place
    have stored := faithful.coherent.stored_eq idle fun holds tagged =>
      Cache.clean_of_changed?_eq_none unchanged holds tagged
    dsimp only
    rw [stored]
    rfl

variable {layout : Layout} {held : Address → Option UInt8}

theorem Holds.displays (holds : backed.Holds good contents layout held) :
    backed.Displays contents held := by
  obtain ⟨flat, rfl, faithful, idle, bytes⟩ := holds
  exact fun address inRange => (faithful.visible_eq idle inRange).trans (congrArg _ (bytes address))

/-- Every access answers with the byte to be seen at its address, or with the one it writes,
unless its fetch fails as well or a writeback is refused. -/
structure Responds (contents : σ → Blocks) (held : Address → Option UInt8)
    (backed : BackedCache σ) : Prop where
  displays : backed.Displays contents held
  answers (address : Address) (access : Access) : Ends (backed.access address access)
    (fun (outcome, after) =>
      (∃ byte hit, outcome = .ok (byte, hit) ∧
        ((Command.access address access).writes? address).or (held address) = some byte ∧
        after.Displays contents fun other =>
          ((Command.access address access).writes? other).or (held other)) ∨
      (∃ error, outcome = .error (.store error)) ∧
        (backed.Unserved address access after ∨ backed.dropped (.access address access) ≠ []))
    (Denied backed address)

/-- A failed access to an address did no harm. -/
structure Harmless (contents : σ → Blocks) (address : Address) (before after : BackedCache σ) :
    Prop where
  unaltered : before.cache.Unaltered address after.cache
  idle : after.cache.writebacks = #[]
  /-- What was changed of the block is now in the store. -/
  stored {tag index : Nat} {block : Block} : before.cache.layout.tag address = .ok tag →
    before.cache.Carries tag index block → block.dirty = true →
      block.payload = .data (contents after.store tag)
  /-- All addresses show what they did, and later accesses go by it. -/
  shown : ∃ held, before.Displays contents held ∧ after.Displays contents held ∧
    ∀ {commands : List Command} {replies : List (BackedReply Reply)} {last : BackedCache σ},
      after.runAll commands = .ok (replies, last) → after.droppedAll commands = [] →
        last.Responds contents (acknowledgeAll held commands replies)

section Runs

variable (remembers : Remembers good contents)
include remembers

/-- A failed fetch leaves the memory that was held, with no changed copy of the block. -/
theorem Faithful.unserved (faithful : Faithful good contents flat backed)
    (idle : backed.cache.view.queue = []) (unserved : backed.Unserved address access after) :
    Missing good contents flat address after ∧ after.cache.frame = backed.cache.frame := by
  obtain ⟨error, ran⟩ := unserved.access_eq
  have attempted := (faithful.access_cases remembers idle address access).of_eq_ok ran
  cases attempted with
  | unserved _ missing frame => exact ⟨missing, frame⟩
  | refused isSent refused => exact absurd (unserved.shed_eq_nil _ isSent) refused

omit remembers in
theorem Faithful.not_locates (faithful : Faithful good contents flat backed)
    (unserved : backed.Unserved address access after) (index : Nat) :
    ¬ backed.cache.Locates (backed.cache.layout.blockOf address) index := by
  obtain ⟨missed, misses, _⟩ := unserved
  obtain ⟨_, accessed⟩ :=
    (Cache.access_outcome faithful.sound faithful.tidy address access).of_eq_ok misses
  exact fun locates =>
    accessed.unresolved.1 index (locates.resolves faithful.sound faithful.tidy)

theorem Holds.responds (holds : backed.Holds good contents layout held) :
    backed.Responds contents held where
  displays := holds.displays
  answers := by
    intro address access
    refine (holds.access_cases remembers address access).mono ?_ fun _ denied => denied
    rintro ⟨outcome, after⟩ (⟨byte, hit, answered, answer, holds'⟩ | ⟨failed, cause⟩)
    · exact .inl ⟨byte, hit, answered, answer, holds'.displays⟩
    · refine .inr ⟨failed, cause.imp And.left ?_⟩
      rintro ⟨state, isSent, refused⟩ nothing
      exact refused (List.flatMap_eq_nil_iff.mp nothing state isSent)

theorem Holds.harmless (holds : backed.Holds good contents layout held)
    (unserved : backed.Unserved address access after) : backed.Harmless contents address after := by
  have ⟨flat, isLayout, faithful, idle, bytes⟩ := holds
  have isTag : backed.cache.layout.tag address = .ok (backed.cache.layout.blockOf address) :=
    faithful.sound.founded.regular.tag_eq address
  obtain ⟨unaltered, emptied⟩ := unserved.unaltered isTag (faithful.not_locates unserved)
  obtain ⟨missing, frame⟩ := faithful.unserved remembers idle unserved
  have layout : after.cache.layout = backed.cache.layout := congrArg Frame.layout frame
  have holds' : after.Holds good contents _ held :=
    ⟨flat, layout.trans isLayout, missing.faithful, missing.idle, bytes⟩
  refine ⟨unaltered, emptied, fun {tag index block} isTag' carries dirty => ?_,
    held, holds.displays, holds'.displays, fun ran taken => ?_⟩
  · cases isTag.symm.trans isTag'
    obtain ⟨bytes, payload, _⟩ :=
      faithful.tidy.data_of_leaf carries.found carries.valid carries.level
    have stored : contents after.store (backed.cache.layout.blockOf address) = flat _ :=
      layout ▸ missing.faithful.coherent.stored_eq missing.idle missing.clean
    have current := faithful.coherent.dirty carries.holds dirty
    rw [Block.bytes?, payload] at current
    rw [payload, stored]
    exact congrArg Payload.data current
  · exact (holds'.runAll remembers ran taken).responds remembers

omit remembers in
theorem holds_of_ofConfig {config : Config} {cache : Cache} {store : σ} (usable : config.Usable)
    (isGood : good store) (made : Cache.ofConfig config = .ok cache)
    (joined : ofCache cache store = .ok backed) :
    backed.Holds good contents cache.layout fun address =>
      (contents store (cache.layout.blockOf address))[cache.layout.placeOf address]? := by
  have founded := Cache.founded_of_ofConfig made usable.span usable.levels_lt
  obtain ⟨size, rfl⟩ := (ofCache_eq_ok_iff founded.regular).mp joined
  exact ⟨_, rfl, faithful_of_ofConfig made founded isGood size,
    (Cache.blank_of_ofConfig made).queue, fun _ => rfl⟩

end Runs

/-- Before a store that takes every block back, an access whose fetch fails ends with an error
and does no harm: it leaves alone what accesses go by, every address shows the byte that it
showed, and later accesses are answered by it. -/
theorem harmless_of_runAll {config : Config} {cache : Cache} {store : σ}
    {backed before after : BackedCache σ} {commands : List Command}
    {replies : List (BackedReply Reply)} {address : Address} {access : Access}
    (usable : config.Usable) (remembers : Remembers good contents) (isGood : good store)
    (made : Cache.ofConfig config = .ok cache) (joined : ofCache cache store = .ok backed)
    (ran : backed.runAll commands = .ok (replies, before))
    (taken : backed.droppedAll commands = [])
    (unserved : before.Unserved address access after) :
    (∃ error, before.access address access = .ok (.error (.store error), after)) ∧
      before.Harmless contents address after :=
  ⟨unserved.access_eq,
    ((holds_of_ofConfig usable isGood made joined).runAll remembers ran taken).harmless remembers
      unserved⟩

/-- The block of `0x01` is changed and then cut off.  The access to it sends the change before
its fetch is refused, and the next read has it back from the store. -/
theorem harmless_after_retirement : ∃ cache backed replies before after,
    Cache.ofConfig { Config.tiny with levels := 3, fastPathSize := 1 } = .ok cache ∧
      ofCache cache (Intermittent.mk { blockSize := 4 } [false, false, false, true]) = .ok backed ∧
      backed.runAll [.write 0x01 7, .write 0x10 2, .write 0x20 3] = .ok (replies, before) ∧
      (∃ index block, before.cache.Carries 0 index block ∧ block.dirty = true) ∧
      before.Unserved 0x01 .read after ∧
      (∃ error, before.access 0x01 .read = .ok (.error (.store error), after)) ∧
      before.Harmless Intermittent.contents 0x01 after ∧
      ∃ last, after.read 0x01 = .ok (.ok 7, last) := by
  have answers : (do
      let cache ← Cache.ofConfig { Config.tiny with levels := 3, fastPathSize := 1 }
      let backed ← ofCache cache (Intermittent.mk { blockSize := 4 } [false, false, false, true])
      let commands : List Command := [.write 0x01 7, .write 0x10 2, .write 0x20 3]
      let ran ← backed.runAll commands
      let missed ← ran.2.cache.access 0x01 .read
      let retired ← missed.2.retireStale 0x01
      let sent ← BackedCache.drain { ran.2 with cache := retired.2 }
      let tag ← sent.2.cache.layout.tag 0x01
      let fetched ← fetch sent.2.store tag
      let again ← BackedCache.read { sent.2 with store := fetched.2 } 0x01
      return (sent.1, fetched.1, again.1, missed.1.isNone &&
        decide (ran.2.cache.changed? 0 = some 2 ∧ backed.droppedAll commands = []))) =
          .ok (.ok (), .error (.fetchRefused 0), .ok 7, true) := by
    decide +kernel
  obtain ⟨cache, made, answers⟩ := bind_eq_ok_iff.mp answers
  obtain ⟨backed, joined, answers⟩ := bind_eq_ok_iff.mp answers
  obtain ⟨⟨replies, before⟩, ran, answers⟩ := bind_eq_ok_iff.mp answers
  obtain ⟨⟨found, missed⟩, misses, answers⟩ := bind_eq_ok_iff.mp answers
  obtain ⟨⟨retired, cleaned⟩, retires, answers⟩ := bind_eq_ok_iff.mp answers
  obtain ⟨⟨outcome, sent⟩, sends, answers⟩ := bind_eq_ok_iff.mp answers
  obtain ⟨tag, isTag, answers⟩ := bind_eq_ok_iff.mp answers
  obtain ⟨⟨fetched, store⟩, isFetched, answers⟩ := bind_eq_ok_iff.mp answers
  obtain ⟨⟨again, last⟩, isRead, answers⟩ := bind_eq_ok_iff.mp answers
  simp only [pure_eq_ok, Except.ok.injEq, Prod.mk.injEq, Bool.and_eq_true,
    Option.isNone_iff_eq_none, decide_eq_true_eq] at answers
  obtain ⟨rfl, rfl, rfl, rfl, isChanged, taken⟩ := answers
  have usable : Config.Usable { Config.tiny with levels := 3, fastPathSize := 1 } :=
    ⟨rfl, ⟨4, rfl, by decide⟩, by decide, by decide⟩
  have unserved : before.Unserved 0x01 .read { sent with store } :=
    ⟨missed, misses, .mk retires sends isTag ⟨_, isFetched, nofun⟩⟩
  obtain ⟨failed, harmless⟩ := harmless_of_runAll usable Intermittent.remembers
    (Memory.whole_of_empty 4) made joined ran taken unserved
  exact ⟨cache, backed, replies, before, _, made, joined, ran,
    ⟨2, Cache.carries_of_changed? isChanged⟩, unserved, failed, harmless, last, isRead⟩

end BackedCache

end TrieCache
