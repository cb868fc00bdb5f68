import TrieCache.Proofs.Backed
import TrieCache.Proofs.Memory

/-!
# What is written back

A guard stands before a store and knows what every block should hold.  It raises an alarm,
which is a fault, when another block is about to be written back, and is otherwise the
store.  Whatever the order in which the copies of blocks are pushed out, the guard of a
cache is never alarmed: an operation ends as it does without the guard, in whatever state
or fault that may be.
-/

namespace TrieCache

/-- A store behind a guard. -/
structure Guarded (σ : Type) (truth : Blocks) (alarm : Fault) where
  store : σ

instance {σ : Type} [BlockStore σ] {truth : Blocks} {alarm : Fault} :
    BlockStore (Guarded σ truth alarm) where
  blockSize guarded := BlockStore.blockSize guarded.store
  fetch guarded tag := do
    let (outcome, store) ← BlockStore.fetch guarded.store tag
    return (outcome, { store })
  writeback guarded tag bytes := do
    require (decide (bytes = truth tag)) alarm
    let (outcome, store) ← BlockStore.writeback guarded.store tag bytes
    return (outcome, { store })

namespace BackedCache

variable {σ : Type} {truth : Blocks} {alarm : Fault}

/-- Put a guard before the store. -/
def guarded (truth : Blocks) (alarm : Fault) (backed : BackedCache σ) :
    BackedCache (Guarded σ truth alarm) where
  cache := backed.cache
  store := { store := backed.store }

/-- Take the guard away. -/
def unguarded (backed : BackedCache (Guarded σ truth alarm)) : BackedCache σ where
  cache := backed.cache
  store := backed.store.store

end BackedCache

/-- A step ends as another one does, with a state in which something is forgotten. -/
def Mirrors {α τ τ' : Type} (forget : τ → τ') (step : Checked (α × τ))
    (plain : Checked (α × τ')) : Prop :=
  step.map (Prod.map id forget) = plain

namespace Mirrors

variable {α β τ τ' υ υ' : Type} {forget : τ → τ'} {forget' : υ → υ'}

theorem bind {step : Checked (α × τ)} {plain : Checked (α × τ')} {next : α × τ → Checked (β × υ)}
    {next' : α × τ' → Checked (β × υ')} (first : Mirrors forget step plain)
    (second : ∀ value state, plain = .ok (value, forget state) →
      Mirrors forget' (next (value, state)) (next' (value, forget state))) :
    Mirrors forget' (step >>= next) (plain >>= next') := by
  cases step with
  | error fault =>
    cases first
    rfl
  | ok result =>
    cases first
    exact second result.1 result.2 rfl

/-- A step that does not touch what is forgotten comes first on both sides. -/
theorem after (step : Checked β) {next : β → Checked (α × τ)} {next' : β → Checked (α × τ')}
    (second : ∀ value, step = .ok value → Mirrors forget (next value) (next' value)) :
    Mirrors forget (step >>= next) (step >>= next') := by
  cases step with
  | error fault => rfl
  | ok value => exact second value rfl

end Mirrors

namespace Guarded

open BlockStore BackedCache

variable {σ : Type} [BlockStore σ] {truth : Blocks} {alarm : Fault}
  {guarded : Guarded σ truth alarm}

theorem mirrors_fetchBlock (tag : Nat) :
    Mirrors store (fetchBlock guarded tag) (fetchBlock guarded.store tag) := by
  have fetched : Mirrors store (fetch guarded tag) (fetch guarded.store tag) := by
    change Mirrors store (fetch guarded.store tag >>= _) _
    cases fetch guarded.store tag <;> rfl
  refine fetched.bind fun outcome after _ => ?_
  cases outcome with
  | error error => rfl
  | ok bytes =>
    dsimp only
    change Mirrors store (if bytes.size = blockSize after.store then _ else _) _
    split <;> rfl

/-- A block passes when it is as the guard knows it. -/
theorem mirrors_writebackBlock {tag : Nat} {bytes : Array UInt8} (current : bytes = truth tag) :
    Mirrors store (writebackBlock guarded tag bytes) (writebackBlock guarded.store tag bytes) := by
  unfold writebackBlock
  change Mirrors store (if bytes.size = blockSize guarded.store then _ else _) _
  split
  · have passed : require (decide (bytes = truth tag)) alarm = .ok () :=
      require_eq_ok_iff.mpr (decide_eq_true current)
    change Mirrors store (require (decide (bytes = truth tag)) alarm >>= _) _
    rw [passed, ok_bind]
    cases writeback guarded.store tag bytes <;> rfl
  · rfl

theorem mirrors_sendAll {queue : List Writeback}
    (current : ∀ block ∈ queue, block.bytes = truth block.tag) :
    Mirrors store (sendAll guarded queue) (sendAll guarded.store queue) := by
  induction queue generalizing guarded with
  | nil => rfl
  | cons block rest ih =>
    refine (mirrors_writebackBlock (current block List.mem_cons_self)).bind fun outcome after _ => ?_
    cases outcome with
    | error error => rfl
    | ok => exact ih fun other isRest => current other (List.mem_cons_of_mem _ isRest)

end Guarded

namespace BackedCache

open BlockStore

section Runs

variable {σ : Type} [BlockStore σ] {good : σ → Prop} {contents : σ → Blocks} {flat : Blocks}
  {backed after : BackedCache σ}

/-- What a cache before a flat memory is from its making on: faithful with an empty queue,
or without anything for good. -/
inductive Standing (good : σ → Prop) (contents : σ → Blocks) (flat : Blocks)
    (backed : BackedCache σ) : Prop
  | faithful (faithful : Faithful good contents flat backed)
      (idle : backed.cache.view.queue = [])
  | vacant (vacant : backed.cache.Vacant) (isGood : good backed.store)

section Vacancies

variable (vacant : backed.cache.Vacant) {address : Address}
include vacant

theorem drain_of_vacant {outcome : BackedReply Unit} (ran : backed.drain = .ok (outcome, after)) :
    outcome = .ok () ∧ after.cache.Vacant ∧ after.store = backed.store := by
  have queue : backed.cache.writebacks.toList = [] := vacant.blank.queue
  obtain ⟨⟨_, store⟩, sent, same⟩ := bind_eq_ok_iff.mp ran
  change sendAll backed.store backed.cache.writebacks.toList = _ at sent
  rw [queue] at sent
  cases sent
  cases same
  exact ⟨rfl, vacant.drained, rfl⟩

/-- No access gets past a miss, since the block cannot be filled in. -/
theorem access_ne_of_vacant (serves : Serves good contents) (isGood : good backed.store)
    {access : Access} (result : BackedReply (UInt8 × Bool) × BackedCache σ) :
    backed.access address access ≠ .ok result := by
  intro ran
  obtain ⟨⟨found, cache⟩, accessed, ran⟩ := bind_eq_ok_iff.mp ran
  obtain ⟨rfl, stats, rfl⟩ := vacant.access_eq accessed
  obtain ⟨⟨outcome, middle⟩, missed, _⟩ := bind_eq_ok_iff.mp ran
  have vacant' := vacant.withStats stats
  have isTag : backed.cache.layout.tag address = .ok (backed.cache.layout.blockOf address) :=
    vacant.tag_eq
  obtain ⟨retired, isRetired, tidy, published⟩ := Cache.retireStale_spec vacant'.tidy isTag
  obtain ⟨_, retired', missed⟩ := bind_eq_ok_iff.mp missed
  cases isRetired.symm.trans retired'
  obtain ⟨⟨drained, emptied⟩, isDrained, missed⟩ := bind_eq_ok_iff.mp missed
  obtain ⟨rfl, vacant'', store⟩ := drain_of_vacant (vacant'.published tidy published) isDrained
  dsimp only at vacant'' store missed
  obtain ⟨tag, _, missed⟩ := bind_eq_ok_iff.mp missed
  obtain ⟨⟨fetched, store'⟩, served, missed⟩ := bind_eq_ok_iff.mp missed
  obtain ⟨rfl, _⟩ := serves.fetch (store ▸ isGood) served
  obtain ⟨filled, isFilled, _⟩ := bind_eq_ok_iff.mp missed
  exact vacant''.fill_ne _ _ isFilled

theorem run_of_vacant (serves : Serves good contents) (isGood : good backed.store)
    {command : Command} {reply : BackedReply Reply} (ran : backed.run command = .ok (reply, after)) :
    after.cache.Vacant ∧ after.store = backed.store := by
  cases performed_of_run ran with
  | access _ accessed => exact absurd accessed (access_ne_of_vacant vacant serves isGood _)
  | flush _ flushed =>
    obtain ⟨⟨_, drained⟩, isDrained, same⟩ := bind_eq_ok_iff.mp flushed
    cases same
    obtain ⟨tidy, published⟩ := Cache.flushDirty_spec vacant.tidy
    have vacant' := vacant.published tidy published
    obtain ⟨_, vacant'', store⟩ := drain_of_vacant vacant' isDrained
    exact ⟨vacant'', store⟩
  | setLocked _ isLocked _ same =>
    subst same
    exact ⟨vacant.setLocked isLocked, rfl⟩

end Vacancies

theorem Faithful.runAll (faithful : Faithful good contents flat backed)
    (serves : Serves good contents) (idle : backed.cache.view.queue = []) {commands : List Command}
    {replies : List (BackedReply Reply)} (ran : backed.runAll commands = .ok (replies, after)) :
    Faithful good contents (flat.overlay backed.cache.layout commands) after ∧
      after.cache.view.queue = [] := by
  induction commands generalizing backed flat replies with
  | nil =>
    cases ran
    exact ⟨faithful, idle⟩
  | cons command rest ih =>
    obtain ⟨⟨reply, middle⟩, first, ran⟩ := bind_eq_ok_iff.mp ran
    obtain ⟨⟨replies', _⟩, others, same⟩ := bind_eq_ok_iff.mp ran
    cases same
    obtain ⟨advanced, _⟩ := (faithful.run serves idle command).of_eq_ok first
    have layout : middle.cache.layout = backed.cache.layout := congrArg Frame.layout advanced.frame
    have found := ih advanced.faithful advanced.idle others
    rw [layout] at found
    exact found

theorem runAll_of_vacant (vacant : backed.cache.Vacant) (serves : Serves good contents)
    (isGood : good backed.store) {commands : List Command} {replies : List (BackedReply Reply)}
    (ran : backed.runAll commands = .ok (replies, after)) :
    after.cache.Vacant ∧ after.store = backed.store := by
  induction commands generalizing backed replies with
  | nil =>
    cases ran
    exact ⟨vacant, rfl⟩
  | cons command rest ih =>
    obtain ⟨⟨reply, middle⟩, first, ran⟩ := bind_eq_ok_iff.mp ran
    obtain ⟨⟨replies', _⟩, others, same⟩ := bind_eq_ok_iff.mp ran
    cases same
    obtain ⟨vacant', store⟩ := run_of_vacant vacant serves isGood first
    obtain ⟨vacant'', store'⟩ := ih vacant' (store ▸ isGood) others
    exact ⟨vacant'', store'.trans store⟩

/-- A flat memory with the writes so far stands behind every run. -/
theorem Standing.runAll (standing : Standing good contents flat backed)
    (serves : Serves good contents) {commands : List Command} {replies : List (BackedReply Reply)}
    (ran : backed.runAll commands = .ok (replies, after)) :
    Standing good contents (flat.overlay backed.cache.layout commands) after := by
  cases standing with
  | faithful faithful idle =>
    obtain ⟨faithful', idle'⟩ := faithful.runAll serves idle ran
    exact .faithful faithful' idle'
  | vacant vacant isGood =>
    obtain ⟨vacant', store⟩ := runAll_of_vacant vacant serves isGood ran
    exact .vacant vacant' (store ▸ isGood)

theorem standing_of_ofCache {config : Config} {cache : Cache} {store : σ}
    (made : Cache.ofConfig config = .ok cache) (isGood : good store)
    (joined : ofCache cache store = .ok backed) :
    Standing good contents (contents store) backed ∧ backed.cache = cache := by
  cases Cache.ready_of_ofConfig made with
  | sound tidy sound =>
    obtain ⟨blockSize_eq, rfl⟩ := (ofCache_eq_ok_iff sound.founded.regular).mp joined
    exact ⟨.faithful (faithful_of_ofConfig made sound.founded isGood blockSize_eq)
      (Cache.blank_of_ofConfig made).queue, rfl⟩
  | vacant vacant =>
    obtain ⟨_, _, joined⟩ := bind_eq_ok_iff.mp joined
    obtain ⟨_, _, same⟩ := bind_eq_ok_iff.mp joined
    cases same
    exact ⟨.vacant vacant isGood, rfl⟩

end Runs

section Mirrored

variable {σ : Type} [BlockStore σ] {good : σ → Prop} {contents : σ → Blocks} {truth : Blocks}
  {alarm : Fault} {backed : BackedCache (Guarded σ truth alarm)} {address : Address}

theorem mirrors_drain
    (current : ∀ {block : Writeback}, block ∈ backed.cache.view.queue →
      block.bytes = truth block.tag) : Mirrors unguarded backed.drain backed.unguarded.drain :=
  (Guarded.mirrors_sendAll fun _ => current).bind fun _ _ _ => rfl

theorem Missing.mirrors_refill (missing : Missing good contents truth address backed.unguarded)
    (serves : Serves good contents) :
    Mirrors unguarded (backed.refill address) (backed.unguarded.refill address) := by
  have faithful := missing.faithful
  have regular : backed.cache.layout.Regular := faithful.sound.founded.regular
  refine Mirrors.after (backed.cache.layout.tag address) fun tag isTag => ?_
  cases (regular.tag_eq address).symm.trans isTag
  refine (Guarded.mirrors_fetchBlock _).bind fun outcome after fetched => ?_
  obtain ⟨rfl, isGood, size, same⟩ := serves.fetch faithful.good fetched
  have stored : contents backed.unguarded.store (backed.cache.layout.blockOf address) =
      truth (backed.cache.layout.blockOf address) :=
    faithful.coherent.stored_eq missing.idle missing.clean
  refine Mirrors.after (backed.cache.fill address _) fun (leaf, cache) filled => ?_
  obtain ⟨tidy, sound, inserted⟩ :=
    (Cache.fill_outcome faithful.sound faithful.tidy _).of_eq_ok filled
  rw [stored] at inserted
  exact mirrors_drain (missing.filled tidy sound inserted isGood size same).coherent.queued

theorem Faithful.mirrors_serveMiss (faithful : Faithful good contents truth backed.unguarded)
    (serves : Serves good contents)
    (unresolved : ∀ index, ¬ backed.cache.view.Resolves (backed.cache.layout.blockOf address) index) :
    Mirrors unguarded (backed.serveMiss address) (backed.unguarded.serveMiss address) := by
  have regular : backed.cache.layout.Regular := faithful.sound.founded.regular
  obtain ⟨⟨retired, cache⟩, ran, tidy, published⟩ :=
    Cache.retireStale_spec faithful.tidy (regular.tag_eq address)
  have drained : Mirrors unguarded (BackedCache.drain { backed with cache })
      (BackedCache.drain { backed.unguarded with cache }) :=
    mirrors_drain (faithful.published tidy published).coherent.queued
  refine Mirrors.after (backed.cache.retireStale address) fun result isRetired => ?_
  cases isRetired.symm.trans ran
  refine drained.bind fun outcome middle sent => ?_
  obtain ⟨rfl, missing, _⟩ := (faithful.retire serves unresolved tidy published).of_eq_ok sent
  exact missing.mirrors_refill serves

/-- An access asks something of the store only when it misses. -/
theorem mirrors_access {access : Access}
    (missed : ∀ cache, backed.cache.access address access = .ok (none, cache) →
      Mirrors unguarded (serveMiss { backed with cache } address)
        (serveMiss { backed.unguarded with cache } address)) :
    Mirrors unguarded (backed.access address access) (backed.unguarded.access address access) := by
  refine Mirrors.after (backed.cache.access address access) fun (found, cache) ran => ?_
  cases found with
  | some byte => rfl
  | none =>
    refine (missed cache ran).bind fun outcome after _ => ?_
    cases outcome with
    | error error => rfl
    | ok =>
      refine Mirrors.after (after.cache.access address access) fun (found, cache) _ => ?_
      cases found <;> rfl

theorem mirrors_drain_of_vacant (vacant : backed.cache.Vacant) :
    Mirrors unguarded backed.drain backed.unguarded.drain := by
  refine mirrors_drain fun {block} isQueued => ?_
  rw [vacant.blank.queue] at isQueued
  cases isQueued

theorem mirrors_serveMiss_of_vacant (vacant : backed.cache.Vacant) :
    Mirrors unguarded (backed.serveMiss address) (backed.unguarded.serveMiss address) := by
  have isTag : backed.cache.layout.tag address = .ok (backed.cache.layout.blockOf address) :=
    vacant.tag_eq
  obtain ⟨⟨retired, cache⟩, ran, tidy, published⟩ := Cache.retireStale_spec vacant.tidy isTag
  have retiredVacant : cache.Vacant := vacant.published tidy published
  have drained : Mirrors unguarded (drain { backed with cache })
      (drain { backed.unguarded with cache }) := mirrors_drain_of_vacant retiredVacant
  refine Mirrors.after (backed.cache.retireStale address) fun result isRetired => ?_
  cases isRetired.symm.trans ran
  refine drained.bind fun outcome middle sent => ?_
  obtain ⟨rfl, emptied, _⟩ := drain_of_vacant retiredVacant sent
  refine Mirrors.after (middle.cache.layout.tag address) fun tag _ => ?_
  refine (Guarded.mirrors_fetchBlock tag).bind fun outcome after _ => ?_
  cases outcome with
  | error error => rfl
  | ok bytes =>
    refine Mirrors.after (middle.cache.fill address bytes) fun filled isFilled => ?_
    exact absurd isFilled (emptied.fill_ne _ _)

theorem Standing.mirrors_access (standing : Standing good contents truth backed.unguarded)
    (serves : Serves good contents) (address : Address) (access : Access) :
    Mirrors unguarded (backed.access address access) (backed.unguarded.access address access) := by
  refine BackedCache.mirrors_access fun cache ran => ?_
  cases standing with
  | faithful faithful idle =>
    obtain ⟨tidy, accessed⟩ :=
      (Cache.access_outcome faithful.sound faithful.tidy address access).of_eq_ok ran
    obtain ⟨faithful', unresolved, _⟩ := faithful.missed tidy accessed
    exact Faithful.mirrors_serveMiss faithful' serves unresolved
  | vacant vacant isGood =>
    obtain ⟨_, stats, rfl⟩ := Cache.Vacant.access_eq vacant ran
    exact mirrors_serveMiss_of_vacant (Cache.Vacant.withStats vacant stats)

theorem Standing.mirrors_flush (standing : Standing good contents truth backed.unguarded) :
    Mirrors unguarded backed.flush backed.unguarded.flush := by
  have drained : Mirrors unguarded (drain { backed with cache := backed.cache.flushDirty.2 })
      (drain { backed.unguarded with cache := backed.cache.flushDirty.2 }) := by
    cases standing with
    | faithful faithful idle =>
      obtain ⟨tidy, published⟩ := Cache.flushDirty_spec faithful.tidy
      exact mirrors_drain (faithful.published tidy published).coherent.queued
    | vacant vacant isGood =>
      obtain ⟨tidy, published⟩ := Cache.flushDirty_spec vacant.tidy
      exact mirrors_drain_of_vacant (Cache.Vacant.published vacant tidy published)
  exact drained.bind fun _ _ _ => rfl

/-- A guard that knows the memory is never alarmed. -/
theorem Standing.mirrors_run (standing : Standing good contents truth backed.unguarded)
    (serves : Serves good contents) (command : Command) :
    Mirrors unguarded (backed.run command) (backed.unguarded.run command) := by
  have accessed := standing.mirrors_access serves
  cases command with
  | access address access => exact (accessed address access).bind fun _ _ _ => rfl
  | read address =>
    have isRead : Mirrors unguarded (backed.read address) (backed.unguarded.read address) :=
      (accessed address .read).bind fun _ _ _ => rfl
    exact isRead.bind fun _ _ _ => rfl
  | write address value =>
    have isWritten : Mirrors unguarded (backed.write address value)
        (backed.unguarded.write address value) :=
      (accessed address (.write value)).bind fun _ _ _ => rfl
    exact isWritten.bind fun _ _ _ => rfl
  | flush => exact standing.mirrors_flush.bind fun _ _ _ => rfl
  | setLocked index locked => exact Mirrors.after (backed.cache.setLocked index locked) fun _ _ => rfl

end Mirrored

end BackedCache

namespace Cache

variable {cache : Cache}

/-- An access to a block finds it in this place: the fast path leads there, or a walk does. -/
def Locates (cache : Cache) (tag index : Nat) : Prop :=
  cache.fastPath.lookup tag = some index ∨
    ∃ address after, cache.layout.tag address = .ok tag ∧
      cache.search address = .ok (.hit index, after)

/-- A built data block that carries a tag. -/
structure Carries (cache : Cache) (tag index : Nat) (block : Block) : Prop where
  found : cache.pool.blocks[index]? = some block
  valid : block.valid = true
  level : block.level = cache.layout.depth
  tag : block.tag = tag

/-- The copies of every block agree with each other and with a memory. -/
structure CopiesAgree (cache : Cache) (memory : Blocks) : Prop where
  /-- At most one copy of a block is dirty. -/
  single {tag first second : Nat} {one other : Block} : cache.Carries tag first one →
    cache.Carries tag second other → one.dirty = true → other.dirty = true → first = second
  /-- Where a block is found, its other copies are clean. -/
  others {tag index other : Nat} {block : Block} : cache.Locates tag index →
    cache.Carries tag other block → other ≠ index → block.dirty = false
  /-- A copy that is found is one of its block, and when it is clean the memory has the same. -/
  current {tag index : Nat} : cache.Locates tag index → ∃ block, cache.Carries tag index block ∧
    (block.dirty = false → block.payload = .data (memory tag))

theorem Carries.holds {tag index : Nat} {block : Block} (carries : cache.Carries tag index block) :
    cache.view.copies index =
      some { tag, bytes := block.bytes?.getD #[], dirty := block.dirty } := by
  refine (Pool.look_of_block carries.found _).trans ?_
  exact Block.copy?_eq_some_iff.mpr ⟨carries.valid, carries.level, by rw [carries.tag]⟩

theorem Locates.resolves {tag index : Nat} (sound : cache.view.Sound) (tidy : cache.Tidy)
    (locates : cache.Locates tag index) : cache.view.Resolves tag index := by
  have regular : cache.layout.Regular := sound.founded.regular
  rcases locates with leads | ⟨address, after, isTag, searched⟩
  · exact .inl leads
  · cases (regular.tag_eq address).symm.trans isTag
    exact .inr ((search_outcome sound tidy address).of_eq_ok searched).2

theorem Vacant.not_locates (vacant : cache.Vacant) (tag index : Nat) :
    ¬ cache.Locates tag index := by
  rintro (leads | ⟨address, after, _, searched⟩)
  · exact vacant.blank.not_resolves tag index (.inl leads)
  · cases (vacant.search_eq searched).1

theorem Vacant.not_carries (vacant : cache.Vacant) {tag index : Nat} {block : Block} :
    ¬ cache.Carries tag index block := by
  intro carries
  have nothing := vacant.blank.copies index
  rw [carries.holds] at nothing
  cases nothing

end Cache

namespace BackedCache

open BlockStore

variable {σ : Type} [BlockStore σ] {good : σ → Prop} {contents : σ → Blocks} {flat : Blocks}
  {backed : BackedCache σ}

theorem Faithful.copiesAgree (faithful : Faithful good contents flat backed)
    (idle : backed.cache.view.queue = []) :
    backed.cache.CopiesAgree (contents backed.store) where
  single := fun one other dirty dirty' =>
    faithful.coherent.single one.holds other.holds dirty dirty' rfl
  others := fun locates carries distinct =>
    faithful.coherent.others (locates.resolves faithful.sound faithful.tidy) carries.holds rfl distinct
  current := by
    intro tag index locates
    have resolves := locates.resolves faithful.sound faithful.tidy
    obtain ⟨copy, holds, tagged, current⟩ := faithful.coherent.kept resolves
    obtain ⟨block, found, seen⟩ := Pool.look_eq_some_iff.mp holds
    obtain ⟨valid, level, rfl⟩ := Block.copy?_eq_some_iff.mp seen
    obtain ⟨bytes, payload, _⟩ := faithful.tidy.data_of_leaf found valid level
    refine ⟨block, ⟨found, valid, level, tagged⟩, fun clean => ?_⟩
    have stored : contents backed.store tag = flat tag := by
      refine faithful.coherent.stored_eq idle fun {other copy} holds' tagged' => ?_
      by_cases here : other = index
      · subst here
        cases holds.symm.trans holds'
        exact clean
      · exact faithful.coherent.others resolves holds' tagged' here
    rw [stored, payload, Option.some.inj current, Block.bytes?, payload]
    rfl

theorem Standing.copiesAgree (standing : Standing good contents flat backed) :
    backed.cache.CopiesAgree (contents backed.store) := by
  cases standing with
  | faithful faithful idle => exact faithful.copiesAgree idle
  | vacant vacant _ =>
    exact {
      single := fun one => absurd one vacant.not_carries
      others := fun locates => absurd locates (vacant.not_locates _ _)
      current := fun locates => absurd locates (vacant.not_locates _ _) }

/-- At every point of a run the copies of all blocks agree.  The next operation writes no
block back but as the initial memory has it with the writes so far: before a guard that
would not let another block pass it ends the same way, even when it ends in a fault. -/
theorem copiesAgree_of_runAll {config : Config} {cache : Cache} {store : σ}
    {after : BackedCache σ} {commands : List Command} {replies : List (BackedReply Reply)}
    (serves : Serves good contents) (isGood : good store)
    (made : Cache.ofConfig config = .ok cache) (joined : ofCache cache store = .ok backed)
    (ran : backed.runAll commands = .ok (replies, after)) :
    after.cache.CopiesAgree (contents after.store) ∧
      ∀ (alarm : Fault) (command : Command),
        ((after.guarded ((contents store).overlay cache.layout commands) alarm).run command).map
          (Prod.map id unguarded) = after.run command := by
  obtain ⟨fresh, rfl⟩ : Standing good contents (contents store) backed ∧ backed.cache = cache :=
    standing_of_ofCache made isGood joined
  have standing := fresh.runAll serves ran
  exact ⟨standing.copiesAgree, fun alarm command => Standing.mirrors_run standing serves command⟩

theorem copiesAgree_before_flush : ∃ cache backed replies after,
    Cache.ofConfig .tiny = .ok cache ∧ ofCache cache ({ blockSize := 4 } : Memory) = .ok backed ∧
      backed.runAll [.write 0x01 7, .read 0x08, .read 0x10, .write 0x18 9, .read 0x20,
        .write 0x01 8] = .ok (replies, after) ∧
      after.cache.CopiesAgree after.store.contents ∧
      ∀ (alarm : Fault) (command : Command),
        ((after.guarded ((Memory.contents { blockSize := 4 }).overlay cache.layout
          [.write 0x01 7, .read 0x08, .read 0x10, .write 0x18 9, .read 0x20, .write 0x01 8])
          alarm).run command).map (Prod.map id unguarded) = after.run command := by
  have answers : (do
      let cache ← Cache.ofConfig .tiny
      let backed ← ofCache cache ({ blockSize := 4 } : Memory)
      let result ← backed.runAll [.write 0x01 7, .read 0x08, .read 0x10, .write 0x18 9, .read 0x20,
        .write 0x01 8]
      result.2.run .flush).map Prod.fst = .ok (.ok (.count 2)) := by decide +kernel
  obtain ⟨⟨reply, _⟩, ran, _⟩ := exists_eq_ok_of_map answers
  obtain ⟨cache, made, ran⟩ := bind_eq_ok_iff.mp ran
  obtain ⟨backed, joined, ran⟩ := bind_eq_ok_iff.mp ran
  obtain ⟨⟨replies, after⟩, first, _⟩ := bind_eq_ok_iff.mp ran
  exact ⟨cache, backed, replies, after, made, joined, first,
    copiesAgree_of_runAll Memory.serves (Memory.whole_of_empty 4) made joined first⟩

end BackedCache

end TrieCache
