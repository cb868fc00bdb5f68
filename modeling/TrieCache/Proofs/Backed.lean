import TrieCache.Backed.Command
import TrieCache.Proofs.Coherence

/-!
# Operations before a store

What an operation of a cache before a flat memory does, with what it asks of the store.  It
keeps cache and store coherent with the flat memory and leaves the queue empty.  It fails
only where the cache does, or where the store faults.
-/

namespace TrieCache.BackedCache

open BlockStore

variable {σ : Type} [BlockStore σ] {good : σ → Prop} {contents : σ → Blocks} {flat : Blocks}

/-- Cache and store together hold a flat memory. -/
structure Faithful (good : σ → Prop) (contents : σ → Blocks) (flat : Blocks)
    (backed : BackedCache σ) : Prop where
  tidy : backed.cache.Tidy
  sound : backed.cache.view.Sound
  good : good backed.store
  blockSize_eq : blockSize backed.store = backed.cache.layout.blockBytes
  coherent : backed.cache.view.Coherent flat (contents backed.store)
  whole {block : Writeback} : block ∈ backed.cache.view.queue →
    block.bytes.size = backed.cache.layout.blockBytes

/-- What was asked of the store on the way from one state to another.  Every block that
was dirty or queued was written back or still is. -/
structure Progress (fetched : Nat) (before after : BackedCache σ) : Prop where
  frame : after.cache.frame = before.cache.frame
  locked : after.cache.view.locked = before.cache.view.locked
  supplied : ∃ issued, Supplied before.store fetched issued after.store ∧
    issued.length + after.cache.view.pending = before.cache.view.pending

inductive Denied (backed : BackedCache σ) (address : Address) (fault : Fault) : Prop
  | outside : backed.cache.layout.contains address = false → Denied backed address fault
  | noRoom : Cache.NoRoom backed.cache.view fault → Denied backed address fault
  | overflow : FastPathOverflow backed.cache.view fault → Denied backed address fault
  | store : Breaks backed.store 1 backed.cache.view.pending fault → Denied backed address fault

variable {before middle after backed : BackedCache σ} {address : Address}

theorem Progress.of_view {cache : Cache} (view : cache.view = backed.cache.view) :
    Progress 0 backed { backed with cache } where
  frame := congrArg View.frame view
  locked := congrArg View.locked view
  supplied := by
    refine ⟨[], .none, ?_⟩
    rw [view]
    exact Nat.zero_add _

theorem Progress.trans {fetched fetched' : Nat} (first : Progress fetched before middle)
    (second : Progress fetched' middle after) :
    Progress (fetched' + fetched) before after where
  frame := second.frame.trans first.frame
  locked := second.locked.trans first.locked
  supplied := by
    obtain ⟨issued, supplied, pending⟩ := first.supplied
    obtain ⟨issued', supplied', pending'⟩ := second.supplied
    refine ⟨issued ++ issued', supplied.trans supplied', ?_⟩
    rw [List.length_append]
    omega

theorem Progress.denied {fault : Fault} (progress : Progress 0 before middle)
    (sequence : middle.cache.view.sequence = before.cache.view.sequence)
    (denied : Denied middle address fault) : Denied before address fault := by
  have frame : middle.cache.view.frame = before.cache.view.frame := progress.frame
  have layout : middle.cache.layout = before.cache.layout := congrArg Frame.layout frame
  cases denied with
  | outside outside => exact .outside (layout ▸ outside)
  | noRoom noRoom =>
    rw [Cache.NoRoom, View.unlocked, progress.locked, frame] at noRoom
    exact .noRoom noRoom
  | overflow overflow =>
    rw [FastPathOverflow, sequence, frame] at overflow
    exact .overflow overflow
  | store breaks =>
    obtain ⟨issued, supplied, pending⟩ := progress.supplied
    exact .store ((Breaks.before supplied breaks).mono (Nat.le_refl _) (Nat.le_of_eq pending))

/-- A store that took over the whole queue is coherent with the cache without it. -/
theorem Faithful.sent (faithful : Faithful good contents flat backed) {contents' : σ → Blocks}
    {store : σ} (isGood : good store) (size : blockSize store = blockSize backed.store)
    (received : contents' store = (contents backed.store).receive backed.cache.view.queue) :
    Faithful good contents' flat
      { cache := { backed.cache with writebacks := #[] }, store } where
  tidy := ⟨faithful.tidy.hand_lt, faithful.tidy.shaped, faithful.tidy.bounded,
    faithful.tidy.recorded⟩
  sound := by
    have sound := faithful.sound
    exact ⟨sound.founded, sound.linked, sound.placed, sound.tagged, sound.agree⟩
  good := isGood
  blockSize_eq := size.trans faithful.blockSize_eq
  coherent := by
    rw [received]
    exact faithful.coherent.sent
  whole := nofun

/-- Sending the queue brings the store up to date with it. -/
theorem Faithful.drain (faithful : Faithful good contents flat backed)
    (serves : Serves good contents) :
    Ends backed.drain
      (fun (outcome, after) => outcome = .ok () ∧ Faithful good contents flat after ∧
        after.cache.view = { backed.cache.view with queue := [] } ∧ Progress 0 backed after)
      (Breaks backed.store 0 backed.cache.view.pending) := by
  have whole : ∀ block ∈ backed.cache.writebacks.toList,
      block.bytes.size = blockSize backed.store :=
    fun block isQueued => (faithful.whole isQueued).trans faithful.blockSize_eq.symm
  refine (drain_outcome serves faithful.good whole).mono ?_ fun fault breaks => ?_
  · rintro ⟨outcome, cache, store⟩ ⟨sent, emptied, supplied⟩
    dsimp only at emptied supplied
    subst emptied
    obtain ⟨isGood, size, received⟩ := supplied.spec serves faithful.good
    refine ⟨sent, faithful.sent isGood size received, rfl, rfl, rfl, _, supplied, ?_⟩
    rw [View.pending, View.pending]
    change _ + (0 + View.changed _) = _
    rw [Nat.zero_add]
    rfl
  · exact breaks.mono (Nat.le_refl _) (Nat.le_add_right _ _)

theorem Faithful.published (faithful : Faithful good contents flat backed) {cache : Cache}
    {chosen : Nat → Nat → Bool} (tidy : cache.Tidy)
    (published : backed.cache.view.Published chosen cache.view) :
    Faithful good contents flat { backed with cache } := by
  have layout : cache.layout = backed.cache.layout := congrArg Frame.layout published.frame
  refine ⟨tidy, published.sound faithful.sound, faithful.good, ?_,
    faithful.coherent.published published, fun {block} isQueued => ?_⟩
  · rw [layout]
    exact faithful.blockSize_eq
  · obtain ⟨added, queue, added_iff⟩ := published.queue
    change block ∈ cache.view.queue at isQueued
    rw [queue, List.mem_append] at isQueued
    rw [layout]
    rcases isQueued with isOld | isAdded
    · exact faithful.whole isOld
    · obtain ⟨index, copy, holds, _, _, rfl⟩ := (added_iff block).mp isAdded
      exact faithful.tidy.size_of_copy holds

/-- What was asked of the store after copies were cleaned was asked from the start. -/
theorem Progress.of_published {cache : Cache} {chosen : Nat → Nat → Bool}
    (published : backed.cache.view.Published chosen cache.view)
    (progress : Progress 0 { backed with cache } after) : Progress 0 backed after := by
  obtain ⟨issued, supplied, counted⟩ := progress.supplied
  refine ⟨progress.frame.trans published.frame, progress.locked.trans ?_, issued, supplied,
    counted.trans published.pending⟩
  change cache.view.locked = _
  rw [published.same]

theorem Faithful.publish (faithful : Faithful good contents flat backed)
    (serves : Serves good contents) {cache : Cache} {chosen : Nat → Nat → Bool}
    (tidy : cache.Tidy) (published : backed.cache.view.Published chosen cache.view) :
    Ends (BackedCache.drain { backed with cache })
      (fun (outcome, after) => outcome = .ok () ∧ Faithful good contents flat after ∧
        after.cache.view = { cache.view with queue := [] } ∧ Progress 0 backed after)
      (Breaks backed.store 0 backed.cache.view.pending) := by
  have pending : cache.view.pending = backed.cache.view.pending := published.pending
  refine ((faithful.published tidy published).drain serves).mono ?_
    fun fault breaks => pending ▸ breaks
  rintro ⟨outcome, after⟩ ⟨sent, upheld, view, progress⟩
  exact ⟨sent, upheld, view, progress.of_published published⟩

/-- A block is missing from the cache, and the store has it as it should be. -/
structure Missing (good : σ → Prop) (contents : σ → Blocks) (flat : Blocks) (address : Address)
    (backed : BackedCache σ) : Prop where
  faithful : Faithful good contents flat backed
  idle : backed.cache.view.queue = []
  unresolved (index : Nat) :
    ¬ backed.cache.view.Resolves (backed.cache.layout.blockOf address) index
  clean {index : Nat} {copy : Copy} : backed.cache.view.copies index = some copy →
    copy.tag = backed.cache.layout.blockOf address → copy.dirty = false

/-- Once the stale copies of a block are sent, no change to it is left in the cache. -/
theorem Missing.of_published
    (unresolved : ∀ index, ¬ backed.cache.view.Resolves (backed.cache.layout.blockOf address) index)
    {cache : Cache} (published : backed.cache.view.Published
      (Cache.stale (backed.cache.layout.blockOf address)
        (backed.cache.view.shortcut (backed.cache.layout.blockOf address))) cache.view)
    (faithful : Faithful good contents flat after)
    (view : after.cache.view = { cache.view with queue := [] }) :
    Missing good contents flat address after := by
  have frame : after.cache.view.frame = backed.cache.view.frame := by
    rw [view]
    exact published.frame
  have layout : after.cache.layout = backed.cache.layout := congrArg Frame.layout frame
  have absent := View.shortcut_eq_none unresolved
  refine ⟨faithful, congrArg View.queue view, fun index resolves => ?_,
    fun {index copy} holds tagged => ?_⟩
  · rw [view, published.same, layout] at resolves
    exact unresolved index resolves
  · rw [view] at holds
    change cache.view.copies index = some copy at holds
    rw [absent] at published
    rw [layout] at tagged
    exact Cache.clean_of_stale published holds tagged

/-- A miss comes down to a missing block once the stale copies of the block are sent. -/
theorem Faithful.retire (faithful : Faithful good contents flat backed)
    (serves : Serves good contents)
    (unresolved : ∀ index, ¬ backed.cache.view.Resolves (backed.cache.layout.blockOf address) index)
    {cache : Cache} (tidy : cache.Tidy)
    (published : backed.cache.view.Published (Cache.stale (backed.cache.layout.blockOf address)
      (backed.cache.view.shortcut (backed.cache.layout.blockOf address))) cache.view) :
    Ends (BackedCache.drain { backed with cache })
      (fun (outcome, after) => outcome = .ok () ∧ Missing good contents flat address after ∧
        Progress 0 backed after ∧
        after.cache.view.sequence = backed.cache.view.sequence)
      (Breaks backed.store 0 backed.cache.view.pending) := by
  refine (faithful.publish serves tidy published).mono ?_ fun _ breaks => breaks
  rintro ⟨outcome, after⟩ ⟨sent, faithful', view, progress⟩
  refine ⟨sent, Missing.of_published unresolved published faithful' view, progress, ?_⟩
  rw [view, published.same]

theorem Missing.filled (missing : Missing good contents flat address backed) {cache : Cache}
    {store : σ} {leaf : Nat} (tidy : cache.Tidy) (sound : cache.view.Sound)
    (inserted : backed.cache.view.Inserted (backed.cache.layout.blockOf address)
      (flat (backed.cache.layout.blockOf address)) leaf cache.view)
    (isGood : good store) (size : blockSize store = blockSize backed.store)
    (same : contents store = contents backed.store) :
    Faithful good contents flat { cache, store } := by
  have faithful := missing.faithful
  have layout : cache.layout = backed.cache.layout := congrArg Frame.layout inserted.frame
  refine ⟨tidy, sound, isGood, ?_, ?_, fun {block} isQueued => ?_⟩
  · rw [layout]
    exact size.trans faithful.blockSize_eq
  · rw [same]
    exact faithful.coherent.inserted inserted missing.clean (Cache.copy_of_resolves sound)
  · obtain ⟨added, queue, fromBefore, _⟩ := inserted.queue
    change block ∈ cache.view.queue at isQueued
    rw [queue, missing.idle, List.nil_append] at isQueued
    obtain ⟨index, copy, holds, _, rfl⟩ := fromBefore block isQueued
    rw [layout]
    exact faithful.tidy.size_of_copy holds

/-- What serving a miss establishes: the block is there, on the fast path. -/
structure Refilled (good : σ → Prop) (contents : σ → Blocks) (flat : Blocks) (fetched tag : Nat)
    (before after : BackedCache σ) : Prop where
  faithful : Faithful good contents flat after
  idle : after.cache.view.queue = []
  progress : Progress fetched before after
  sequence_le : after.cache.view.sequence ≤ before.cache.view.sequence + 1
  shortcut : after.cache.view.shortcut tag ≠ none

theorem Missing.denied (missing : Missing good contents flat address backed) {bytes : Array UInt8}
    (whole : bytes.size = backed.cache.layout.blockBytes) {fault : Fault}
    (failed : bytes.size ≠ backed.cache.layout.blockBytes ∨
      backed.cache.view.Uninserted address fault) : Denied backed address fault := by
  rcases failed with partly | failed
  · exact absurd whole partly
  · cases failed with
    | outside outside => exact .outside outside
    | present index resolves => exact absurd resolves (missing.unresolved index)
    | noRoom noRoom => exact .noRoom noRoom
    | overflow overflow => exact .overflow overflow

/-- Once the block was filled in and the queue was sent, the miss is served. -/
theorem Missing.refilled {cache : Cache} {store : σ} {leaf : Nat}
    (inserted : backed.cache.view.Inserted (backed.cache.layout.blockOf address)
      (flat (backed.cache.layout.blockOf address)) leaf cache.view)
    (fetched : Supplied backed.store 1 [] store) (upheld : Faithful good contents flat after)
    (view : after.cache.view = { cache.view with queue := [] })
    (progress : Progress 0 { cache, store } after) :
    Refilled good contents flat 1 (backed.cache.layout.blockOf address) backed after := by
  have pending : cache.view.pending = backed.cache.view.pending := inserted.pending
  have shortcut : cache.view.shortcut (backed.cache.layout.blockOf address) = some leaf :=
    inserted.shortcut
  obtain ⟨issued, supplied, counted⟩ := progress.supplied
  refine ⟨upheld, congrArg View.queue view, ⟨progress.frame.trans inserted.frame,
    progress.locked.trans inserted.locked, issued, fetched.trans supplied,
    counted.trans pending⟩, ?_, ?_⟩
  · rw [view]
    exact inserted.sequence_le
  · rw [view]
    change cache.view.shortcut _ ≠ none
    rw [shortcut]
    exact Option.some_ne_none _

theorem Missing.refill (missing : Missing good contents flat address backed)
    (serves : Serves good contents) :
    Ends (backed.refill address)
      (fun (outcome, after) => outcome = .ok () ∧
        Refilled good contents flat 1 (backed.cache.layout.blockOf address) backed after)
      (Denied backed address) := by
  have faithful := missing.faithful
  have regular : backed.cache.layout.Regular := faithful.sound.founded.regular
  rw [BackedCache.refill, regular.tag_eq, ok_bind]
  refine (fetchBlock_outcome serves faithful.good _).andThen
    (fun fault breaks => .store (breaks.mono (Nat.le_refl _) (Nat.zero_le _))) ?_
  rintro ⟨outcome, store⟩ ⟨rfl, supplied, size⟩
  obtain ⟨isGood, blockSize_eq, received⟩ := supplied.spec serves faithful.good
  rw [faithful.coherent.stored_eq missing.idle missing.clean] at size ⊢
  refine (Cache.fill_outcome faithful.sound faithful.tidy _).andThen
    (fun fault failed => missing.denied (size.trans faithful.blockSize_eq) failed) ?_
  rintro ⟨leaf, cache⟩ ⟨tidy, sound, inserted⟩
  have faithful' : Faithful good contents flat { cache, store } :=
    missing.filled tidy sound inserted isGood blockSize_eq received
  have pending : cache.view.pending = backed.cache.view.pending := inserted.pending
  refine (faithful'.drain serves).mono ?_ fun fault breaks => ?_
  · rintro ⟨outcome, after⟩ ⟨sent, upheld, view, progress⟩
    exact ⟨sent, Missing.refilled inserted supplied upheld view progress⟩
  · have breaks' := Breaks.before supplied breaks
    rw [pending] at breaks'
    exact .store (breaks'.mono (Nat.le_refl _) (by simp))

/-- Serving a miss publishes what the store lacks of the block, and then fetches it. -/
theorem Faithful.serveMiss (faithful : Faithful good contents flat backed)
    (serves : Serves good contents)
    (unresolved : ∀ index, ¬ backed.cache.view.Resolves (backed.cache.layout.blockOf address) index) :
    Ends (backed.serveMiss address)
      (fun (outcome, after) => outcome = .ok () ∧
        Refilled good contents flat 1 (backed.cache.layout.blockOf address) backed after)
      (Denied backed address) := by
  have regular : backed.cache.layout.Regular := faithful.sound.founded.regular
  obtain ⟨⟨retired, cache⟩, ran, tidy, published⟩ :=
    Cache.retireStale_spec faithful.tidy (regular.tag_eq address)
  rw [BackedCache.serveMiss, ran, ok_bind]
  refine (faithful.retire serves unresolved tidy published).andThen
    (fun fault breaks => .store (breaks.mono (Nat.zero_le _) (Nat.le_refl _))) ?_
  rintro ⟨outcome, middle⟩ ⟨rfl, missing, progress, sequence⟩
  have layout : middle.cache.layout = backed.cache.layout := congrArg Frame.layout progress.frame
  refine (missing.refill serves).mono ?_ fun fault denied => progress.denied sequence denied
  rintro ⟨outcome, after⟩ ⟨filled, refilled⟩
  rw [layout] at refilled
  exact ⟨filled, refilled.faithful, refilled.idle, progress.trans refilled.progress,
    sequence ▸ refilled.sequence_le, refilled.shortcut⟩

/-- What an operation did, given the flat memory after it. -/
structure Advanced (good : σ → Prop) (contents : σ → Blocks) (flat : Blocks)
    (before after : BackedCache σ) : Prop where
  faithful : Faithful good contents flat after
  idle : after.cache.view.queue = []
  frame : after.cache.frame = before.cache.frame
  sequence_le : after.cache.view.sequence ≤ before.cache.view.sequence + 1
  supplied : ∃ fetched issued, Supplied before.store fetched issued after.store ∧ fetched ≤ 1 ∧
    issued.length + after.cache.view.pending ≤ before.cache.view.pending + 1

theorem pending_le_of_accessed {before after : View} {tag place : Nat} {access : Access}
    {byte : Option UInt8} (accessed : before.Accessed tag place access byte after)
    (bounded : ∀ {index : Nat} {copy : Copy}, before.copies index = some copy →
      index < before.frame.capacity) : after.pending ≤ before.pending + 1 := by
  cases accessed with
  | miss unresolved => exact Nat.le_succ _
  | @hit middle index copy _ rerouted resolves direct holds tagged answer =>
    have counted : View.changed { middle with
        copies := Function.update before.copies index (some (copy.access place access)) } + _ =
          before.changed + _ :=
      View.changed_of_update (bounded holds) rerouted.frame rfl
    have one := Bool.toNat_le (Option.any Copy.dirty (some (copy.access place access)))
    rw [View.pending, View.pending]
    change middle.queue.length + _ ≤ _
    have queue := congrArg List.length rerouted.queue
    omega

theorem Faithful.hit (faithful : Faithful good contents flat backed)
    (idle : backed.cache.view.queue = []) {cache : Cache} {access : Access} {byte : UInt8}
    (tidy : cache.Tidy) (accessed : backed.cache.view.Accessed
      (backed.cache.layout.blockOf address) (backed.cache.layout.placeOf address) access
      (some byte) cache.view) :
    Faithful good contents (flat.access (backed.cache.layout.blockOf address)
        (backed.cache.layout.placeOf address) access) { backed with cache } ∧
      (flat.access (backed.cache.layout.blockOf address) (backed.cache.layout.placeOf address)
        access (backed.cache.layout.blockOf address))[backed.cache.layout.placeOf address]? =
          some byte := by
  have layout : cache.layout = backed.cache.layout := congrArg Frame.layout accessed.frame
  obtain ⟨coherent, answer⟩ := faithful.coherent.accessed faithful.sound idle accessed
  refine ⟨⟨tidy, accessed.sound faithful.sound, faithful.good, ?_, coherent, ?_⟩, answer⟩
  · rw [layout]
    exact faithful.blockSize_eq
  · intro block isQueued
    change block ∈ cache.view.queue at isQueued
    rw [accessed.queue, idle] at isQueued
    cases isQueued

theorem Faithful.missed (faithful : Faithful good contents flat backed) {cache : Cache}
    {access : Access} (tidy : cache.Tidy) (accessed : backed.cache.view.Accessed
      (backed.cache.layout.blockOf address) (backed.cache.layout.placeOf address) access none
      cache.view) :
    Faithful good contents flat { backed with cache } ∧
      (∀ index, ¬ cache.view.Resolves (cache.layout.blockOf address) index) ∧
      cache.view = backed.cache.view := by
  obtain ⟨unresolved, view⟩ := accessed.unresolved
  have layout : cache.layout = backed.cache.layout := congrArg Frame.layout accessed.frame
  refine ⟨⟨tidy, accessed.sound faithful.sound, faithful.good, ?_, ?_, fun {block} isQueued => ?_⟩,
    ?_, view⟩
  · rw [layout]
    exact faithful.blockSize_eq
  · rw [view]
    exact faithful.coherent
  · rw [layout]
    exact faithful.whole (view ▸ isQueued)
  · rw [view, layout]
    exact unresolved

theorem Refilled.found {fetched tag : Nat} (refilled : Refilled good contents flat fetched tag before after)
    (here : after.cache.layout.blockOf address = tag) (access : Access) :
    Ends (after.cache.access address access)
      (fun (found, cache) => ∃ byte, found = some byte ∧ cache.Tidy ∧
        after.cache.view.Accessed (after.cache.layout.blockOf address)
          (after.cache.layout.placeOf address) access (some byte) cache.view ∧
        cache.view.sequence = after.cache.view.sequence)
      (fun _ => after.cache.layout.contains address = false) := by
  have shortcut := refilled.shortcut
  rw [← here] at shortcut
  refine (Cache.access_outcome refilled.faithful.sound refilled.faithful.tidy address access).mono
    ?_ fun fault failed => ?_
  · rintro ⟨found, cache⟩ ⟨tidy, accessed⟩
    cases found with
    | none =>
      obtain ⟨index, leads⟩ := Option.ne_none_iff_exists'.mp shortcut
      exact absurd (.inl leads) (accessed.unresolved.1 index)
    | some byte => exact ⟨byte, rfl, tidy, accessed, accessed.sequence_eq shortcut⟩
  · rcases failed with outside | ⟨absent, _⟩
    · exact outside
    · exact absurd absent shortcut

/-- An access is an access to the flat memory. -/
theorem Faithful.access (faithful : Faithful good contents flat backed)
    (serves : Serves good contents) (idle : backed.cache.view.queue = []) (address : Address)
    (access : Access) :
    Ends (backed.access address access)
      (fun (outcome, after) => ∃ byte hit, outcome = .ok (byte, hit) ∧
        Advanced good contents (flat.access (backed.cache.layout.blockOf address)
          (backed.cache.layout.placeOf address) access) backed after ∧
        after.cache.view.locked = backed.cache.view.locked ∧
        (flat.access (backed.cache.layout.blockOf address) (backed.cache.layout.placeOf address)
          access (backed.cache.layout.blockOf address))[backed.cache.layout.placeOf address]? =
            some byte)
      (Denied backed address) := by
  refine (Cache.access_outcome faithful.sound faithful.tidy address access).andThen
    (fun fault failed => ?_) ?_
  · rcases failed with outside | ⟨_, overflow⟩
    · exact .outside outside
    · exact .overflow overflow
  rintro ⟨found, cache⟩ ⟨tidy, accessed⟩
  cases found with
  | some byte =>
    obtain ⟨faithful', answer⟩ := faithful.hit idle tidy accessed
    refine ⟨byte, true, rfl, ⟨faithful', accessed.queue.trans idle, accessed.frame,
      accessed.sequence_le, 0, [], .none, Nat.zero_le _, ?_⟩, accessed.locked, answer⟩
    rw [List.length_nil, Nat.zero_add]
    exact pending_le_of_accessed accessed Cache.lt_capacity_of_copy
  | none =>
    obtain ⟨faithful', unresolved', view⟩ := faithful.missed tidy accessed
    have layout : cache.layout = backed.cache.layout := congrArg Frame.layout accessed.frame
    have unmoved : Progress 0 backed { backed with cache } := .of_view view
    refine (faithful'.serveMiss serves unresolved').andThen
      (fun fault denied => unmoved.denied (congrArg View.sequence view) denied) ?_
    rintro ⟨outcome, middle⟩ ⟨rfl, refilled⟩
    have progress := unmoved.trans refilled.progress
    have layout' : middle.cache.layout = backed.cache.layout :=
      congrArg Frame.layout progress.frame
    have sequence_le : middle.cache.view.sequence ≤ backed.cache.view.sequence + 1 := by
      rw [← view]
      exact refilled.sequence_le
    -- the second access neither misses nor counts
    have here : middle.cache.layout.blockOf address = cache.layout.blockOf address := by
      rw [layout', layout]
    refine (refilled.found here access).andThen
      (fun fault outside => .outside (layout' ▸ outside)) ?_
    rintro ⟨found, cache'⟩ ⟨byte, rfl, tidy', accessed', sequence⟩
    obtain ⟨faithful'', answer⟩ := refilled.faithful.hit refilled.idle tidy' accessed'
    rw [layout'] at faithful'' answer
    obtain ⟨issued, supplied, pending⟩ := progress.supplied
    refine ⟨byte, false, rfl, ⟨faithful'', accessed'.queue.trans refilled.idle,
      accessed'.frame.trans progress.frame, sequence.le.trans sequence_le, 1, issued, supplied,
      Nat.le_refl _, ?_⟩, accessed'.locked.trans progress.locked, answer⟩
    have pending_le := pending_le_of_accessed accessed' Cache.lt_capacity_of_copy
    change issued.length + cache'.view.pending ≤ _
    omega

theorem Faithful.read (faithful : Faithful good contents flat backed)
    (serves : Serves good contents) (idle : backed.cache.view.queue = []) (address : Address) :
    Ends (backed.read address)
      (fun (outcome, after) => ∃ byte, outcome = .ok byte ∧
        Advanced good contents flat backed after ∧
        after.cache.view.locked = backed.cache.view.locked ∧
        (flat (backed.cache.layout.blockOf address))[backed.cache.layout.placeOf address]? =
          some byte)
      (Denied backed address) := by
  refine Ends.bind (faithful.access serves idle address .read) ?_
  rintro ⟨outcome, after⟩ ⟨byte, hit, rfl, advanced, locked, answer⟩
  exact ⟨byte, rfl, advanced, locked, answer⟩

theorem Faithful.write (faithful : Faithful good contents flat backed)
    (serves : Serves good contents) (idle : backed.cache.view.queue = []) (address : Address)
    (value : UInt8) :
    Ends (backed.write address value)
      (fun (outcome, after) => outcome = .ok () ∧
        Advanced good contents (flat.access (backed.cache.layout.blockOf address)
          (backed.cache.layout.placeOf address) (.write value)) backed after ∧
        after.cache.view.locked = backed.cache.view.locked)
      (Denied backed address) := by
  refine Ends.bind (faithful.access serves idle address (.write value)) ?_
  rintro ⟨outcome, after⟩ ⟨byte, hit, rfl, advanced, locked, _⟩
  exact ⟨rfl, advanced, locked⟩

theorem Faithful.flush (faithful : Faithful good contents flat backed)
    (serves : Serves good contents) :
    Ends backed.flush
      (fun (outcome, after) => (∃ flushed, outcome = .ok flushed) ∧
        Advanced good contents flat backed after ∧
        after.cache.view.locked = backed.cache.view.locked)
      (Breaks backed.store 0 backed.cache.view.pending) := by
  obtain ⟨tidy, published⟩ := Cache.flushDirty_spec faithful.tidy
  rw [BackedCache.flush]
  generalize backed.cache.flushDirty = result at tidy published ⊢
  obtain ⟨flushed, cache⟩ := result
  refine Ends.bind (faithful.publish serves tidy published) ?_
  rintro ⟨outcome, after⟩ ⟨rfl, faithful', view, progress⟩
  have sequence : after.cache.view.sequence = backed.cache.view.sequence := by
    rw [view, published.same]
  obtain ⟨issued, supplied, pending⟩ := progress.supplied
  exact ⟨⟨_, rfl⟩, ⟨faithful', congrArg View.queue view, progress.frame, by omega, 0, issued,
    supplied, Nat.zero_le _, by omega⟩, progress.locked⟩

theorem Faithful.setLocked (faithful : Faithful good contents flat backed)
    (idle : backed.cache.view.queue = []) (index : Nat) (locked : Bool) :
    Ends (backed.cache.setLocked index locked)
      (fun cache => Advanced good contents flat backed { backed with cache } ∧
        cache.view.locked = Function.update backed.cache.view.locked index (some locked))
      (fun _ => backed.cache.pool.capacity ≤ index) := by
  refine (Cache.setLocked_spec faithful.tidy index locked).mono ?_ fun _ failed => failed
  rintro cache ⟨tidy, _, view⟩
  have frame : cache.frame = backed.cache.frame := congrArg View.frame view
  have layout : cache.layout = backed.cache.layout := congrArg Frame.layout frame
  have sound := faithful.sound
  have coherent := faithful.coherent
  refine ⟨⟨⟨tidy, ?_, faithful.good, ?_, ?_, ?_⟩, ?_, frame, ?_, 0, [], .none, Nat.zero_le _, ?_⟩,
    congrArg View.locked view⟩
  · rw [view]
    exact ⟨sound.founded, sound.linked, sound.placed, sound.tagged, sound.agree⟩
  · rw [layout]
    exact faithful.blockSize_eq
  · rw [view]
    exact ⟨coherent.kept, coherent.dirty, coherent.single, coherent.others, coherent.queued,
      coherent.stored⟩
  · rw [view, layout]
    exact faithful.whole
  · rw [view]
    exact idle
  · rw [view]
    exact Nat.le_succ _
  · rw [view]
    change 0 + backed.cache.view.pending ≤ _
    omega

def Command.access? : Command → Option (Address × Access)
  | .access address kind => some (address, kind)
  | .read address => some (address, .read)
  | .write address value => some (address, .write value)
  | .flush => none
  | .setLocked _ _ => none

/-- What an operation does to a record of the locks. -/
def Command.lock {α : Type} (mark : Bool → α) (locked : Nat → α) : Command → Nat → α
  | .setLocked index value => Function.update locked index (mark value)
  | _ => locked

end TrieCache.BackedCache

namespace TrieCache.Blocks

/-- What an operation does to a flat memory. -/
def apply (layout : Layout) (flat : Blocks) (command : BackedCache.Command) : Blocks :=
  match command.access? with
  | some (address, access) =>
    flat.access (layout.blockOf address) (layout.placeOf address) access
  | none => flat

/-- The memory overlaid with the writes among the operations. -/
def overlay (layout : Layout) (flat : Blocks) (commands : List BackedCache.Command) : Blocks :=
  commands.foldl (apply layout) flat

end TrieCache.Blocks

namespace TrieCache.BackedCache

open BlockStore

variable {σ : Type} [BlockStore σ] {good : σ → Prop} {contents : σ → Blocks} {flat : Blocks}
  {backed : BackedCache σ}

inductive Answered (layout : Layout) (flat : Blocks) : Command → BackedReply Reply → Prop
  | access {address : Address} {access : Access} {byte : UInt8} {hit : Bool}
      (answer : (flat.access (layout.blockOf address) (layout.placeOf address) access
        (layout.blockOf address))[layout.placeOf address]? = some byte) :
      Answered layout flat (.access address access) (.ok (.byte byte hit))
  | read {address : Address} {byte : UInt8}
      (answer : (flat (layout.blockOf address))[layout.placeOf address]? = some byte) :
      Answered layout flat (.read address) (.ok (.read byte))
  | write {address : Address} {value : UInt8} :
      Answered layout flat (.write address value) (.ok .done)
  | flush {flushed : Nat} : Answered layout flat .flush (.ok (.count flushed))
  | setLocked {index : Nat} {locked : Bool} :
      Answered layout flat (.setLocked index locked) (.ok .done)

/-- Why an operation of a run may fail. -/
inductive Stopped (backed : BackedCache σ) (command : Command) (fault : Fault) : Prop
  | access {address : Address} {access : Access} (performs : command.access? = some (address, access))
      (denied : Denied backed address fault) : Stopped backed command fault
  | flush (breaks : Breaks backed.store 0 backed.cache.view.pending fault) :
      Stopped backed command fault
  | setLocked {index : Nat} {locked : Bool} (locks : command = .setLocked index locked)
      (outside : backed.cache.pool.capacity ≤ index) : Stopped backed command fault

/-- What an operation comes to: an access, the flush, or a change of a lock. -/
inductive Performed (backed : BackedCache σ) (command : Command) (reply : BackedReply Reply)
    (after : BackedCache σ) : Prop
  | access {address : Address} {access : Access} {outcome : BackedReply (UInt8 × Bool)}
      {answer : UInt8 × Bool → Reply} (performs : command.access? = some (address, access))
      (ran : backed.access address access = .ok (outcome, after))
      (answers : reply = outcome.map answer) : Performed backed command reply after
  | flush {outcome : BackedReply Nat} (flushes : command = .flush)
      (ran : backed.flush = .ok (outcome, after)) (answers : reply = outcome.map .count) :
      Performed backed command reply after
  | setLocked {index : Nat} {locked : Bool} {cache : Cache} (locks : command = .setLocked index locked)
      (ran : backed.cache.setLocked index locked = .ok cache) (answers : reply = .ok .done)
      (same : after = { backed with cache }) : Performed backed command reply after

theorem map_map {α β γ : Type} (first : α → β) (second : β → γ) (reply : BackedReply α) :
    (reply.map first).map second = reply.map (second ∘ first) := by
  cases reply with
  | error error => rfl
  | ok value => rfl

theorem performed_of_run {command : Command} {reply : BackedReply Reply} {after : BackedCache σ}
    (ran : backed.run command = .ok (reply, after)) : Performed backed command reply after := by
  cases command with
  | access address access =>
    obtain ⟨⟨outcome, _⟩, accessed, same⟩ := bind_eq_ok_iff.mp ran
    cases same
    exact .access rfl accessed rfl
  | read address =>
    obtain ⟨⟨_, _⟩, isRead, same⟩ := bind_eq_ok_iff.mp ran
    cases same
    obtain ⟨⟨outcome, _⟩, accessed, same⟩ := bind_eq_ok_iff.mp isRead
    cases same
    exact .access rfl accessed (map_map _ _ _)
  | write address value =>
    obtain ⟨⟨_, _⟩, isWritten, same⟩ := bind_eq_ok_iff.mp ran
    cases same
    obtain ⟨⟨outcome, _⟩, accessed, same⟩ := bind_eq_ok_iff.mp isWritten
    cases same
    exact .access rfl accessed (map_map _ _ _)
  | flush =>
    obtain ⟨⟨outcome, _⟩, flushed, same⟩ := bind_eq_ok_iff.mp ran
    cases same
    exact .flush rfl flushed rfl
  | setLocked index locked =>
    obtain ⟨cache, isLocked, same⟩ := bind_eq_ok_iff.mp ran
    cases same
    exact .setLocked rfl isLocked rfl rfl

/-- An operation has its effect on the flat memory and answers from there. -/
theorem Faithful.run (faithful : Faithful good contents flat backed)
    (serves : Serves good contents) (idle : backed.cache.view.queue = []) (command : Command) :
    Ends (backed.run command)
      (fun (reply, after) =>
        Advanced good contents (flat.apply backed.cache.layout command) backed after ∧
        after.cache.view.locked = command.lock some backed.cache.view.locked ∧
        Answered backed.cache.layout flat command reply)
      (Stopped backed command) := by
  cases command with
  | access address access =>
    refine (faithful.access serves idle address access).andThen
      (fun _ denied => .access rfl denied) ?_
    rintro ⟨outcome, after⟩ ⟨byte, hit, rfl, advanced, locked, answer⟩
    exact ⟨advanced, locked, .access answer⟩
  | read address =>
    refine (faithful.read serves idle address).andThen (fun _ denied => .access rfl denied) ?_
    rintro ⟨outcome, after⟩ ⟨byte, rfl, advanced, locked, answer⟩
    exact ⟨advanced, locked, .read answer⟩
  | write address value =>
    refine (faithful.write serves idle address value).andThen
      (fun _ denied => .access rfl denied) ?_
    rintro ⟨outcome, after⟩ ⟨rfl, advanced, locked⟩
    exact ⟨advanced, locked, .write⟩
  | flush =>
    refine (faithful.flush serves).andThen (fun _ breaks => .flush breaks) ?_
    rintro ⟨outcome, after⟩ ⟨⟨flushed, rfl⟩, advanced, locked⟩
    exact ⟨advanced, locked, .flush⟩
  | setLocked index value =>
    refine (faithful.setLocked idle index value).andThen
      (fun _ outside => .setLocked rfl outside) ?_
    rintro cache ⟨advanced, locked⟩
    exact ⟨advanced, locked, .setLocked⟩

theorem ofCache_eq_ok_iff {cache : Cache} {store : σ} (regular : cache.layout.Regular) :
    ofCache cache store = .ok backed ↔
      blockSize store = cache.layout.blockBytes ∧ backed = { cache, store } := by
  rw [ofCache, regular.blockSize_eq, ok_bind, bind_eq_ok_iff]
  constructor
  · rintro ⟨_, passed, same⟩
    cases same
    exact ⟨(of_decide_eq_true (require_eq_ok_iff.mp passed)).symm, rfl⟩
  · rintro ⟨size, rfl⟩
    exact ⟨(), require_eq_ok_iff.mpr (decide_eq_true size.symm), rfl⟩

theorem faithful_of_ofConfig {config : Config} {cache : Cache} {store : σ}
    (made : Cache.ofConfig config = .ok cache) (founded : cache.frame.Founded)
    (isGood : good store) (blockSize_eq : blockSize store = cache.layout.blockBytes) :
    Faithful good contents (contents store) { cache, store } := by
  have blank := Cache.blank_of_ofConfig made
  have unheld : ∀ {index : Nat} {copy : Copy}, cache.view.copies index ≠ some copy := by
    intro index copy holds
    rw [blank.copies] at holds
    cases holds
  refine ⟨Cache.tidy_of_ofConfig made, blank.sound founded, isGood, blockSize_eq, ?_, ?_⟩
  · exact {
      kept := fun tag index resolves => absurd resolves (blank.not_resolves tag index)
      dirty := fun holds => absurd holds unheld
      single := fun holds => absurd holds unheld
      others := fun _ holds => absurd holds unheld
      queued := fun isQueued => absurd (blank.queue ▸ isQueued) List.not_mem_nil
      stored := fun _ => .inl rfl }
  · intro block isQueued
    exact absurd (blank.queue ▸ isQueued) List.not_mem_nil

end TrieCache.BackedCache
