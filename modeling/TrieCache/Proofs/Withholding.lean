import TrieCache.Proofs.Loss

/-!
# Stores that withhold blocks

A store that takes every block back may still fail to hand one out.  The access that asked for
the block then fails, after the changed copies of the block that no access can reach were sent.
Cache and store hold the flat memory that they held before, so a later access is one to that
memory.
-/

namespace TrieCache

namespace BlockStore

variable {σ : Type} [BlockStore σ] {good : σ → Prop} {contents : σ → Blocks} {store after : σ}
  {tag : Nat}

/-- A store refuses to hand out a block, or hands it out at a wrong length. -/
def Withholds (store : σ) (tag : Nat) (after : σ) : Prop :=
  ∃ outcome, fetch store tag = .ok (outcome, after) ∧
    ∀ bytes, outcome = .ok bytes → bytes.size ≠ blockSize after

theorem withholds_iff :
    Withholds store tag after ↔ ∃ error, fetchBlock store tag = .ok (.error error, after) := by
  rw [fetchBlock]
  constructor
  · rintro ⟨outcome, fetched, partly⟩
    rw [fetched, ok_bind]
    cases outcome with
    | error error => exact ⟨error, rfl⟩
    | ok bytes => exact ⟨_, if_neg (partly bytes rfl)⟩
  · rintro ⟨error, served⟩
    obtain ⟨⟨outcome, middle⟩, fetched, served⟩ := bind_eq_ok_iff.mp served
    cases outcome with
    | error error =>
      cases served
      exact ⟨_, fetched, nofun⟩
    | ok bytes =>
      dsimp only at served
      split at served
      · cases served
      next partly =>
        cases served
        refine ⟨_, fetched, fun bytes' same => ?_⟩
        cases same
        exact partly

theorem fetchBlock_cases (remembers : Remembers good contents) (isGood : good store) (tag : Nat) :
    Ends (fetchBlock store tag)
      (fun (outcome, after) => (outcome = .ok (contents store tag) ∧ Supplied store 1 [] after ∧
          (contents store tag).size = blockSize store) ∨
        (∃ error, outcome = .error error) ∧ Withholds store tag after ∧ good after ∧
          blockSize after = blockSize store ∧ contents after = contents store)
      (Breaks store 1 0) := by
  cases served : fetchBlock store tag with
  | error fault => exact ⟨0, [], store, .none, .inl ⟨tag, served, Nat.one_pos, Nat.le_refl _⟩⟩
  | ok result =>
    obtain ⟨outcome, after⟩ := result
    obtain ⟨isGood', size, same, current⟩ := remembers.fetch isGood served
    cases outcome with
    | error error =>
      exact .inr ⟨⟨error, rfl⟩, withholds_iff.mpr ⟨error, served⟩, isGood', size, same⟩
    | ok bytes =>
      cases current bytes rfl
      exact .inl ⟨rfl, .fetch served .none, (size_of_fetchBlock served).trans size⟩

end BlockStore

namespace BackedCache

open BlockStore

variable {σ : Type} [BlockStore σ] {good : σ → Prop} {contents : σ → Blocks} {flat : Blocks}
  {backed after : BackedCache σ} {address : Address}

/-- For a block that is missing, what is stale of it is sent, and then the fetch fails. -/
inductive Unsupplied (backed : BackedCache σ) (address : Address) : (after : BackedCache σ) → Prop
  | mk {cleaned : Cache} {retired tag : Nat} {sent : BackedCache σ} {store : σ}
    (retires : backed.cache.retireStale address = .ok (retired, cleaned))
    (sends : BackedCache.drain { backed with cache := cleaned } = .ok (.ok (), sent))
    (isTag : sent.cache.layout.tag address = .ok tag)
    (withholds : Withholds sent.store tag store) : Unsupplied backed address { sent with store }

/-- An access misses, and the fetch of its block fails. -/
def Unserved (backed : BackedCache σ) (address : Address) (access : Access)
    (after : BackedCache σ) : Prop :=
  ∃ missed, backed.cache.access address access = .ok (none, missed) ∧
    Unsupplied { backed with cache := missed } address after

theorem Unserved.access_eq {access : Access} (unserved : backed.Unserved address access after) :
    ∃ error, backed.access address access = .ok (.error (.store error), after) := by
  obtain ⟨missed, misses, unsupplied⟩ := unserved
  cases unsupplied with
  | mk retires sends isTag withholds =>
    obtain ⟨error, served⟩ := withholds_iff.mp withholds
    refine ⟨error, ?_⟩
    simp only [BackedCache.access, misses, serveMiss, retires, sends, refill, isTag, served,
      ok_bind, pure_eq_ok]

theorem sendAll_cases (remembers : Remembers good contents) {store : σ} (isGood : good store)
    {queue : List Writeback} (whole : ∀ block ∈ queue, block.bytes.size = blockSize store) :
    Ends (sendAll store queue)
      (fun (outcome, after) => (outcome = .ok () ∧ Supplied store 0 queue after) ∨
        (∃ error, outcome = .error error) ∧ unsent store queue ≠ [])
      (Breaks store 0 queue.length) := by
  induction queue generalizing store with
  | nil => exact .inl ⟨rfl, .none⟩
  | cons block rest ih =>
    rw [sendAll]
    cases served : writebackBlock store block.tag block.bytes with
    | error fault =>
      exact ⟨0, [], store, .none, .inr ⟨_, _, served, whole block List.mem_cons_self,
        Nat.le_refl _, Nat.succ_pos _⟩⟩
    | ok result =>
      obtain ⟨outcome, middle⟩ := result
      cases outcome with
      | error error => exact .inr ⟨⟨error, rfl⟩, by simp [unsent, served]⟩
      | ok taken =>
        obtain ⟨isGood', size, _⟩ := remembers.writeback isGood served
        have whole' : ∀ other ∈ rest, other.bytes.size = blockSize middle :=
          fun other isRest => (whole other (List.mem_cons_of_mem _ isRest)).trans size.symm
        have first : Supplied store 0 [block] middle := .writeback served .none
        refine (ih isGood' whole').mono ?_ fun fault breaks => ?_
        · rintro ⟨outcome, after⟩ (⟨sent, supplied⟩ | ⟨failed, refused⟩)
          · exact .inl ⟨sent, first.trans supplied⟩
          · exact .inr ⟨failed, by simpa only [unsent, served] using refused⟩
        · refine (Breaks.before first breaks).mono (Nat.le_refl _) ?_
          simp only [List.length_cons, List.length_nil]
          omega

section Serving

variable (remembers : Remembers good contents)
include remembers

/-- The queue is sent, or the store refuses some of it. -/
theorem Faithful.drain_cases (faithful : Faithful good contents flat backed) :
    Ends backed.drain
      (fun (outcome, after) => (outcome = .ok () ∧ Faithful good contents flat after ∧
          after.cache.view = { backed.cache.view with queue := [] } ∧ Progress 0 backed after) ∨
        (∃ error, outcome = .error (.store error)) ∧ backed.shed ≠ [])
      (Breaks backed.store 0 backed.cache.view.pending) := by
  have whole : ∀ block ∈ backed.cache.writebacks.toList,
      block.bytes.size = blockSize backed.store :=
    fun block isQueued => (faithful.whole isQueued).trans faithful.blockSize_eq.symm
  refine (sendAll_cases remembers faithful.good whole).andThen
    (fun fault breaks => breaks.mono (Nat.le_refl _) (Nat.le_add_right _ _)) ?_
  rintro ⟨outcome, store⟩ (⟨rfl, supplied⟩ | ⟨⟨error, rfl⟩, refused⟩)
  · obtain ⟨isGood, size, received⟩ := supplied.received remembers faithful.good
    refine .inl ⟨rfl, faithful.sent isGood size received, rfl, rfl, rfl, _, supplied, ?_⟩
    rw [View.pending, View.pending]
    change _ + (0 + View.changed _) = _
    rw [Nat.zero_add]
    rfl
  · exact .inr ⟨⟨error, rfl⟩, fun nothing => refused (List.map_eq_nil_iff.mp nothing)⟩

theorem Faithful.publish_cases (faithful : Faithful good contents flat backed) {cache : Cache}
    {chosen : Nat → Nat → Bool} (tidy : cache.Tidy)
    (published : backed.cache.view.Published chosen cache.view) :
    Ends (BackedCache.drain { backed with cache })
      (fun (outcome, after) => (outcome = .ok () ∧ Faithful good contents flat after ∧
          after.cache.view = { cache.view with queue := [] } ∧ Progress 0 backed after) ∨
        (∃ error, outcome = .error (.store error)) ∧ BackedCache.shed { backed with cache } ≠ [])
      (Breaks backed.store 0 backed.cache.view.pending) := by
  have pending : cache.view.pending = backed.cache.view.pending := published.pending
  refine ((faithful.published tidy published).drain_cases remembers).mono ?_
    fun fault breaks => pending ▸ breaks
  rintro ⟨outcome, after⟩ (⟨sent, upheld, view, progress⟩ | refused)
  · exact .inl ⟨sent, upheld, view, progress.of_published published⟩
  · exact .inr refused

/-- A missing block is filled in, or nothing happens but that the store was asked for it, or a
block that was pushed out is refused. -/
theorem Missing.refill_cases (missing : Missing good contents flat address backed) :
    Ends (backed.refill address)
      (fun (outcome, after) => (outcome = .ok () ∧
          Refilled good contents flat 1 (backed.cache.layout.blockOf address) backed after) ∨
        (∃ error, outcome = .error (.store error)) ∧
          ((∃ store, Withholds backed.store (backed.cache.layout.blockOf address) store ∧
              after = { backed with store } ∧ Missing good contents flat address after) ∨
            ∃ state ∈ backed.refillSends address, state.shed ≠ []))
      (Denied backed address) := by
  have faithful := missing.faithful
  have regular : backed.cache.layout.Regular := faithful.sound.founded.regular
  rw [BackedCache.refill, regular.tag_eq, ok_bind]
  refine (fetchBlock_cases remembers faithful.good _).attach.andThen
    (fun fault breaks => .store (breaks.mono (Nat.le_refl _) (Nat.zero_le _))) ?_
  rintro ⟨outcome, store⟩ ⟨served, ⟨rfl, supplied, size⟩ | ⟨⟨error, rfl⟩, withholds, kept⟩⟩
  · obtain ⟨isGood, blockSize_eq, received⟩ := supplied.received remembers faithful.good
    rw [faithful.coherent.stored_eq missing.idle missing.clean] at size served ⊢
    refine (Cache.fill_outcome faithful.sound faithful.tidy _).attach.andThen
      (fun fault failed => missing.denied (size.trans faithful.blockSize_eq) failed) ?_
    rintro ⟨leaf, cache⟩ ⟨filled, tidy, sound, inserted⟩
    have faithful' : Faithful good contents flat { cache, store } :=
      missing.filled tidy sound inserted isGood blockSize_eq received
    have pending : cache.view.pending = backed.cache.view.pending := inserted.pending
    have sending : { cache, store } ∈ backed.refillSends address := by
      rw [refillSends, served]
      dsimp only
      rw [filled]
      exact List.mem_cons_self
    refine (faithful'.drain_cases remembers).mono ?_ fun fault breaks => ?_
    · rintro ⟨outcome, after⟩ (⟨sent, upheld, view, progress⟩ | ⟨failed, refused⟩)
      · exact .inl ⟨sent, Missing.refilled inserted supplied upheld view progress⟩
      · exact .inr ⟨failed, .inr ⟨_, sending, refused⟩⟩
    · have breaks' := Breaks.before supplied breaks
      rw [pending] at breaks'
      exact .store (breaks'.mono (Nat.le_refl _) (by simp))
  · obtain ⟨isGood, size, same⟩ := kept
    refine .inr ⟨⟨error, rfl⟩, .inl ⟨store, withholds, rfl, { missing with faithful := ?_ }⟩⟩
    exact { faithful with
      good := isGood
      blockSize_eq := size.trans faithful.blockSize_eq
      coherent := same.symm ▸ faithful.coherent }

theorem Faithful.serveMiss_cases (faithful : Faithful good contents flat backed)
    (unresolved : ∀ index, ¬ backed.cache.view.Resolves (backed.cache.layout.blockOf address) index) :
    Ends (backed.serveMiss address)
      (fun (outcome, after) => (outcome = .ok () ∧
          Refilled good contents flat 1 (backed.cache.layout.blockOf address) backed after) ∨
        (∃ error, outcome = .error (.store error)) ∧
          ((backed.Unsupplied address after ∧ Missing good contents flat address after ∧
              after.cache.frame = backed.cache.frame) ∨
            ∃ state ∈ backed.missSends address, state.shed ≠ []))
      (Denied backed address) := by
  have regular : backed.cache.layout.Regular := faithful.sound.founded.regular
  obtain ⟨⟨retired, cache⟩, ran, tidy, published⟩ :=
    Cache.retireStale_spec faithful.tidy (regular.tag_eq address)
  have sending : { backed with cache } ∈ backed.missSends address := by
    rw [missSends, ran]
    exact List.mem_cons_self
  rw [BackedCache.serveMiss, ran, ok_bind]
  refine (faithful.publish_cases remembers tidy published).attach.andThen
    (fun fault breaks => .store (breaks.mono (Nat.zero_le _) (Nat.le_refl _))) ?_
  rintro ⟨outcome, middle⟩ ⟨sends, ⟨rfl, faithful', view, progress⟩ | ⟨⟨error, rfl⟩, refused⟩⟩
  · have missing := Missing.of_published unresolved published faithful' view
    have layout : middle.cache.layout = backed.cache.layout := congrArg Frame.layout progress.frame
    have sequence : middle.cache.view.sequence = backed.cache.view.sequence := by
      rw [view, published.same]
    refine (missing.refill_cases remembers).mono ?_
      fun fault denied => progress.denied sequence denied
    rintro ⟨outcome, after⟩ (⟨filled, refilled⟩ | ⟨failed, ⟨store, withholds, rfl, missing'⟩ |
      ⟨state, isSent, refused⟩⟩)
    · rw [layout] at refilled
      exact .inl ⟨filled, refilled.faithful, refilled.idle, progress.trans refilled.progress,
        sequence ▸ refilled.sequence_le, refilled.shortcut⟩
    · have isTag : middle.cache.layout.tag address = .ok (middle.cache.layout.blockOf address) :=
        missing.faithful.sound.founded.regular.tag_eq address
      exact .inr ⟨failed, .inl ⟨.mk ran sends isTag withholds, missing', progress.frame⟩⟩
    · refine .inr ⟨failed, .inr ⟨state, ?_, refused⟩⟩
      rw [missSends, ran]
      dsimp only
      rw [sends]
      exact List.mem_cons_of_mem _ isSent
  · exact .inr ⟨⟨error, rfl⟩, .inr ⟨_, sending, refused⟩⟩

/-- What an access comes to: it is one to the flat memory, or its fetch failed and the memory
is the same, or a writeback was refused. -/
inductive Attempted (good : σ → Prop) (contents : σ → Blocks) (flat : Blocks)
    (backed : BackedCache σ) (address : Address) (access : Access) :
    BackedReply (UInt8 × Bool) → BackedCache σ → Prop
  | answered {byte : UInt8} {hit : Bool} {after : BackedCache σ}
    (faithful : Faithful good contents (flat.access (backed.cache.layout.blockOf address)
      (backed.cache.layout.placeOf address) access) after)
    (idle : after.cache.view.queue = []) (frame : after.cache.frame = backed.cache.frame)
    (answer : (flat.access (backed.cache.layout.blockOf address)
      (backed.cache.layout.placeOf address) access
        (backed.cache.layout.blockOf address))[backed.cache.layout.placeOf address]? = some byte) :
    Attempted good contents flat backed address access (.ok (byte, hit)) after
  | unserved {error : StoreError} {after : BackedCache σ}
    (unserved : backed.Unserved address access after)
    (missing : Missing good contents flat address after)
    (frame : after.cache.frame = backed.cache.frame) :
    Attempted good contents flat backed address access (.error (.store error)) after
  | refused {error : StoreError} {after : BackedCache σ} {state : BackedCache σ}
    (isSent : state ∈ backed.accessSends address access) (refused : state.shed ≠ []) :
    Attempted good contents flat backed address access (.error (.store error)) after

theorem Faithful.access_cases (faithful : Faithful good contents flat backed)
    (idle : backed.cache.view.queue = []) (address : Address) (access : Access) :
    Ends (backed.access address access)
      (fun (outcome, after) => Attempted good contents flat backed address access outcome after)
      (Denied backed address) := by
  refine (Cache.access_outcome faithful.sound faithful.tidy address access).attach.andThen
    (fun fault failed => ?_) ?_
  · rcases failed with outside | ⟨_, overflow⟩
    · exact .outside outside
    · exact .overflow overflow
  rintro ⟨found, cache⟩ ⟨ran, tidy, accessed⟩
  cases found with
  | some byte =>
    obtain ⟨faithful', answer⟩ := faithful.hit idle tidy accessed
    exact .answered faithful' (accessed.queue.trans idle) accessed.frame answer
  | none =>
    obtain ⟨faithful', unresolved', view⟩ := faithful.missed tidy accessed
    have layout : cache.layout = backed.cache.layout := congrArg Frame.layout accessed.frame
    have unmoved : Progress 0 backed { backed with cache } := .of_view view
    refine (faithful'.serveMiss_cases remembers unresolved').andThen
      (fun fault denied => unmoved.denied (congrArg View.sequence view) denied) ?_
    rintro ⟨outcome, middle⟩ (⟨rfl, refilled⟩ | ⟨⟨error, rfl⟩, failed⟩)
    · have frame := refilled.progress.frame.trans accessed.frame
      have layout' : middle.cache.layout = backed.cache.layout := congrArg Frame.layout frame
      have here : middle.cache.layout.blockOf address = cache.layout.blockOf address := by
        rw [layout', layout]
      refine (refilled.found here access).andThen
        (fun fault outside => .outside (layout' ▸ outside)) ?_
      rintro ⟨found, cache'⟩ ⟨byte, rfl, tidy', accessed', _⟩
      obtain ⟨faithful'', answer⟩ := refilled.faithful.hit refilled.idle tidy' accessed'
      rw [layout'] at faithful'' answer
      exact .answered faithful'' (accessed'.queue.trans refilled.idle)
        (accessed'.frame.trans frame) answer
    · rcases failed with ⟨unsupplied, missing, frame⟩ | ⟨state, isSent, refused⟩
      · exact .unserved ⟨cache, ran, unsupplied⟩ missing (frame.trans accessed.frame)
      · have isSent' : state ∈ backed.accessSends address access := by
          rw [accessSends, ran]
          exact isSent
        exact .refused isSent' refused

theorem Faithful.flush_cases (faithful : Faithful good contents flat backed) :
    Ends backed.flush
      (fun (outcome, after) => (outcome.isOk = true ∧ Faithful good contents flat after ∧
          after.cache.view.queue = [] ∧ after.cache.frame = backed.cache.frame) ∨
        BackedCache.shed { backed with cache := backed.cache.flushDirty.2 } ≠ [])
      (Breaks backed.store 0 backed.cache.view.pending) := by
  obtain ⟨tidy, published⟩ := Cache.flushDirty_spec faithful.tidy
  refine Ends.bind (faithful.publish_cases remembers tidy published) ?_
  rintro ⟨outcome, after⟩ (⟨rfl, faithful', view, progress⟩ | ⟨_, refused⟩)
  · exact .inl ⟨rfl, faithful', congrArg View.queue view, progress.frame⟩
  · exact .inr refused

end Serving

section Runs

/-- The blocks that a run loses because the store refuses them. -/
def droppedAll (backed : BackedCache σ) : List Command → List Nat
  | [] => []
  | command :: commands =>
    backed.dropped command ++
      match backed.run command with
      | .ok (_, after) => after.droppedAll commands
      | .error _ => []

/-- What the addresses hold after an operation: one that is answered performs its write. -/
def acknowledge (held : Address → Option UInt8) (command : Command) (reply : BackedReply Reply)
    (address : Address) : Option UInt8 :=
  if reply.isOk then (command.writes? address).or (held address) else held address

def acknowledgeAll (held : Address → Option UInt8) :
    List Command → List (BackedReply Reply) → Address → Option UInt8
  | command :: commands, reply :: replies =>
    acknowledgeAll (acknowledge held command reply) commands replies
  | _, _ => held

theorem acknowledge_eq {held : Address → Option UInt8} {command : Command}
    {reply : BackedReply Reply} {answered : Bool} (same : reply.isOk = answered) :
    acknowledge held command reply = fun address =>
      if answered then (command.writes? address).or (held address) else held address := by
  subst same
  rfl

/-- Cache and store together hold these bytes, and nothing is queued. -/
def Holds (good : σ → Prop) (contents : σ → Blocks) (layout : Layout)
    (held : Address → Option UInt8) (backed : BackedCache σ) : Prop :=
  ∃ flat, backed.cache.layout = layout ∧ Faithful good contents flat backed ∧
    backed.cache.view.queue = [] ∧
      ∀ address, (flat (layout.blockOf address))[layout.placeOf address]? = held address

variable {layout : Layout} {held : Address → Option UInt8}

theorem getElem?_of_answer {access : Access} {byte : UInt8}
    (answer : (flat.access (layout.blockOf address) (layout.placeOf address) access
      (layout.blockOf address))[layout.placeOf address]? = some byte) (other : Address) :
    (flat.access (layout.blockOf address) (layout.placeOf address) access
      (layout.blockOf other))[layout.placeOf other]? =
        ((Command.access address access).writes? other).or
          (flat (layout.blockOf other))[layout.placeOf other]? := by
  cases access with
  | read => rfl
  | write value =>
    by_cases here : address = other
    · subst here
      cases Blocks.eq_of_getElem?_access_write answer
      rw [answer]
      simp [Command.writes?]
    · rw [Blocks.getElem?_access_of_ne here]
      simp [Command.writes?, here]

variable (remembers : Remembers good contents)
include remembers

/-- What an access comes to, by what the addresses hold. -/
theorem Holds.access_cases (holds : backed.Holds good contents layout held) (address : Address)
    (access : Access) :
    Ends (backed.access address access)
      (fun (outcome, after) =>
        (∃ byte hit, outcome = .ok (byte, hit) ∧
          ((Command.access address access).writes? address).or (held address) = some byte ∧
          after.Holds good contents layout fun other =>
            ((Command.access address access).writes? other).or (held other)) ∨
        (∃ error, outcome = .error (.store error)) ∧
          (backed.Unserved address access after ∧ after.Holds good contents layout held ∨
            ∃ state ∈ backed.accessSends address access, state.shed ≠ []))
      (Denied backed address) := by
  obtain ⟨flat, rfl, faithful, idle, bytes⟩ := holds
  refine (faithful.access_cases remembers idle address access).mono ?_ fun _ denied => denied
  rintro ⟨outcome, after⟩ attempted
  cases attempted with
  | @answered byte hit _ faithful' idle' frame answer =>
    have layout : after.cache.layout = backed.cache.layout := congrArg Frame.layout frame
    have bytes' := fun other => getElem?_of_answer answer other
    simp only [bytes] at bytes'
    exact .inl ⟨byte, hit, rfl, (bytes' address).symm.trans answer, _, layout, faithful', idle',
      bytes'⟩
  | @unserved error _ unserved missing frame =>
    have layout : after.cache.layout = backed.cache.layout := congrArg Frame.layout frame
    exact .inr ⟨⟨error, rfl⟩, .inl ⟨unserved, flat, layout, missing.faithful, missing.idle, bytes⟩⟩
  | @refused error _ state isSent refused =>
    exact .inr ⟨⟨error, rfl⟩, .inr ⟨state, isSent, refused⟩⟩

theorem Holds.access (holds : backed.Holds good contents layout held) {access : Access}
    {outcome : BackedReply (UInt8 × Bool)}
    (ran : backed.access address access = .ok (outcome, after))
    (taken : ∀ state ∈ backed.accessSends address access, state.shed = []) :
    after.Holds good contents layout fun other =>
      if outcome.isOk then ((Command.access address access).writes? other).or (held other)
      else held other := by
  rcases (holds.access_cases remembers address access).of_eq_ok ran with
    ⟨byte, hit, rfl, _, holds'⟩ | ⟨⟨error, rfl⟩, ⟨_, holds'⟩ | ⟨state, isSent, refused⟩⟩
  · exact holds'
  · exact holds'
  · exact absurd (taken state isSent) refused

theorem Holds.run (holds : backed.Holds good contents layout held) {command : Command}
    {reply : BackedReply Reply} (ran : backed.run command = .ok (reply, after))
    (taken : backed.dropped command = []) :
    after.Holds good contents layout (acknowledge held command reply) := by
  have taken' := List.flatMap_eq_nil_iff.mp taken
  cases performed_of_run ran with
  | access performs accessed answers =>
    rw [sends_of_access? performs] at taken'
    rw [answers, acknowledge_eq (isOk_map _ _)]
    simp only [Command.writes?_of_access? performs]
    exact holds.access remembers accessed taken'
  | flush flushes flushed answers =>
    subst flushes answers
    obtain ⟨flat, rfl, faithful, idle, bytes⟩ := holds
    rcases (faithful.flush_cases remembers).of_eq_ok flushed with
      ⟨_, faithful', idle', frame⟩ | refused
    · refine ⟨flat, congrArg Frame.layout frame, faithful', idle', fun other => ?_⟩
      simp [acknowledge, Command.writes?, bytes]
    · exact absurd (taken' _ List.mem_cons_self) refused
  | @setLocked index locked cache locks isLocked answers same =>
    subst locks answers same
    obtain ⟨flat, rfl, faithful, idle, bytes⟩ := holds
    obtain ⟨advanced, _⟩ := (faithful.setLocked idle index locked).of_eq_ok isLocked
    refine ⟨flat, congrArg Frame.layout advanced.frame, advanced.faithful, advanced.idle,
      fun other => ?_⟩
    simp [acknowledge, Command.writes?, bytes]

/-- As long as no writeback is refused, cache and store hold what was written with success. -/
theorem Holds.runAll (holds : backed.Holds good contents layout held) {commands : List Command}
    {replies : List (BackedReply Reply)} (ran : backed.runAll commands = .ok (replies, after))
    (taken : backed.droppedAll commands = []) :
    after.Holds good contents layout (acknowledgeAll held commands replies) := by
  induction commands generalizing backed held replies with
  | nil =>
    cases ran
    exact holds
  | cons command rest ih =>
    obtain ⟨⟨reply, middle⟩, first, ran⟩ := bind_eq_ok_iff.mp ran
    obtain ⟨⟨replies', _⟩, others, same⟩ := bind_eq_ok_iff.mp ran
    cases same
    rw [droppedAll, first, List.append_eq_nil_iff] at taken
    exact ih (holds.run remembers first taken.1) others taken.2

end Runs

end BackedCache

end TrieCache
