import TrieCache.Proofs.FlatMemory
import TrieCache.Proofs.Refusal

/-!
# What a refused writeback loses

Blocks are called clean, or leave the cache, before their bytes are sent.  When the store
refuses a block, that block and those behind it in the queue are gone: only a copy that is
still cached has their bytes, and no flush publishes it any more.  A byte of any other block,
and one that was written again since, is read as it was last written, and is in the store
after a flush.
-/

namespace TrieCache.BackedCache

open BlockStore

theorem isOk_map {ε α β : Type} (part : α → β) (reply : Except ε α) :
    (reply.map part).isOk = reply.isOk := by
  cases reply with
  | error error => rfl
  | ok value => rfl

variable {σ : Type}

/-- A byte that is known is in the memory, and its block is in the store as in its ghost. -/
def Vouched (contents : σ → Blocks) (layout : Layout) (target : Address) (byte : Option UInt8)
    (flat ghost : Blocks) (store : σ) : Prop :=
  ∀ value ∈ byte, contents store (layout.blockOf target) = ghost (layout.blockOf target) ∧
    (flat (layout.blockOf target))[layout.placeOf target]? = some value

/-- The block that a store has in place of a clean one is the right one if a byte of it is
known. -/
theorem Vouched.replaced {contents : σ → Blocks} {layout : Layout} {target : Address}
    {byte : Option UInt8} {flat ghost : Blocks} {store : σ} {tag : Nat}
    (vouched : Vouched contents layout target byte flat ghost store)
    (clean : ghost tag = flat tag) :
    Vouched contents layout target byte (Function.update flat tag (contents store tag))
      (Function.update ghost tag (contents store tag)) store := by
  intro value isKnown
  obtain ⟨stored, held⟩ := vouched value isKnown
  by_cases here : layout.blockOf target = tag
  · subst here
    rw [Function.update_self, Function.update_self, stored, clean]
    exact ⟨rfl, held⟩
  · rw [Function.update_of_ne here, Function.update_of_ne here]
    exact ⟨stored, held⟩

variable [BlockStore σ]

section Losses

/-- The states in which a refill sends what it pushed out of the cache. -/
def refillSends (backed : BackedCache σ) (address : Address) : List (BackedCache σ) :=
  match fetchBlock backed.store (backed.cache.layout.blockOf address) with
  | .ok (.ok bytes, store) =>
    match backed.cache.fill address bytes with
    | .ok (_, cache) => [{ cache, store }]
    | .error _ => []
  | _ => []

/-- The states in which a miss sends what is stale of a block, and what its refill pushed out. -/
def missSends (backed : BackedCache σ) (address : Address) : List (BackedCache σ) :=
  match backed.cache.retireStale address with
  | .ok (_, cache) =>
    { backed with cache } ::
      match BackedCache.drain { backed with cache } with
      | .ok (.ok (), middle) => middle.refillSends address
      | _ => []
  | .error _ => []

def accessSends (backed : BackedCache σ) (address : Address) (access : Access) :
    List (BackedCache σ) :=
  match backed.cache.access address access with
  | .ok (none, cache) => missSends { backed with cache } address
  | _ => []

/-- The states in which an operation sends its queue. -/
def sends (backed : BackedCache σ) : Command → List (BackedCache σ)
  | .access address access => backed.accessSends address access
  | .read address => backed.accessSends address .read
  | .write address value => backed.accessSends address (.write value)
  | .flush => [{ backed with cache := backed.cache.flushDirty.2 }]
  | .setLocked _ _ => []

theorem sends_of_access? {backed : BackedCache σ} {command : Command} {address : Address}
    {access : Access} (performs : command.access? = some (address, access)) :
    backed.sends command = backed.accessSends address access := by
  cases command <;> cases performs <;> rfl

/-- The blocks that an operation loses when the store refuses one of them. -/
def dropped (backed : BackedCache σ) (command : Command) : List Nat :=
  (backed.sends command).flatMap shed

/-- What is known of a byte after a run: the value that was written to it last with success.
An operation that fails and drops the block leaves nothing known until the next write. -/
def remembered (layout : Layout) (address : Address) (byte : Option UInt8)
    (backed : BackedCache σ) : List Command → Option UInt8
  | [] => byte
  | command :: rest =>
    match backed.run command with
    | .ok (.ok _, after) =>
      remembered layout address ((command.writes? address).or byte) after rest
    | .ok (.error _, after) =>
      remembered layout address
        (if layout.blockOf address ∈ backed.dropped command then none else byte) after rest
    | .error _ => none

end Losses

section Kept

variable {good : σ → Prop} {contents : σ → Blocks} {layout : Layout} {target address : Address}
  {byte : Option UInt8} {backed after : BackedCache σ}

/-- A cache is before the `ghost` of its store, the same store but for the blocks that were
dropped, and nothing is queued.  The byte of an address is vouched for. -/
def Retains (good : σ → Prop) (contents : σ → Blocks) (layout : Layout) (target : Address)
    (byte : Option UInt8) (backed : BackedCache σ) : Prop :=
  ∃ flat ghost, backed.cache.layout = layout ∧ Faithful good (fun _ => ghost) flat backed ∧
    backed.cache.view.queue = [] ∧ Vouched contents layout target byte flat ghost backed.store

/-- The same, and nothing of the block of an address is left but clean copies out of reach. -/
def Awaits (good : σ → Prop) (contents : σ → Blocks) (layout : Layout) (target : Address)
    (byte : Option UInt8) (address : Address) (backed : BackedCache σ) : Prop :=
  ∃ flat ghost, backed.cache.layout = layout ∧ Missing good (fun _ => ghost) flat address backed ∧
    Vouched contents layout target byte flat ghost backed.store

theorem Retains.forget (retains : Retains good contents layout target byte backed) :
    Retains good contents layout target none backed := by
  obtain ⟨flat, ghost, isLayout, faithful, idle, _⟩ := retains
  exact ⟨flat, ghost, isLayout, faithful, idle, nofun⟩

theorem Awaits.retains (awaits : Awaits good contents layout target byte address backed) :
    Retains good contents layout target byte backed := by
  obtain ⟨flat, ghost, isLayout, missing, vouched⟩ := awaits
  exact ⟨flat, ghost, isLayout, missing.faithful, missing.idle, vouched⟩

/-- A byte that is written is known again, whatever was dropped before. -/
theorem Retains.hit (retains : Retains good contents layout target byte backed) {access : Access}
    {found : UInt8} {cache : Cache}
    (ran : backed.cache.access address access = .ok (some found, cache)) :
    Retains good contents layout target
        (((Command.access address access).writes? target).or byte) { backed with cache } ∧
      (address = target →
        ∀ value ∈ ((Command.access address access).writes? target).or byte, found = value) := by
  obtain ⟨flat, ghost, rfl, faithful, idle, vouched⟩ := retains
  obtain ⟨tidy, accessed⟩ :=
    (Cache.access_outcome faithful.sound faithful.tidy address access).of_eq_ok ran
  obtain ⟨faithful', answer⟩ := faithful.hit idle tidy accessed
  have layout : cache.layout = backed.cache.layout := congrArg Frame.layout accessed.frame
  have idle' : cache.view.queue = [] := accessed.queue.trans idle
  cases access with
  | read =>
    refine ⟨⟨_, ghost, layout, faithful', idle', vouched⟩, ?_⟩
    rintro rfl value isKnown
    exact Option.some.inj (answer.symm.trans (vouched value isKnown).2)
  | write written =>
    obtain rfl := Blocks.eq_of_getElem?_access_write answer
    by_cases here : address = target
    · subst here
      have known : ((Command.access address (.write found)).writes? address).or byte =
          some found := by simp [Command.writes?]
      rw [known]
      refine ⟨⟨_, _, layout, { faithful' with
        coherent := faithful'.coherent.overwritten accessed
          (contents backed.store (backed.cache.layout.blockOf address)) }, idle', ?_⟩, ?_⟩
      · rintro value ⟨⟩
        exact ⟨(Function.update_self (backed.cache.layout.blockOf address) _ ghost).symm, answer⟩
      · rintro _ value ⟨⟩
        rfl
    · have unwritten : (Command.access address (.write found)).writes? target = none := by
        simp [Command.writes?, here]
      rw [unwritten, Option.none_or]
      refine ⟨⟨_, ghost, layout, faithful', idle', fun value isKnown => ?_⟩,
        fun same => absurd same here⟩
      obtain ⟨stored, held⟩ := vouched value isKnown
      exact ⟨stored, (Blocks.getElem?_access_of_ne here _).trans held⟩

theorem Retains.missed (retains : Retains good contents layout target byte backed)
    {access : Access} {cache : Cache}
    (ran : backed.cache.access address access = .ok (none, cache)) :
    Retains good contents layout target byte { backed with cache } ∧
      ∀ index, ¬ cache.view.Resolves (cache.layout.blockOf address) index := by
  obtain ⟨flat, ghost, rfl, faithful, idle, vouched⟩ := retains
  obtain ⟨tidy, accessed⟩ :=
    (Cache.access_outcome faithful.sound faithful.tidy address access).of_eq_ok ran
  obtain ⟨faithful', unresolved, view⟩ := faithful.missed tidy accessed
  exact ⟨⟨flat, ghost, congrArg Frame.layout accessed.frame, faithful',
    (congrArg View.queue view).trans idle, vouched⟩, unresolved⟩

variable (handsOut : HandsOut good contents)
include handsOut

/-- What publishing copies leaves, when it does not shed the block of a byte that is known. -/
theorem Retains.publish (retains : Retains good contents layout target byte backed) {cache : Cache}
    {chosen : Nat → Nat → Bool} (tidy : cache.Tidy)
    (published : backed.cache.view.Published chosen cache.view) {outcome : BackedReply Unit}
    (drained : BackedCache.drain { backed with cache } = .ok (outcome, after))
    (spared : ∀ value ∈ byte, outcome = .ok () ∨
      layout.blockOf target ∉ BackedCache.shed { backed with cache }) :
    ∃ flat ghost, after.cache.layout = layout ∧ Faithful good (fun _ => ghost) flat after ∧
      after.cache.view = { cache.view with queue := [] } ∧
      Vouched contents layout target byte flat ghost after.store := by
  obtain ⟨flat, ghost, rfl, faithful, idle, vouched⟩ := retains
  obtain ⟨faithful', view, stored⟩ := (faithful.published tidy published).drained handsOut drained
  have frame : after.cache.view.frame = backed.cache.view.frame := by
    rw [view]
    exact published.frame
  refine ⟨flat, _, congrArg Frame.layout frame, faithful', view, fun value isKnown => ?_⟩
  obtain ⟨isStored, held⟩ := vouched value isKnown
  exact ⟨stored _ (spared value isKnown) isStored, held⟩

theorem Retains.retire (retains : Retains good contents layout target byte backed)
    (unresolved : ∀ index, ¬ backed.cache.view.Resolves (backed.cache.layout.blockOf address) index)
    {retired : Nat} {cache : Cache} (ran : backed.cache.retireStale address = .ok (retired, cache))
    {outcome : BackedReply Unit}
    (drained : BackedCache.drain { backed with cache } = .ok (outcome, after))
    (spared : ∀ value ∈ byte, outcome = .ok () ∨
      layout.blockOf target ∉ BackedCache.shed { backed with cache }) :
    Awaits good contents layout target byte address after := by
  have ⟨_, _, _, faithful, _, _⟩ := retains
  have regular : backed.cache.layout.Regular := faithful.sound.founded.regular
  obtain ⟨result, ran', tidy, published⟩ :=
    Cache.retireStale_spec faithful.tidy (regular.tag_eq address)
  cases ran.symm.trans ran'
  obtain ⟨flat, ghost, isLayout, faithful', view, vouched⟩ :=
    retains.publish handsOut tidy published drained spared
  exact ⟨flat, ghost, isLayout, Missing.of_published unresolved published faithful' view, vouched⟩

/-- A fetched block is what the store has of it.  That may be out of date, but not when a byte
of the block is known. -/
theorem Awaits.refill (awaits : Awaits good contents layout target byte address backed)
    {outcome : BackedReply Unit} (ran : backed.refill address = .ok (outcome, after))
    (spared : ∀ value ∈ byte, outcome = .ok () ∨
      ∀ state ∈ backed.refillSends address, layout.blockOf target ∉ state.shed) :
    Retains good contents layout target byte after := by
  obtain ⟨flat, ghost, rfl, missing, vouched⟩ := awaits
  have regular : backed.cache.layout.Regular := missing.faithful.sound.founded.regular
  rw [BackedCache.refill, regular.tag_eq, ok_bind] at ran
  obtain ⟨⟨fetched, store⟩, served, ran⟩ := bind_eq_ok_iff.mp ran
  obtain ⟨rfl, isGood, size, same⟩ := handsOut.fetch missing.faithful.good served
  obtain ⟨⟨leaf, cache⟩, filled, drained⟩ := bind_eq_ok_iff.mp ran
  -- take what was fetched for the right block, in the memory as in the ghost of the store
  have replaced := missing.replaced (contents backed.store (backed.cache.layout.blockOf address))
  obtain ⟨tidy, sound, inserted⟩ := (Cache.fill_outcome missing.faithful.sound
    missing.faithful.tidy _).of_eq_ok filled
  rw [← Function.update_self (backed.cache.layout.blockOf address)
    (contents backed.store (backed.cache.layout.blockOf address)) flat] at inserted
  have filled' : Faithful good _ _ { cache, store } :=
    replaced.filled tidy sound inserted isGood size rfl
  obtain ⟨faithful, view, stored⟩ := filled'.drained handsOut drained
  have sending : backed.refillSends address = [{ cache, store }] := by
    rw [refillSends, served]
    dsimp only
    rw [filled]
  rw [sending, List.forall_mem_singleton] at spared
  have frame : after.cache.view.frame = backed.cache.view.frame := by
    rw [view]
    exact inserted.frame
  refine ⟨_, _, congrArg Frame.layout frame, faithful, congrArg View.queue view,
    fun value isKnown => ?_⟩
  obtain ⟨isStored, held⟩ := vouched.replaced
    (missing.faithful.coherent.stored_eq missing.idle missing.clean) value isKnown
  exact ⟨stored _ (spared value isKnown) ((congrFun same _).trans isStored), held⟩

theorem Retains.serveMiss (retains : Retains good contents layout target byte backed)
    (unresolved : ∀ index, ¬ backed.cache.view.Resolves (backed.cache.layout.blockOf address) index)
    {outcome : BackedReply Unit} (ran : backed.serveMiss address = .ok (outcome, after))
    (spared : ∀ value ∈ byte, outcome = .ok () ∨
      ∀ state ∈ backed.missSends address, layout.blockOf target ∉ state.shed) :
    Retains good contents layout target byte after := by
  obtain ⟨⟨retired, cache⟩, isRetired, ran⟩ := bind_eq_ok_iff.mp ran
  obtain ⟨⟨sent, middle⟩, drained, ran⟩ := bind_eq_ok_iff.mp ran
  rw [missSends, isRetired] at spared
  dsimp only at spared
  rw [drained, List.forall_mem_cons] at spared
  cases sent with
  | error error =>
    cases ran
    exact (retains.retire handsOut unresolved isRetired drained fun value isKnown =>
      .inr ((spared value isKnown).resolve_left nofun).1).retains
  | ok =>
    have awaits := retains.retire handsOut unresolved isRetired drained fun _ _ => .inl rfl
    exact awaits.refill handsOut ran fun value isKnown => (spared value isKnown).imp_right And.right

theorem Retains.access (retains : Retains good contents layout target byte backed)
    {access : Access} {outcome : BackedReply (UInt8 × Bool)}
    (ran : backed.access address access = .ok (outcome, after))
    (spared : ∀ value ∈ byte, outcome.isOk = true ∨
      ∀ state ∈ backed.accessSends address access, layout.blockOf target ∉ state.shed) :
    Retains good contents layout target
        ((if outcome.isOk then (Command.access address access).writes? target else none).or byte)
        after ∧
      ∀ {found : UInt8} {hit : Bool}, outcome = .ok (found, hit) → address = target →
        ∀ value ∈ ((Command.access address access).writes? target).or byte, found = value := by
  obtain ⟨⟨found, cache⟩, accessed, ran⟩ := bind_eq_ok_iff.mp ran
  cases found with
  | some found =>
    cases ran
    obtain ⟨retains', answer⟩ := retains.hit accessed
    refine ⟨retains', fun isFound here => ?_⟩
    cases isFound
    exact answer here
  | none =>
    obtain ⟨⟨served, middle⟩, missed, ran⟩ := bind_eq_ok_iff.mp ran
    obtain ⟨retains', unresolved⟩ := retains.missed accessed
    rw [accessSends, accessed] at spared
    dsimp only at spared
    cases served with
    | error error =>
      cases ran
      exact ⟨retains'.serveMiss handsOut unresolved missed fun value isKnown =>
        .inr ((spared value isKnown).resolve_left nofun), nofun⟩
    | ok =>
      have refilled := retains'.serveMiss handsOut unresolved missed fun _ _ => .inl rfl
      obtain ⟨⟨found, cache'⟩, again, ran⟩ := bind_eq_ok_iff.mp ran
      cases found with
      | some found =>
        cases ran
        obtain ⟨retains'', answer⟩ := refilled.hit again
        refine ⟨retains'', fun isFound here => ?_⟩
        cases isFound
        exact answer here
      | none =>
        cases ran
        exact ⟨(refilled.missed again).1, nofun⟩

/-- What a flush does not shed is in the store after it, even if it sheds something else. -/
theorem Retains.flush (retains : Retains good contents layout target byte backed)
    {outcome : BackedReply Nat} (ran : backed.flush = .ok (outcome, after))
    (spared : ∀ value ∈ byte, outcome.isOk = true ∨ layout.blockOf target ∉
      BackedCache.shed { backed with cache := backed.cache.flushDirty.2 }) :
    Retains good contents layout target byte after ∧
      ∀ value ∈ byte,
        (contents after.store (layout.blockOf target))[layout.placeOf target]? = some value := by
  have ⟨_, _, _, faithful, _, _⟩ := retains
  obtain ⟨tidy, published⟩ := Cache.flushDirty_spec faithful.tidy
  obtain ⟨⟨sent, middle⟩, drained, ran⟩ := bind_eq_ok_iff.mp ran
  have spared' : ∀ value ∈ byte, sent = .ok () ∨ layout.blockOf target ∉
      BackedCache.shed { backed with cache := backed.cache.flushDirty.2 } := by
    refine fun value isKnown => (spared value isKnown).imp_left fun answer => ?_
    cases sent with
    | error error =>
      cases ran
      cases answer
    | ok => rfl
  cases ran
  obtain ⟨flat, ghost, isLayout, faithful', view, vouched⟩ :=
    retains.publish handsOut tidy published drained spared'
  have idle : after.cache.view.queue = [] := congrArg View.queue view
  have clean : ∀ {index : Nat} {copy : Copy}, after.cache.view.copies index = some copy →
      copy.dirty = false := by
    intro index copy holds
    rw [view] at holds
    change backed.cache.flushDirty.2.view.copies index = some copy at holds
    rw [published.copies, Option.map_eq_some_iff] at holds
    obtain ⟨_, _, rfl⟩ := holds
    rfl
  refine ⟨⟨flat, ghost, isLayout, faithful', idle, vouched⟩, fun value isKnown => ?_⟩
  obtain ⟨stored, held⟩ := vouched value isKnown
  rw [stored, faithful'.coherent.stored_eq idle fun holds _ => clean holds]
  exact held

omit handsOut in
theorem Retains.setLocked (retains : Retains good contents layout target byte backed)
    {index : Nat} {locked : Bool} {cache : Cache}
    (ran : backed.cache.setLocked index locked = .ok cache) :
    Retains good contents layout target byte { backed with cache } := by
  obtain ⟨flat, ghost, isLayout, faithful, idle, vouched⟩ := retains
  obtain ⟨advanced, _⟩ := (faithful.setLocked idle index locked).of_eq_ok ran
  exact ⟨flat, ghost, (congrArg Frame.layout advanced.frame).trans isLayout, advanced.faithful,
    advanced.idle, vouched⟩

/-- An operation writes the byte if it succeeds, and if it fails it keeps the byte unless it
drops the block. -/
theorem Retains.run (retains : Retains good contents layout target byte backed)
    {command : Command} {reply : BackedReply Reply}
    (ran : backed.run command = .ok (reply, after))
    (spared : ∀ value ∈ byte, reply.isOk = true ∨
      ∀ state ∈ backed.sends command, layout.blockOf target ∉ state.shed) :
    Retains good contents layout target
      ((if reply.isOk then command.writes? target else none).or byte) after := by
  cases performed_of_run ran with
  | access performs accessed answers =>
    subst answers
    rw [isOk_map, sends_of_access? performs] at spared
    rw [isOk_map, Command.writes?_of_access? performs]
    exact (retains.access handsOut accessed spared).1
  | flush flushes flushed answers =>
    subst flushes answers
    rw [isOk_map, sends, List.forall_mem_singleton] at spared
    have kept := (retains.flush handsOut flushed spared).1
    have unwritten : Command.flush.writes? target = none := rfl
    rwa [unwritten, ite_self, Option.none_or]
  | setLocked locks isLocked answers same =>
    subst locks answers same
    exact retains.setLocked isLocked

theorem Retains.runAll (retains : Retains good contents layout target byte backed)
    {commands : List Command} {replies : List (BackedReply Reply)}
    (ran : backed.runAll commands = .ok (replies, after)) :
    Retains good contents layout target (remembered layout target byte backed commands) after := by
  induction commands generalizing backed byte replies with
  | nil =>
    cases ran
    exact retains
  | cons command rest ih =>
    obtain ⟨⟨reply, middle⟩, first, ran⟩ := bind_eq_ok_iff.mp ran
    obtain ⟨⟨replies, after⟩, second, ran⟩ := bind_eq_ok_iff.mp ran
    cases ran
    rw [remembered, first]
    cases reply with
    | ok reply => exact ih (retains.run handsOut first fun _ _ => .inl rfl) second
    | error error =>
      refine ih ?_ second
      split
      next isDropped => exact retains.forget.run handsOut first nofun
      next spared =>
        refine retains.run handsOut first fun _ _ => .inr fun state isSent isShed => spared ?_
        exact List.mem_flatMap.mpr ⟨state, isSent, isShed⟩

end Kept

section Runs

variable {good : σ → Prop} {contents : σ → Blocks} {backed after : BackedCache σ}

/-- A byte can be had back: a read that is answered gives it, and so does the store once a
flush is answered. -/
structure Recoverable (contents : σ → Blocks) (address : Address) (value : UInt8)
    (backed : BackedCache σ) : Prop where
  access {found : UInt8} {hit : Bool} {after : BackedCache σ} :
    backed.access address .read = .ok (.ok (found, hit), after) → found = value
  read {found : UInt8} {after : BackedCache σ} :
    backed.read address = .ok (.ok found, after) → found = value
  flush {flushed : Nat} {after : BackedCache σ} : backed.flush = .ok (.ok flushed, after) →
    (contents after.store (backed.cache.layout.blockOf address))[
      backed.cache.layout.placeOf address]? = some value

theorem retains_of_ofConfig {config : Config} {cache : Cache} {store : σ} (usable : config.Usable)
    (isGood : good store) (made : Cache.ofConfig config = .ok cache)
    (joined : ofCache cache store = .ok backed) (target : Address) :
    Retains good contents cache.layout target
      (contents store (cache.layout.blockOf target))[cache.layout.placeOf target]? backed := by
  have founded := Cache.founded_of_ofConfig made usable.span usable.levels_lt
  obtain ⟨size, rfl⟩ := (ofCache_eq_ok_iff founded.regular).mp joined
  have faithful : Faithful good (fun _ => contents store) (contents store) { cache, store } :=
    faithful_of_ofConfig made founded isGood size
  exact ⟨_, _, rfl, faithful, (Cache.blank_of_ofConfig made).queue, fun _ isKnown => ⟨rfl, isKnown⟩⟩

theorem Retains.recoverable {layout : Layout} {address : Address} {value : UInt8}
    (handsOut : HandsOut good contents)
    (retains : Retains good contents layout address (some value) backed) :
    backed.Recoverable contents address value := by
  have ⟨_, _, isLayout, _, _, _⟩ := retains
  have accessed : ∀ {found : UInt8} {hit : Bool} {after : BackedCache σ},
      backed.access address .read = .ok (.ok (found, hit), after) → found = value := by
    intro found hit after ran
    exact (retains.access handsOut ran fun _ _ => .inl rfl).2 rfl rfl value rfl
  refine ⟨accessed, fun {found after} ran => ?_, fun {flushed after} ran => ?_⟩
  · obtain ⟨⟨outcome, after'⟩, ran', ran⟩ := bind_eq_ok_iff.mp ran
    cases outcome with
    | error error => cases ran
    | ok result =>
      cases ran
      exact accessed ran'
  · rw [isLayout]
    exact (retains.flush handsOut ran fun _ _ => .inl rfl).2 value rfl

/-- A store that hands out every block may refuse writebacks at any time.  Every byte stays
recoverable as it was last written with success, or as the store had it, unless its block was
since dropped with a refused one. -/
theorem recoverable_of_runAll {config : Config} {cache : Cache} {store : σ} {address : Address}
    {value : UInt8} {commands : List Command} {replies : List (BackedReply Reply)}
    (usable : config.Usable) (handsOut : HandsOut good contents) (isGood : good store)
    (made : Cache.ofConfig config = .ok cache) (joined : ofCache cache store = .ok backed)
    (ran : backed.runAll commands = .ok (replies, after))
    (known : remembered cache.layout address
      (contents store (cache.layout.blockOf address))[cache.layout.placeOf address]? backed
        commands = some value) :
    after.Recoverable contents address value := by
  have retains := (retains_of_ofConfig usable isGood made joined address).runAll handsOut ran
  rw [known] at retains
  exact retains.recoverable handsOut

theorem recoverable_after_rewrite : ∃ cache backed after,
    Cache.ofConfig .tiny = .ok cache ∧ ofCache cache (FlakyMemory.refusing 4 [0]) = .ok backed ∧
      backed.runAll [.write 0x01 7, .write 0x08 9, .flush, .write 0x08 5, .read 0x10, .read 0x18,
          .read 0x20, .read 0x28] =
        .ok ([.ok .done, .ok .done, .error (.store (.writebackRefused 0)), .ok .done,
          .ok (.read 0), .ok (.read 0), .ok (.read 0), .ok (.read 0)], after) ∧
      after.Recoverable FlakyMemory.contents 0x08 5 := by
  have answers : (do
      let cache ← Cache.ofConfig .tiny
      let backed ← ofCache cache (FlakyMemory.refusing 4 [0])
      let result ← backed.runAll [.write 0x01 7, .write 0x08 9, .flush, .write 0x08 5, .read 0x10,
        .read 0x18, .read 0x20, .read 0x28]
      return (result.1, remembered cache.layout 0x08
        ((FlakyMemory.refusing 4 [0]).contents (cache.layout.blockOf 0x08))[
          cache.layout.placeOf 0x08]?
        backed [.write 0x01 7, .write 0x08 9, .flush, .write 0x08 5, .read 0x10, .read 0x18,
          .read 0x20, .read 0x28])) =
      .ok ([.ok .done, .ok .done, .error (.store (.writebackRefused 0)), .ok .done, .ok (.read 0),
        .ok (.read 0), .ok (.read 0), .ok (.read 0)], some 5) := by decide +kernel
  obtain ⟨cache, made, answers⟩ := bind_eq_ok_iff.mp answers
  obtain ⟨backed, joined, answers⟩ := bind_eq_ok_iff.mp answers
  obtain ⟨⟨replies, after⟩, ran, answers⟩ := bind_eq_ok_iff.mp answers
  obtain ⟨rfl, known⟩ := Prod.mk.inj (Except.ok.inj answers)
  exact ⟨cache, backed, after, made, joined, ran, recoverable_of_runAll usable_tiny
    FlakyMemory.handsOut (FlakyMemory.readable_refusing 4 [0]) made joined ran known⟩

/-- Block 0 is refused, and block 2 behind it is lost: the write to it succeeded, but it is read
as it was before, and a flush succeeds without sending it. -/
theorem not_recoverable_behind_refused : ∃ cache backed after,
    Cache.ofConfig .tiny = .ok cache ∧ ofCache cache (FlakyMemory.refusing 4 [0]) = .ok backed ∧
      backed.runAll [.write 0x01 7, .write 0x08 9, .flush, .read 0x10, .read 0x18, .read 0x20,
          .read 0x28] =
        .ok ([.ok .done, .ok .done, .error (.store (.writebackRefused 0)), .ok (.read 0),
          .ok (.read 0), .ok (.read 0), .ok (.read 0)], after) ∧
      (∃ next, after.read 0x08 = .ok (.ok 0, next)) ∧
      (∃ next, after.flush = .ok (.ok 0, next) ∧ (next.store.contents 2)[0]? = some 0) ∧
      ¬ after.Recoverable FlakyMemory.contents 0x08 9 := by
  have answers : (do
      let cache ← Cache.ofConfig .tiny
      let backed ← ofCache cache (FlakyMemory.refusing 4 [0])
      let result ← backed.runAll [.write 0x01 7, .write 0x08 9, .flush, .read 0x10, .read 0x18,
        .read 0x20, .read 0x28]
      let found ← result.2.read 0x08
      let flushed ← result.2.flush
      return (result.1, found.1, flushed.1, (flushed.2.store.contents 2)[0]?)) =
      .ok ([.ok .done, .ok .done, .error (.store (.writebackRefused 0)), .ok (.read 0),
        .ok (.read 0), .ok (.read 0), .ok (.read 0)], .ok 0, .ok 0, some 0) := by decide +kernel
  obtain ⟨cache, made, answers⟩ := bind_eq_ok_iff.mp answers
  obtain ⟨backed, joined, answers⟩ := bind_eq_ok_iff.mp answers
  obtain ⟨⟨replies, after⟩, ran, answers⟩ := bind_eq_ok_iff.mp answers
  obtain ⟨⟨found, next⟩, isRead, answers⟩ := bind_eq_ok_iff.mp answers
  obtain ⟨⟨flushed, next'⟩, isFlushed, answers⟩ := bind_eq_ok_iff.mp answers
  obtain ⟨rfl, rfl, rfl, stale⟩ : _ ∧ _ ∧ _ ∧ _ := by simpa using answers
  refine ⟨cache, backed, after, made, joined, ran, ⟨next, isRead⟩, ⟨next', isFlushed, stale⟩, ?_⟩
  intro recoverable
  exact absurd (recoverable.read isRead) (by decide)

end Runs

end TrieCache.BackedCache
