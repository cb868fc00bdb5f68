import TrieCache.Proofs.Accounts
import TrieCache.Proofs.FlatMemory
import TrieCache.Replay

/-!
# Traffic to the store

An operation of a cache before a store is a run of the cache, with the store asked in
between.  A read that misses is looked up twice, with one fetch and one insertion in between,
and the second lookup is a hit.  Whatever joins the queue is sent before the operation ends.
So the counters of the store are those of the cache, and the statistics of a replay follow
from its report.
-/

namespace TrieCache

namespace Stats

/-- What reads are counted as when every one that misses is repeated after an insertion. -/
def ofReads (reads missed : Nat) : Stats where
  accesses := reads + missed
  hits := reads
  misses := missed
  insertions := missed

theorem ofReads_add (reads missed reads' missed' : Nat) :
    ofReads reads missed + ofReads reads' missed' = ofReads (reads + reads') (missed + missed') := by
  simp only [ofReads, add_eq, plus, Nat.add_zero, mk.injEq, and_true]
  omega

end Stats

namespace Cache

variable {before middle cache after : Cache} {commands : List Command} {replies : List Reply}

theorem runAll_cons {command : Command} {reply : Reply}
    (first : cache.run command = .ok (reply, middle))
    (others : middle.runAll commands = .ok (replies, after)) :
    cache.runAll (command :: commands) = .ok (reply :: replies, after) := by
  rw [runAll, first, ok_bind]
  dsimp only
  rw [others]
  rfl

theorem runAll_append {commands' : List Command} {replies' : List Reply}
    (first : cache.runAll commands = .ok (replies, middle))
    (second : middle.runAll commands' = .ok (replies', after)) :
    cache.runAll (commands ++ commands') = .ok (replies ++ replies', after) := by
  induction commands generalizing cache replies with
  | nil =>
    cases first
    exact second
  | cons command rest ih =>
    obtain ⟨⟨reply, next⟩, ran, first⟩ := bind_eq_ok_iff.mp first
    obtain ⟨⟨replies, _⟩, others, same⟩ := bind_eq_ok_iff.mp first
    cases same
    exact runAll_cons ran (ih others)

/-- So many reads were counted, so many of them missed, and blocks were handed out for the
store. -/
structure Reads (before after : Cache) (reads missed handedOut : Nat) : Prop where
  ready : after.Ready
  spends : ∃ spent, before.Spends after spent handedOut ∧ spent.served = .ofReads reads missed

theorem Reads.refl (ready : cache.Ready) : cache.Reads cache 0 0 0 :=
  ⟨ready, {}, (Idle.refl cache).toSpends, rfl⟩

theorem Reads.trans {reads reads' missed missed' early late : Nat}
    (first : before.Reads middle reads missed early)
    (second : middle.Reads after reads' missed' late) :
    before.Reads after (reads + reads') (missed + missed') (early + late) := by
  obtain ⟨spent, spends, served⟩ := first.spends
  obtain ⟨spent', spends', served'⟩ := second.spends
  refine ⟨second.ready, spent + spent', spends.trans spends', ?_⟩
  rw [Stats.served_add, served, served', Stats.ofReads_add]

theorem reads_of_runAll {reads missed : Nat} (ready : cache.Ready)
    (ran : cache.runAll commands = .ok (replies, after))
    (served : servedAll (commands.zip replies) = .ofReads reads missed) :
    cache.Reads after reads missed (replies.map Reply.handedOut).sum := by
  obtain ⟨lost, spent, _, counted, moved⟩ := moved_of_runAll ready ran
  exact ⟨ready.runAll ran, spent, moved.toSpends, counted.trans served⟩

/-- A read of a seeded replay that misses is repeated after an insertion, and hits. -/
theorem reads_of_readSeeded {value : UInt8} {address : Address} {hit : Bool} (ready : cache.Ready)
    (ran : cache.readSeeded value address = .ok (hit, after)) :
    cache.Reads after 1 (!hit).toNat 0 := by
  obtain ⟨⟨found, looked⟩, isFound, ran⟩ := bind_eq_ok_iff.mp ran
  have first : cache.run (.read address) = .ok (.byte found, looked) := by
    rw [run, isFound]
    rfl
  cases found with
  | some byte =>
    cases ran
    have whole : cache.runAll [.read address] = .ok ([.byte (some byte)], after) :=
      runAll_cons first rfl
    exact reads_of_runAll ready whole rfl
  | none =>
    obtain ⟨⟨leaf, filled⟩, inserted, ran⟩ := bind_eq_ok_iff.mp ran
    obtain ⟨⟨again, reread⟩, isAgain, ran⟩ := bind_eq_ok_iff.mp ran
    obtain ⟨_, passed, same⟩ := bind_eq_ok_iff.mp ran
    cases same
    obtain rfl : again = some value := by simpa using require_eq_ok_iff.mp passed
    have second : looked.run (.insert address value) = .ok (.index leaf, filled) := by
      rw [run, inserted]
      rfl
    have third : filled.run (.read address) = .ok (.byte (some value), after) := by
      rw [run, isAgain]
      rfl
    have whole : cache.runAll [.read address, .insert address value, .read address] =
        .ok ([.byte none, .index leaf, .byte (some value)], after) :=
      runAll_cons first (runAll_cons second (runAll_cons third rfl))
    exact reads_of_runAll ready whole rfl

end Cache

namespace BackedCache

open BlockStore

variable {σ : Type} [BlockStore σ] {before middle backed after : BackedCache σ}
  {address : Address} {access : Access}

theorem supplied_of_sendAll {store store' : σ} {queue : List Writeback}
    (ran : sendAll store queue = .ok (.ok (), store')) : Supplied store 0 queue store' := by
  induction queue generalizing store with
  | nil =>
    cases ran
    exact .none
  | cons block rest ih =>
    obtain ⟨⟨outcome, next⟩, written, ran⟩ := bind_eq_ok_iff.mp ran
    cases outcome with
    | error error => cases ran
    | ok _ => exact .writeback written (ih ran)

/-- Sending the queue is handing it out, with the store served in turn. -/
theorem supplied_of_drain (ran : backed.drain = .ok (.ok (), after)) :
    backed.cache.run .drain = .ok (.drained backed.cache.writebacks, after.cache) ∧
      Supplied backed.store 0 backed.cache.writebacks.toList after.store := by
  obtain ⟨⟨outcome, store⟩, sent, same⟩ := bind_eq_ok_iff.mp ran
  cases outcome with
  | error error => cases same
  | ok _ =>
    cases same
    exact ⟨rfl, supplied_of_sendAll sent⟩

/-- A miss is served in four operations of the cache and a fetch. -/
theorem supplied_of_serveMiss (ran : backed.serveMiss address = .ok (.ok (), after)) :
    ∃ retired first bytes leaf second,
      backed.cache.runAll [.retire address, .drain, .fill address bytes, .drain] =
        .ok ([.count retired, .drained first, .index leaf, .drained second], after.cache) ∧
      Supplied backed.store 1 (first.toList ++ second.toList) after.store := by
  obtain ⟨⟨retired, cleaned⟩, isCleaned, ran⟩ := bind_eq_ok_iff.mp ran
  obtain ⟨⟨outcome, sent⟩, isSent, ran⟩ := bind_eq_ok_iff.mp ran
  cases outcome with
  | error error => cases ran
  | ok _ =>
    obtain ⟨tag, _, ran⟩ := bind_eq_ok_iff.mp ran
    obtain ⟨⟨outcome, store⟩, fetched, ran⟩ := bind_eq_ok_iff.mp ran
    cases outcome with
    | error error => cases ran
    | ok bytes =>
      obtain ⟨⟨leaf, filled⟩, isFilled, ran⟩ := bind_eq_ok_iff.mp ran
      obtain ⟨drained, supplied⟩ := supplied_of_drain isSent
      obtain ⟨drained', supplied'⟩ := supplied_of_drain ran
      have retires : backed.cache.run (.retire address) = .ok (.count retired, cleaned) := by
        rw [Cache.run, isCleaned]
        rfl
      have fills : sent.cache.run (.fill address bytes) = .ok (.index leaf, filled) := by
        rw [Cache.run, isFilled]
        rfl
      refine ⟨retired, _, bytes, leaf, _, ?_, supplied.trans (.fetch fetched supplied')⟩
      exact Cache.runAll_cons retires
        (Cache.runAll_cons drained (Cache.runAll_cons fills (Cache.runAll_cons drained' rfl)))

/-- So many reads were counted and so many of them missed.  For each miss the store was asked
for a block, and what was handed out was written back. -/
def Billed (before after : BackedCache σ) (reads missed : Nat) : Prop :=
  ∃ issued, before.cache.Reads after.cache reads missed issued.length ∧
    Supplied before.store missed issued after.store

theorem Billed.trans {reads reads' missed missed' : Nat} (first : Billed before middle reads missed)
    (second : Billed middle after reads' missed') :
    Billed before after (reads + reads') (missed + missed') := by
  obtain ⟨issued, counted, supplied⟩ := first
  obtain ⟨issued', counted', supplied'⟩ := second
  refine ⟨issued ++ issued', ?_, ?_⟩
  · rw [List.length_append]
    exact counted.trans counted'
  · rw [Nat.add_comm missed]
    exact supplied.trans supplied'

theorem billed_of_access {byte : UInt8} {hit : Bool} (ready : backed.cache.Ready)
    (ran : backed.access address access = .ok (.ok (byte, hit), after)) :
    Billed backed after 1 (!hit).toNat := by
  obtain ⟨⟨found, looked⟩, isFound, ran⟩ := bind_eq_ok_iff.mp ran
  have first : backed.cache.run (.access address access) = .ok (.byte found, looked) := by
    rw [Cache.run, isFound]
    rfl
  cases found with
  | some value =>
    cases ran
    have whole : backed.cache.runAll [.access address access] = .ok ([.byte (some byte)], looked) :=
      Cache.runAll_cons first rfl
    exact ⟨[], Cache.reads_of_runAll ready whole rfl, .none⟩
  | none =>
    obtain ⟨⟨outcome, served⟩, isServed, ran⟩ := bind_eq_ok_iff.mp ran
    cases outcome with
    | error error => cases ran
    | ok _ =>
      obtain ⟨⟨again, accessed⟩, isAgain, ran⟩ := bind_eq_ok_iff.mp ran
      cases again with
      | none => cases ran
      | some value =>
        cases ran
        obtain ⟨retired, early, bytes, leaf, late, serves, supplied⟩ :=
          supplied_of_serveMiss isServed
        have last : served.cache.run (.access address access) = .ok (.byte (some byte), accessed) := by
          rw [Cache.run, isAgain]
          rfl
        have again : served.cache.runAll [.access address access] =
          .ok ([.byte (some byte)], accessed) := Cache.runAll_cons last rfl
        have whole := Cache.runAll_cons first (Cache.runAll_append serves again)
        have counted := Cache.reads_of_runAll ready whole (show _ = Stats.ofReads 1 1 from rfl)
        refine ⟨_, ?_, supplied⟩
        simpa [Cache.Reply.handedOut] using counted

/-- The hit flags of the accesses that an operation makes. -/
def hitFlags (backed : BackedCache σ) (command : Command) : Checked (List Bool) :=
  match command.access? with
  | none => .ok []
  | some (address, access) => do
    let (outcome, _) ← backed.access address access
    return match outcome with
      | .ok (_, hit) => [hit]
      | .error _ => []

def hitFlagsAll (backed : BackedCache σ) : List Command → Checked (List Bool)
  | [] => .ok []
  | command :: commands => do
    let flags ← backed.hitFlags command
    let (_, after) ← backed.run command
    let later ← after.hitFlagsAll commands
    return flags ++ later

theorem billed_of_flush {flushed : Nat} (ready : backed.cache.Ready)
    (ran : backed.flush = .ok (.ok flushed, after)) : Billed backed after 0 0 := by
  obtain ⟨⟨outcome, sent⟩, isSent, same⟩ := bind_eq_ok_iff.mp ran
  cases outcome with
  | error error => cases same
  | ok _ =>
    cases same
    obtain ⟨drained, supplied⟩ := supplied_of_drain isSent
    have flushes : backed.cache.run .flush =
      .ok (.count backed.cache.flushDirty.1, backed.cache.flushDirty.2) := rfl
    have drains : backed.cache.flushDirty.2.runAll [.drain] =
        .ok ([.drained backed.cache.flushDirty.2.writebacks], after.cache) :=
      Cache.runAll_cons drained rfl
    have whole := Cache.runAll_cons flushes drains
    have counted : backed.cache.Reads after.cache 0 0
        backed.cache.flushDirty.2.writebacks.toList.length := by
      have counted := Cache.reads_of_runAll ready whole (show _ = Stats.ofReads 0 0 from rfl)
      simpa [Cache.Reply.handedOut] using counted
    exact ⟨_, counted, supplied⟩

theorem billed_of_flag {command : Command} {byte : UInt8} {hit : Bool}
    (performs : command.access? = some (address, access)) (ready : backed.cache.Ready)
    (ran : backed.access address access = .ok (.ok (byte, hit), after)) :
    ∃ flags, backed.hitFlags command = .ok flags ∧
      Billed backed after flags.length (flags.count false) := by
  refine ⟨[hit], ?_, ?_⟩
  · rw [hitFlags, performs]
    dsimp only
    rw [ran]
    rfl
  · have billed := billed_of_access ready ran
    cases hit <;> exact billed

theorem billed_of_run {command : Command} {reply : Reply} (ready : backed.cache.Ready)
    (ran : backed.run command = .ok (.ok reply, after)) :
    ∃ flags, backed.hitFlags command = .ok flags ∧
      Billed backed after flags.length (flags.count false) := by
  cases performed_of_run ran with
  | @access _ _ outcome _ performs accessed answers =>
    cases outcome with
    | error error => cases answers
    | ok => exact billed_of_flag performs ready accessed
  | @flush outcome flushes flushed answers =>
    subst flushes
    cases outcome with
    | error error => cases answers
    | ok => exact ⟨[], rfl, billed_of_flush ready flushed⟩
  | @setLocked index locked cache locks changed _ same =>
    subst locks same
    have locks : backed.cache.run (.setLocked index locked) = .ok (.done, cache) := by
      rw [Cache.run, changed]
      rfl
    have whole : backed.cache.runAll [.setLocked index locked] = .ok ([.done], cache) :=
      Cache.runAll_cons locks rfl
    exact ⟨[], rfl, [], Cache.reads_of_runAll ready whole rfl, .none⟩

/-- A run that the store serves is billed by its hit flags, by induction on its operations. -/
theorem billed_of_runAll {commands : List Command} {replies : List (BackedReply Reply)}
    (ready : backed.cache.Ready) (served : ∀ reply ∈ replies, ∃ answer, reply = .ok answer)
    (ran : backed.runAll commands = .ok (replies, after)) :
    ∃ flags, backed.hitFlagsAll commands = .ok flags ∧
      Billed backed after flags.length (flags.count false) := by
  induction commands generalizing backed replies with
  | nil =>
    cases ran
    exact ⟨[], rfl, [], .refl ready, .none⟩
  | cons command rest ih =>
    obtain ⟨⟨reply, middle⟩, first, ran⟩ := bind_eq_ok_iff.mp ran
    obtain ⟨⟨replies', _⟩, others, same⟩ := bind_eq_ok_iff.mp ran
    cases same
    obtain ⟨answer, rfl⟩ := served _ List.mem_cons_self
    obtain ⟨flags, isFlags, billed⟩ := billed_of_run ready first
    have ready' : middle.cache.Ready := by
      obtain ⟨_, counted, _⟩ := billed
      exact counted.ready
    obtain ⟨later, isLater, billed'⟩ :=
      ih ready' (fun other isOther => served other (List.mem_cons_of_mem _ isOther)) others
    refine ⟨flags ++ later, ?_, ?_⟩
    · rw [hitFlagsAll, isFlags, ok_bind, first, ok_bind]
      dsimp only
      rw [isLater]
      rfl
    · rw [List.length_append, List.count_append]
      exact billed.trans billed'

section Memories

variable {backed after : BackedCache Memory} {flags : List Bool}

/-- After a run before a memory, nothing is queued and the counters of the memory are those
of the cache.  The flags are the hit flags of all accesses. -/
structure Settled (after : BackedCache Memory) (flags : List Bool) : Prop where
  idle : after.cache.writebacks = #[]
  writebacks : after.store.writebacks = after.cache.stats.writebacks
  fetches : after.store.fetches = after.cache.stats.misses
  insertions : after.cache.stats.misses = after.cache.stats.insertions
  missed : after.cache.stats.insertions = flags.count false

/-- What was billed since a fresh start is what the counters show.  The memory faults before
its counters overflow, so those of the cache are not full either. -/
theorem Billed.settled (fresh : backed.cache.stats = {}) (empty : backed.cache.writebacks = #[])
    (whole : backed.store.Whole) (fetches : backed.store.fetches = 0)
    (writebacks : backed.store.writebacks = 0) (idle : after.cache.writebacks = #[])
    (billed : Billed backed after flags.length (flags.count false)) : Settled after flags := by
  obtain ⟨issued, ⟨_, spent, spends, served⟩, supplied⟩ := billed
  obtain ⟨countedFetches, countedWritebacks⟩ := Memory.count_of_supplied whole supplied
  obtain ⟨fetches_lt, writebacks_lt⟩ :=
    Memory.counts_lt_of_supplied whole (by omega) (by omega) supplied
  have stats : after.cache.stats = spent.capped := by
    have grown := spends.grew {} fresh
    rwa [Stats.none_add] at grown
  have queued := spends.queued
  rw [idle, empty] at queued
  simp only [Array.size_empty, Nat.zero_add] at queued
  have misses : spent.misses = flags.count false := congrArg Stats.misses served
  have insertions : spent.insertions = flags.count false := congrArg Stats.insertions served
  constructor <;> simp only [stats, Stats.capped, idle, Word.max64] <;> omega

theorem Refines.exists_ok {memory : Memory} {earlier : List Command} {command : Command}
    {reply : BackedReply Reply} (refines : Refines memory earlier command reply) :
    ∃ answer, reply = .ok answer := by
  cases reply with
  | ok answer => exact ⟨answer, rfl⟩
  | error error => cases command <;> simp [Refines] at refines

theorem RefinesAll.exists_ok {memory : Memory} {earlier commands : List Command}
    {replies : List (BackedReply Reply)} (refinesAll : RefinesAll memory earlier commands replies) :
    ∀ reply ∈ replies, ∃ answer, reply = .ok answer := by
  induction commands generalizing earlier replies with
  | nil =>
    cases replies with
    | nil => exact fun _ isReply => absurd isReply List.not_mem_nil
    | cons reply rest => cases refinesAll
  | cons command commands ih =>
    cases replies with
    | nil => cases refinesAll
    | cons reply rest =>
      intro other isReply
      rcases List.mem_cons.mp isReply with rfl | isRest
      · exact refinesAll.1.exists_ok
      · exact ih refinesAll.2 other isRest

end Memories

end BackedCache

/-- What the report of a replay says about the statistics. -/
structure Report.Counted (report : Report) (stats : Stats) : Prop where
  misses : report.misses = stats.misses
  insertions : stats.misses = stats.insertions
  hits : stats.hits = report.total
  accesses : stats.accesses = report.total + report.misses

namespace Replay

variable {σ : Type} {cacheOf : σ → Cache} {step : Step σ} {verify : Bool} {state after : σ}
  {report final : Report} {addresses : List Address}

theorem step_of_visit {address : Address} {hit : Bool}
    (ran : visit cacheOf step verify state address = .ok (.ok hit, after)) :
    step state address = .ok (.ok hit, after) := by
  rw [visit] at ran
  dsimp only at ran
  split at ran
  · obtain ⟨⟨reply, next⟩, stepped, ran⟩ := bind_eq_ok_iff.mp ran
    cases reply with
    | error error => cases ran
    | ok _ =>
      obtain ⟨inspected, _, same⟩ := bind_eq_ok_iff.mp ran
      cases inspected <;> cases same
      exact stepped
  · cases ran

/-- The reads of a replay are counted one after the other, and reported as they are. -/
theorem reads_of_visitAll
    (counts : ∀ {state state' : σ} {address : Address} {hit : Bool}, (cacheOf state).Ready →
      step state address = .ok (.ok hit, state') →
        ∃ handedOut, (cacheOf state).Reads (cacheOf state') 1 (!hit).toNat handedOut)
    (ready : (cacheOf state).Ready)
    (ran : visitAll cacheOf step verify state report addresses = .ok (.ok final, after)) :
    ∃ missed handedOut, missed ≤ addresses.length ∧
      final = { misses := report.misses + missed, total := report.total + addresses.length } ∧
      (cacheOf state).Reads (cacheOf after) addresses.length missed handedOut := by
  induction addresses generalizing state report with
  | nil =>
    cases ran
    exact ⟨0, 0, Nat.le_refl _, rfl, .refl ready⟩
  | cons address rest ih =>
    obtain ⟨⟨reply, middle⟩, visited, ran⟩ := bind_eq_ok_iff.mp ran
    cases reply with
    | error error => cases ran
    | ok hit =>
      obtain ⟨early, first⟩ := counts ready (step_of_visit visited)
      obtain ⟨missed, late, missed_le, rfl, others⟩ := ih first.ready ran
      refine ⟨(!hit).toNat + missed, early + late, ?_, ?_, ?_⟩
      · have one := Bool.toNat_le (!hit)
        rw [List.length_cons]
        omega
      · rw [List.length_cons]
        cases hit <;> simp [Report.count] <;> omega
      · rw [List.length_cons, Nat.add_comm rest.length]
        exact first.trans others

/-- The counters of a cache can count a read and a miss for every address. -/
theorem counted_of_reads {cache after : Cache} {total missed handedOut : Nat}
    (fresh : cache.stats = {}) (short : total < 2 ^ 63) (missed_le : missed ≤ total)
    (reads : cache.Reads after total missed handedOut) :
    Report.Counted { misses := missed, total } after.stats := by
  obtain ⟨_, spent, spends, served⟩ := reads
  have stats : after.stats = spent.capped := by
    have grown := spends.grew {} fresh
    rwa [Stats.none_add] at grown
  have accesses : spent.accesses = total + missed := congrArg Stats.accesses served
  have hits : spent.hits = total := congrArg Stats.hits served
  have misses : spent.misses = missed := congrArg Stats.misses served
  have insertions : spent.insertions = missed := congrArg Stats.insertions served
  constructor <;> simp only [stats, Stats.capped, Word.max64] <;> omega

end Replay

/-- The statistics of a fresh cache after a seeded replay are those of its report. -/
theorem Cache.counted_of_replay {cache after : Cache} {value : UInt8} {verify : Bool}
    {addresses : List Address} {report : Report} (ready : cache.Ready) (fresh : cache.stats = {})
    (short : addresses.length < 2 ^ 63)
    (ran : cache.replay value verify addresses = .ok (.ok report, after)) :
    report.Counted after.stats := by
  obtain ⟨missed, handedOut, missed_le, rfl, reads⟩ := by
    refine Replay.reads_of_visitAll (fun {state state' address hit} ready ran => ?_) ready ran
    obtain ⟨⟨_, _⟩, ran, same⟩ := bind_eq_ok_iff.mp ran
    cases same
    exact ⟨0, reads_of_readSeeded ready ran⟩
  simpa using Replay.counted_of_reads fresh short missed_le reads

theorem BackedCache.counted_of_replay {σ : Type} [BlockStore σ] {backed after : BackedCache σ}
    {verify : Bool} {addresses : List Address} {report : Report} (ready : backed.cache.Ready)
    (fresh : backed.cache.stats = {}) (short : addresses.length < 2 ^ 63)
    (ran : backed.replay verify addresses = .ok (.ok report, after)) :
    report.Counted after.cache.stats := by
  obtain ⟨missed, handedOut, missed_le, rfl, reads⟩ := by
    refine Replay.reads_of_visitAll (fun {state state' address hit} ready ran => ?_) ready ran
    obtain ⟨⟨outcome, _⟩, ran, same⟩ := bind_eq_ok_iff.mp ran
    cases outcome <;> cases same
    obtain ⟨issued, reads, _⟩ := billed_of_access ready ran
    exact ⟨_, reads⟩
  simpa using Replay.counted_of_reads fresh short missed_le reads

/-- What the counters show after a run before a memory that has counted nothing yet, and
after a replay of a list of addresses that is no longer than a slice of words can be. -/
structure StoreTraffic (config : Config) (cache : Cache) : Prop where
  run {memory : Memory} {commands : List BackedCache.Command} (whole : memory.Whole)
    (sized : memory.blockSize = config.blockSize.toNat) (fetches : memory.fetches = 0)
    (writebacks : memory.writebacks = 0)
    (admissible : BackedCache.Admissible cache.layout cache.pool.capacity (fun _ => false) commands) :
    ∃ backed, BackedCache.ofCache cache memory = .ok backed ∧
      Ends (backed.runAll commands)
        (fun (_, after) => ∃ flags, backed.hitFlagsAll commands = .ok flags ∧
          BackedCache.Settled after flags)
        (BackedCache.Exhausted memory commands.length)
  replay {value : UInt8} {verify : Bool} {addresses : List Address} {report : Report}
    {after : Cache} (short : addresses.length < 2 ^ 63)
    (ran : cache.replay value verify addresses = .ok (.ok report, after)) :
    report.Counted after.stats
  replayBacked {σ : Type} [BlockStore σ] {store : σ} {verify : Bool} {addresses : List Address}
    {report : Report} {after : BackedCache σ} (short : addresses.length < 2 ^ 63)
    (ran : BackedCache.replay { cache, store } verify addresses = .ok (.ok report, after)) :
    report.Counted after.cache.stats

/-- The traffic between a fresh cache of a usable configuration and a store is accounted for:
after every run from a fresh start, with one fetch and one insertion for each access that
was not a hit, and after every replay. -/
theorem storeTraffic_of_ofConfig {config : Config} {cache : Cache} (usable : config.Usable)
    (made : Cache.ofConfig config = .ok cache) : StoreTraffic config cache := by
  have fresh := Cache.stats_of_ofConfig made
  have ready := Cache.ready_of_ofConfig made
  obtain ⟨_, _, _, _, _, _, _, _, empty⟩ := Cache.ofConfig_spec made
  refine ⟨?_, Cache.counted_of_replay ready fresh, BackedCache.counted_of_replay ready fresh⟩
  intro memory commands whole sized fetches writebacks admissible
  obtain ⟨joined, running⟩ := BackedCache.joins_of_ofConfig usable made whole sized
  refine ⟨_, joined, ?_⟩
  have outcome := running.reaches admissible
  rw [List.length_nil, Nat.zero_add] at outcome
  refine outcome.attach.mono ?_ fun _ exhausted => exhausted
  rintro ⟨replies, after⟩ ⟨ran, refinesAll, _, _, _, running'⟩
  obtain ⟨flags, isFlags, billed⟩ := BackedCache.billed_of_runAll ready refinesAll.exists_ok ran
  have idle : after.cache.writebacks = #[] := Array.toList_eq_nil_iff.mp running'.idle
  exact ⟨flags, isFlags, billed.settled fresh empty whole fetches writebacks idle⟩

/-- The block that changed is pushed out by the fifth one that is read, and fetched again. -/
theorem storeTraffic_under_eviction : ∃ cache backed replies after seeded served,
    Cache.ofConfig .tiny = .ok cache ∧
      BackedCache.ofCache cache ({ blockSize := 4 } : Memory) = .ok backed ∧
      backed.runAll [.write 0x01 7, .read 0x08, .read 0x10, .read 0x18, .read 0x20, .read 0x21,
        .access 0x01 .read, .flush] = .ok (replies, after) ∧
      BackedCache.Settled after [false, false, false, false, false, true, false] ∧
      cache.replay 42 true [0x01, 0x08, 0x01] = .ok (.ok { misses := 2, total := 3 }, seeded) ∧
      Report.Counted { misses := 2, total := 3 } seeded.stats ∧
      backed.replay true [0x01, 0x08, 0x01] = .ok (.ok { misses := 2, total := 3 }, served) ∧
      Report.Counted { misses := 2, total := 3 } served.cache.stats := by
  have answers : (do
      let cache ← Cache.ofConfig .tiny
      let flags ← BackedCache.hitFlagsAll { cache, store := ({ blockSize := 4 } : Memory) }
        [.write 0x01 7, .read 0x08, .read 0x10, .read 0x18, .read 0x20, .read 0x21,
          .access 0x01 .read, .flush]
      let result ← cache.replay 42 true [0x01, 0x08, 0x01]
      let result' ← BackedCache.replay { cache, store := ({ blockSize := 4 } : Memory) } true
        [0x01, 0x08, 0x01]
      return (flags, result.1, result'.1, decide (BackedCache.Admissible cache.layout cache.pool.capacity
        (fun _ => false) [.write 0x01 7, .read 0x08, .read 0x10, .read 0x18, .read 0x20,
          .read 0x21, .access 0x01 .read, .flush]))) =
      .ok ([false, false, false, false, false, true, false], .ok { misses := 2, total := 3 },
        .ok { misses := 2, total := 3 }, true) := by decide +kernel
  obtain ⟨cache, made, answers⟩ := bind_eq_ok_iff.mp answers
  obtain ⟨flags, isFlags, answers⟩ := bind_eq_ok_iff.mp answers
  obtain ⟨⟨reply, seeded⟩, replayed, answers⟩ := bind_eq_ok_iff.mp answers
  obtain ⟨⟨reply', served⟩, replayed', answers⟩ := bind_eq_ok_iff.mp answers
  simp only [pure_eq_ok, Except.ok.injEq, Prod.mk.injEq, decide_eq_true_eq] at answers
  obtain ⟨rfl, rfl, rfl, admissible⟩ := answers
  have traffic := storeTraffic_of_ofConfig BackedCache.usable_tiny made
  obtain ⟨backed, joined, outcome⟩ :=
    traffic.run (Memory.whole_of_empty 4) rfl rfl rfl admissible
  obtain ⟨⟨replies, after⟩, ran, flags, isFlags', settled⟩ := outcome.exists_ok fun fault full =>
    absurd full.2 (by decide)
  obtain ⟨joined', _⟩ :=
    BackedCache.joins_of_ofConfig BackedCache.usable_tiny made (Memory.whole_of_empty 4) rfl
  cases joined.symm.trans joined'
  cases isFlags.symm.trans isFlags'
  exact ⟨cache, _, replies, after, seeded, served, made, joined, ran, settled, replayed,
    traffic.replay (by decide) replayed, replayed', traffic.replayBacked (by decide) replayed'⟩

end TrieCache
