import TrieCache.Backed.Command
import TrieCache.Proofs.FlatMemory
import TrieCache.Proofs.Outline

/-!
# Replacement does not depend on data

Two caches that serve the same addresses keep the same outline, whatever is read or written
there, whatever the stores hold, and wherever one of them is flushed.  Both do what a cache
without data does: it only knows which addresses are asked for, and fills every block that
is missing with zeros.  Fetches, writebacks and flushes leave the outline alone.
-/

namespace TrieCache

namespace Cache

/-- Serve an access without its data.  The answer is whether it was a hit, or nothing if
the block is not even found after it was filled in. -/
def demand (cache : Cache) (address : Address) : Checked (Option Bool × Cache) := do
  let (found, cache) ← cache.seek address
  if found then
    return (some true, cache)
  else
    let size ← cache.layout.blockSize
    let (_, cache) ← cache.fill address (Array.replicate size 0)
    let (found, cache) ← cache.seek address
    return (if found then some false else none, cache)

/-- What a command asks of a cache apart from its data. -/
inductive Demand
  | access (address : Address)
  | setLocked (index : Nat) (locked : Bool)
  deriving DecidableEq, Repr

/-- Serve demands in turn.  The answers are those of the accesses. -/
def demandAll (cache : Cache) : List Demand → Checked (List (Option Bool) × Cache)
  | [] => .ok ([], cache)
  | .access address :: rest => do
    let (hit, cache) ← cache.demand address
    let (hits, cache) ← cache.demandAll rest
    return (hit :: hits, cache)
  | .setLocked index locked :: rest => do
    let cache ← cache.setLocked index locked
    cache.demandAll rest

theorem demandAll_append (cache : Cache) (first second : List Demand) :
    cache.demandAll (first ++ second) = do
      let (hits, cache) ← cache.demandAll first
      let (hits', cache) ← cache.demandAll second
      return (hits ++ hits', cache) := by
  induction first generalizing cache with
  | nil =>
    rw [List.nil_append, demandAll, ok_bind]
    dsimp only
    cases cache.demandAll second <;> rfl
  | cons demand rest ih =>
    cases demand with
    | access address =>
      simp only [List.cons_append, demandAll, ih, bind_assoc]
      rfl
    | setLocked index locked =>
      simp only [List.cons_append, demandAll, ih, bind_assoc]

theorem seek_of_access {cache after : Cache} {address : Address} {access : Access}
    {found : Option UInt8} (ran : cache.access address access = .ok (found, after)) :
    cache.outline.seek address = .ok (found.isSome, after.outline) := by
  rw [← cache.access_outline address access, ran]
  rfl

theorem fill_of_fill {cache after : Cache} {address : Address} {block : Array UInt8} {index : Nat}
    (ran : cache.fill address block = .ok (index, after)) : ∃ size,
    cache.layout.blockSize = .ok size ∧
      cache.outline.fill address (Array.replicate size 0) = .ok (index, after.outline) := by
  have shown := cache.fill_outline address block
  rw [ran] at shown
  obtain ⟨size, sized, filled⟩ := bind_eq_ok_iff.mp ran
  obtain ⟨_, whole, _⟩ := bind_eq_ok_iff.mp filled
  rw [of_decide_eq_true (require_eq_ok_iff.mp whole)] at shown
  exact ⟨size, sized, shown.symm⟩

/-- Two caches that differ only in data: in the bytes of blocks, in which of them are dirty,
and in what was written back. -/
structure Alike (first second : Cache) : Prop where
  top : first.top = second.top
  fastPath : first.fastPath = second.fastPath
  cursor : first.cursor = second.cursor
  blocks (index : Nat) :
    first.pool.blocks[index]?.map Block.outline = second.pool.blocks[index]?.map Block.outline
  stats : { first.stats with writebacks := 0 } = { second.stats with writebacks := 0 }

theorem alike_of_outline_eq {first second : Cache} (same : first.outline = second.outline) :
    first.Alike second where
  top := show first.outline.top = second.outline.top from congrArg Cache.top same
  fastPath := show first.outline.fastPath = second.outline.fastPath from
    congrArg Cache.fastPath same
  cursor := show first.outline.cursor = second.outline.cursor from congrArg Cache.cursor same
  blocks := by
    intro index
    rw [← Pool.blocks_outline, ← Pool.blocks_outline]
    exact congrArg (fun cache : Cache => cache.pool.blocks[index]?) same
  stats := show first.outline.stats = second.outline.stats from congrArg Cache.stats same

end Cache

namespace BlockStore

variable {σ : Type} [BlockStore σ]

/-- In its good states a store does not refuse to serve. -/
structure Willing (good : σ → Prop) : Prop where
  fetch {store after : σ} {tag : Nat} {outcome : StoreReply (Array UInt8)} : good store →
    fetchBlock store tag = .ok (outcome, after) → (∃ bytes, outcome = .ok bytes) ∧ good after
  writeback {store after : σ} {tag : Nat} {bytes : Array UInt8} {outcome : StoreReply Unit} :
    good store → writebackBlock store tag bytes = .ok (outcome, after) →
      outcome = .ok () ∧ good after

theorem Serves.willing {good : σ → Prop} {contents : σ → Blocks} (serves : Serves good contents) :
    Willing good where
  fetch := fun isGood served =>
    have ⟨outcome, isGood', _⟩ := serves.fetch isGood served
    ⟨⟨_, outcome⟩, isGood'⟩
  writeback := fun isGood served =>
    have ⟨outcome, isGood', _⟩ := serves.writeback isGood served
    ⟨outcome, isGood'⟩

end BlockStore

namespace BackedCache

open BlockStore

/-- What a command asks of the cache; a flush asks nothing. -/
def Command.demand? : Command → Option Cache.Demand
  | .access address _ | .read address | .write address _ => some (.access address)
  | .flush => none
  | .setLocked index locked => some (.setLocked index locked)

/-- The replies to those of the commands that are accesses. -/
def accessReplies (commands : List Command) (replies : List (BackedReply Reply)) :
    List (BackedReply Reply) :=
  ((commands.zip replies).filter fun (command, _) => command.access?.isSome).map Prod.snd

theorem accessReplies_cons (command : Command) (commands : List Command)
    (reply : BackedReply Reply) (replies : List (BackedReply Reply)) :
    accessReplies (command :: commands) (reply :: replies) =
      accessReplies [command] [reply] ++ accessReplies commands replies := by
  unfold accessReplies
  rw [← List.map_append, ← List.filter_append]
  rfl

/-- A reply to an access that was a hit or a miss, or to one that went astray.  Only an
`access` tells whether it was a hit. -/
inductive Shows : Option Bool → BackedReply Reply → Prop
  | byte (value : UInt8) (hit : Bool) : Shows (some hit) (.ok (.byte value hit))
  | read (value : UInt8) (hit : Bool) : Shows (some hit) (.ok (.read value))
  | written (hit : Bool) : Shows (some hit) (.ok .done)
  | lost (address : Nat) : Shows none (.error (.missedAfterFill address))

section Single

variable {σ : Type} [BlockStore σ] {good : σ → Prop} {backed after : BackedCache σ}
  {address : Address}

theorem sendAll_of_willing (willing : Willing good) {store after : σ} (isGood : good store)
    {queue : List Writeback} {outcome : StoreReply Unit}
    (ran : sendAll store queue = .ok (outcome, after)) : outcome = .ok () ∧ good after := by
  induction queue generalizing store with
  | nil =>
    cases ran
    exact ⟨rfl, isGood⟩
  | cons block rest ih =>
    obtain ⟨⟨_, middle⟩, served, ran⟩ := bind_eq_ok_iff.mp ran
    obtain ⟨rfl, isGood'⟩ := willing.writeback isGood served
    exact ih isGood' ran

theorem drain_of_willing (willing : Willing good) {outcome : BackedReply Unit}
    (ran : backed.drain = .ok (outcome, after)) (isGood : good backed.store) :
    outcome = .ok () ∧ good after.store ∧ after.cache.outline = backed.cache.outline := by
  obtain ⟨⟨_, store⟩, sent, same⟩ := bind_eq_ok_iff.mp ran
  obtain ⟨rfl, isGood'⟩ := sendAll_of_willing willing isGood sent
  cases same
  exact ⟨rfl, isGood', rfl⟩

/-- A miss leaves the outline that filling in zeros leaves. -/
theorem serveMiss_of_willing (willing : Willing good) {outcome : BackedReply Unit}
    (ran : backed.serveMiss address = .ok (outcome, after)) (isGood : good backed.store) :
    outcome = .ok () ∧ good after.store ∧ ∃ size index,
      backed.cache.layout.blockSize = .ok size ∧
        backed.cache.outline.fill address (Array.replicate size 0) =
          .ok (index, after.cache.outline) := by
  obtain ⟨⟨_, retired⟩, isRetired, ran⟩ := bind_eq_ok_iff.mp ran
  obtain ⟨⟨_, drained⟩, isDrained, ran⟩ := bind_eq_ok_iff.mp ran
  have retiredOutline := Cache.outline_of_retireStale _ _ isRetired
  obtain ⟨rfl, isGood', drainedOutline⟩ := drain_of_willing willing isDrained isGood
  have same : drained.cache.outline = backed.cache.outline := drainedOutline.trans retiredOutline
  obtain ⟨tag, _, ran⟩ := bind_eq_ok_iff.mp ran
  obtain ⟨⟨_, store⟩, served, ran⟩ := bind_eq_ok_iff.mp ran
  obtain ⟨⟨bytes, rfl⟩, isGood''⟩ := willing.fetch isGood' served
  obtain ⟨⟨index, filled⟩, isFilled, ran⟩ := bind_eq_ok_iff.mp ran
  obtain ⟨outcome_eq, isGood, filledOutline⟩ := drain_of_willing willing ran isGood''
  obtain ⟨size, sized, shown⟩ := Cache.fill_of_fill isFilled
  rw [same, ← filledOutline] at shown
  have layout : drained.cache.outline.layout = backed.cache.outline.layout :=
    congrArg Cache.layout same
  exact ⟨outcome_eq, isGood, size, index, layout ▸ sized, shown⟩

/-- Whether an access was a hit, if it was served. -/
def hit? : BackedReply (UInt8 × Bool) → Option Bool
  | .ok (_, hit) => some hit
  | .error _ => none

theorem demand_of_access (willing : Willing good) (isGood : good backed.store) {access : Access}
    {outcome : BackedReply (UInt8 × Bool)}
    (ran : backed.access address access = .ok (outcome, after)) :
    good after.store ∧
      backed.cache.outline.demand address = .ok (hit? outcome, after.cache.outline) ∧
      ∀ error, outcome = .error error → error = .missedAfterFill address.toNat := by
  obtain ⟨⟨found, cache⟩, accessed, ran⟩ := bind_eq_ok_iff.mp ran
  have sought := Cache.seek_of_access accessed
  rw [Cache.demand, sought, ok_bind]
  cases found with
  | some byte =>
    cases ran
    exact ⟨isGood, rfl, nofun⟩
  | none =>
    obtain ⟨⟨_, refilled⟩, missed, ran⟩ := bind_eq_ok_iff.mp ran
    obtain ⟨rfl, isGood', size, index, sized, filled⟩ := serveMiss_of_willing willing missed isGood
    obtain ⟨⟨found, last⟩, again, ran⟩ := bind_eq_ok_iff.mp ran
    have sought' := Cache.seek_of_access again
    have sized' : cache.outline.layout.blockSize = .ok size := sized
    dsimp only [Option.isSome] at filled ⊢
    rw [if_neg (by simp), sized', ok_bind, filled, ok_bind]
    dsimp only
    rw [sought', ok_bind]
    cases found with
    | some byte =>
      cases ran
      exact ⟨isGood', rfl, nofun⟩
    | none =>
      cases ran
      exact ⟨isGood', rfl, fun error same => (Except.error.inj same).symm⟩

theorem demandAll_of_access (willing : Willing good) (isGood : good backed.store)
    {shown : UInt8 × Bool → Reply}
    (tells : ∀ byte hit, Shows (some hit) (.ok (shown (byte, hit)))) {access : Access}
    {outcome : BackedReply (UInt8 × Bool)}
    (ran : backed.access address access = .ok (outcome, after)) :
    good after.store ∧ ∃ hits, List.Forall₂ Shows hits [outcome.map shown] ∧
      backed.cache.outline.demandAll [.access address] = .ok (hits, after.cache.outline) := by
  obtain ⟨isGood', demanded, lost⟩ := demand_of_access willing isGood ran
  refine ⟨isGood', [hit? outcome], .cons ?_ .nil, ?_⟩
  · cases outcome with
    | ok answer => exact tells answer.1 answer.2
    | error error =>
      rw [lost error rfl]
      exact .lost _
  · rw [Cache.demandAll, demanded]
    rfl

/-- An operation goes as it does without its data. -/
theorem demandAll_of_run (willing : Willing good) (isGood : good backed.store) {command : Command}
    {reply : BackedReply Reply} (ran : backed.run command = .ok (reply, after)) :
    good after.store ∧ ∃ hits, List.Forall₂ Shows hits (accessReplies [command] [reply]) ∧
      backed.cache.outline.demandAll command.demand?.toList = .ok (hits, after.cache.outline) := by
  cases command with
  | access address access =>
    obtain ⟨⟨outcome, last⟩, accessed, same⟩ := bind_eq_ok_iff.mp ran
    cases same
    exact demandAll_of_access willing isGood Shows.byte accessed
  | read address =>
    obtain ⟨⟨_, last⟩, isRead, same⟩ := bind_eq_ok_iff.mp ran
    cases same
    obtain ⟨⟨outcome, last⟩, accessed, same⟩ := bind_eq_ok_iff.mp isRead
    cases same
    have shown : (outcome.map Prod.fst).map Reply.read = outcome.map (Reply.read ∘ Prod.fst) := by
      cases outcome <;> rfl
    rw [shown]
    exact demandAll_of_access willing isGood Shows.read accessed
  | write address value =>
    obtain ⟨⟨_, last⟩, isWritten, same⟩ := bind_eq_ok_iff.mp ran
    cases same
    obtain ⟨⟨outcome, last⟩, accessed, same⟩ := bind_eq_ok_iff.mp isWritten
    cases same
    have shown : (outcome.map fun _ => ()).map (fun _ => Reply.done) =
        outcome.map fun _ => Reply.done := by
      cases outcome <;> rfl
    rw [shown]
    exact demandAll_of_access willing isGood (fun _ => Shows.written) accessed
  | flush =>
    obtain ⟨⟨_, last⟩, flushed, same⟩ := bind_eq_ok_iff.mp ran
    cases same
    obtain ⟨⟨_, drained⟩, isDrained, same⟩ := bind_eq_ok_iff.mp flushed
    cases same
    obtain ⟨_, isGood', outline⟩ := drain_of_willing willing isDrained isGood
    refine ⟨isGood', [], .nil, ?_⟩
    rw [outline]
    exact congrArg (fun outline => Except.ok ([], outline)) backed.cache.outline_flushDirty.symm
  | setLocked index locked =>
    obtain ⟨cache, changed, same⟩ := bind_eq_ok_iff.mp ran
    cases same
    have shown := backed.cache.setLocked_outline index locked
    rw [changed] at shown
    refine ⟨isGood, [], .nil, ?_⟩
    change backed.cache.outline.setLocked index locked >>= _ = _
    rw [← shown]
    rfl

theorem demandAll_of_runAll (willing : Willing good) (isGood : good backed.store)
    {commands : List Command} {replies : List (BackedReply Reply)}
    (ran : backed.runAll commands = .ok (replies, after)) :
    ∃ hits, List.Forall₂ Shows hits (accessReplies commands replies) ∧
      backed.cache.outline.demandAll (commands.filterMap Command.demand?) =
        .ok (hits, after.cache.outline) := by
  induction commands generalizing backed replies with
  | nil =>
    cases ran
    exact ⟨[], .nil, rfl⟩
  | cons command rest ih =>
    obtain ⟨⟨reply, middle⟩, first, ran⟩ := bind_eq_ok_iff.mp ran
    obtain ⟨⟨replies, _⟩, others, same⟩ := bind_eq_ok_iff.mp ran
    cases same
    obtain ⟨isGood', hits, shown, demanded⟩ := demandAll_of_run willing isGood first
    obtain ⟨hits', shown', demanded'⟩ := ih isGood' others
    refine ⟨hits ++ hits', ?_, ?_⟩
    · rw [accessReplies_cons]
      exact List.rel_append shown shown'
    · have split : (command :: rest).filterMap Command.demand? =
          command.demand?.toList ++ rest.filterMap Command.demand? := by
        cases command <;> rfl
      rw [split, Cache.demandAll_append, demanded, ok_bind]
      dsimp only
      rw [demanded']
      rfl

end Single

section Pairs

variable {σ σ' : Type} [BlockStore σ] [BlockStore σ'] {good : σ → Prop} {good' : σ' → Prop}

/-- A cache, fresh or not, is put before two stores that do not refuse, and is asked for the
same addresses in turn before both.  Then every access is a hit before both or before neither,
and afterwards the caches differ in data only.  One run may read where the other writes, write
other values and flush at other times, and the stores need not hold the same. -/
theorem alike_of_runAll {cache : Cache} {store : σ} {store' : σ'}
    {backed after : BackedCache σ} {backed' after' : BackedCache σ'}
    {commands commands' : List Command} {replies replies' : List (BackedReply Reply)}
    (willing : Willing good) (willing' : Willing good') (isGood : good store)
    (isGood' : good' store') (joined : ofCache cache store = .ok backed)
    (joined' : ofCache cache store' = .ok backed')
    (ran : backed.runAll commands = .ok (replies, after))
    (ran' : backed'.runAll commands' = .ok (replies', after'))
    (same : commands.filterMap Command.demand? = commands'.filterMap Command.demand?) :
    (∃ hits, List.Forall₂ Shows hits (accessReplies commands replies) ∧
      List.Forall₂ Shows hits (accessReplies commands' replies')) ∧
    after.cache.Alike after'.cache := by
  obtain ⟨_, _, joined⟩ := bind_eq_ok_iff.mp joined
  obtain ⟨_, _, only⟩ := bind_eq_ok_iff.mp joined
  cases only
  obtain ⟨_, _, joined'⟩ := bind_eq_ok_iff.mp joined'
  obtain ⟨_, _, only⟩ := bind_eq_ok_iff.mp joined'
  cases only
  obtain ⟨hits, shown, demanded⟩ := demandAll_of_runAll willing isGood ran
  obtain ⟨hits', shown', demanded'⟩ := demandAll_of_runAll willing' isGood' ran'
  have both : (hits, after.cache.outline) = (hits', after'.cache.outline) :=
    Except.ok.inj (demanded.symm.trans (same ▸ demanded'))
  obtain ⟨rfl, outline⟩ := Prod.mk.inj both
  exact ⟨⟨hits, shown, shown'⟩, Cache.alike_of_outline_eq outline⟩

theorem alike_after_other_writes : ∃ cache store backed backed' replies replies' after after',
    Cache.ofConfig .tiny = .ok cache ∧ ofCache cache ({ blockSize := 4 } : Memory) = .ok backed ∧
      Memory.poke { blockSize := 4 } 0x08 5 = .ok store ∧ ofCache cache store = .ok backed' ∧
      backed.runAll [.write 0x01 7, .access 0x08 (.write 9), .access 0x10 .read, .flush,
        .access 0x18 (.write 1), .access 0x08 .read] = .ok (replies, after) ∧
      backed'.runAll [.read 0x01, .flush, .access 0x08 .read, .access 0x10 (.write 4),
        .access 0x18 .read, .access 0x08 .read] = .ok (replies', after') ∧
      after.cache.stats.writebacks ≠ after'.cache.stats.writebacks ∧
      (∃ hits, List.Forall₂ Shows hits (accessReplies [.write 0x01 7, .access 0x08 (.write 9),
          .access 0x10 .read, .flush, .access 0x18 (.write 1), .access 0x08 .read] replies) ∧
        List.Forall₂ Shows hits (accessReplies [.read 0x01, .flush, .access 0x08 .read,
          .access 0x10 (.write 4), .access 0x18 .read, .access 0x08 .read] replies')) ∧
      after.cache.Alike after'.cache := by
  have answers : (do
      let cache ← Cache.ofConfig .tiny
      let backed ← ofCache cache ({ blockSize := 4 } : Memory)
      let store ← Memory.poke { blockSize := 4 } 0x08 5
      let backed' ← ofCache cache store
      let result ← backed.runAll [.write 0x01 7, .access 0x08 (.write 9), .access 0x10 .read,
        .flush, .access 0x18 (.write 1), .access 0x08 .read]
      let result' ← backed'.runAll [.read 0x01, .flush, .access 0x08 .read,
        .access 0x10 (.write 4), .access 0x18 .read, .access 0x08 .read]
      return (result.2.cache.stats.writebacks, result'.2.cache.stats.writebacks)) =
        .ok (2, 0) := by
    decide +kernel
  obtain ⟨cache, made, answers⟩ := bind_eq_ok_iff.mp answers
  obtain ⟨backed, joined, answers⟩ := bind_eq_ok_iff.mp answers
  obtain ⟨store, poked, answers⟩ := bind_eq_ok_iff.mp answers
  obtain ⟨backed', joined', answers⟩ := bind_eq_ok_iff.mp answers
  obtain ⟨⟨replies, after⟩, ran, answers⟩ := bind_eq_ok_iff.mp answers
  obtain ⟨⟨replies', after'⟩, ran', answers⟩ := bind_eq_ok_iff.mp answers
  have counts := Prod.mk.inj (Except.ok.inj answers)
  have whole : store.Whole := (Memory.whole_of_empty 4).poke poked
  refine ⟨cache, store, backed, backed', replies, replies', after, after', made, joined, poked,
    joined', ran, ran', ?_, ?_⟩
  · rw [counts.1, counts.2]
    decide
  · exact alike_of_runAll Memory.serves.willing Memory.serves.willing (Memory.whole_of_empty 4)
      whole joined joined' ran ran' rfl

end Pairs

end BackedCache

end TrieCache
