import TrieCache.Proofs.Independence
import TrieCache.Proofs.Integrity
import TrieCache.Proofs.Unwritten
import TrieCache.Replay

/-!
# Seeded and backed replay agree

A replay only reads, so whatever serves its misses leaves nothing to write back.  Inserting
a byte is filling in a block of zeros with that byte, and before a store the way of a miss
past the queue does nothing.  So both replays fill in some block on a miss, and which one
does not show: hits and misses are the same, and so is what becomes of the cache but for
the bytes in its leaves.
-/

namespace TrieCache

namespace Cache

variable {cache after : Cache} {address : Address} {block : Array UInt8} {hit : Bool}

section Serving

/-- Serving an access goes as it does without data. -/
theorem Served.demand (served : cache.Served address block hit after) :
    cache.outline.demand address = .ok (some hit, after.outline) := by
  cases served with
  | hit found =>
    rw [Cache.demand, seek_of_access found]
    rfl
  | @miss built leaf byte missed filled after absent _ _ installed isFilled _ again _ answer =>
    obtain ⟨size, sized, shown⟩ := fill_of_fill isFilled
    have sized' : missed.outline.layout.blockSize = .ok size := sized
    rw [Cache.demand, seek_of_access absent, ok_bind]
    dsimp only [Option.isSome]
    rw [if_neg (by simp), sized', ok_bind, shown, ok_bind]
    dsimp only
    rw [seek_of_access again]
    rfl

/-- A byte is inserted by filling in a block of zeros with that byte. -/
theorem insert_of_installPath (sound : cache.view.Sound) {value : UInt8} {built : List Nat}
    (tidy : cache.Tidy)
    (ran : cache.installPath address (fun _ _ =>
      (Array.replicate cache.layout.blockBytes 0).setIfInBounds (cache.layout.placeOf address)
        value) = .ok (built, after)) :
    ∃ leaf, cache.insert address value = .ok (leaf, after) := by
  have staged : cache.Staged address (fun offset bytes => bytes.setIfInBounds offset value) built
      after := (staged_of_installPath sound tidy ran).congr sound rfl
  rw [insert, install, staged.installPath_eq sound]
  exact ⟨_, rfl⟩

theorem Served.readSeeded {value : UInt8}
    (served : cache.Served address ((Array.replicate cache.layout.blockBytes 0).setIfInBounds
      (cache.layout.placeOf address) value) hit after) :
    cache.readSeeded value address = .ok (hit, after) := by
  cases served with
  | hit found =>
    rw [Cache.readSeeded, found]
    rfl
  | @miss built leaf byte missed filled after absent kept unwritten installed _ _ again _ answer =>
    have layout : missed.layout = cache.layout :=
      congrArg (fun view : View => view.frame.layout) kept
    rw [← layout] at installed
    obtain ⟨index, inserted⟩ := insert_of_installPath unwritten.sound unwritten.tidy installed
    have isByte : byte = value := by
      obtain ⟨inside, isByte⟩ := Array.getElem?_eq_some_iff.mp answer
      simpa using isByte.symm
    rw [Cache.readSeeded, absent, ok_bind]
    dsimp only [Option.isSome]
    rw [if_neg (by simp), inserted, ok_bind]
    dsimp only
    rw [again, ok_bind, isByte]
    simp [require]

end Serving

theorem foldl_of_unmoved {step : Nat × Cache → Nat → Nat × Cache}
    (unmoved : ∀ count index, ∃ count', step (count, cache) index = (count', cache))
    (indices : List Nat) (count : Nat) :
    ∃ count', indices.foldl step (count, cache) = (count', cache) := by
  induction indices generalizing count with
  | nil => exact ⟨count, rfl⟩
  | cons index rest ih =>
    obtain ⟨count', same⟩ := unmoved count index
    rw [List.foldl_cons, same]
    exact ih count'

theorem Unwritten.retireStale (unwritten : cache.Unwritten) (address : Address) :
    ∃ retired, cache.retireStale address = .ok (retired, cache) := by
  have regular : cache.layout.Regular := unwritten.sound.founded.regular
  have unmoved (tag : Nat) (live : Option Nat) (retired index : Nat) :
      ∃ count, cache.retireBlock tag live retired index = (count, cache) := by
    unfold retireBlock
    split
    · exact ⟨_, rfl⟩
    next block found =>
      split
      · rw [unwritten.not_dirty found]
        exact ⟨_, rfl⟩
      · exact ⟨_, rfl⟩
  rw [Cache.retireStale, regular.tag_eq, ok_bind]
  dsimp only
  refine (foldl_of_unmoved ?_ (List.range cache.pool.capacity) 0).imp fun _ same =>
    congrArg Except.ok same
  exact fun retired index => unmoved _ _ retired index

theorem Unwritten.inspect_eq (unwritten : cache.Unwritten) (verify : Bool) (address : Address) :
    Replay.inspect verify cache address = .ok (.ok ()) := by
  have checked := (Ready.sound unwritten.tidy unwritten.sound).intact.checkStructure
  cases verify with
  | false => rfl
  | true =>
    rw [Replay.inspect, if_pos rfl, checked]
    rfl

/-- Two caches differ in nothing but the bytes of their leaves. -/
structure SameButBytes (first second : Cache) : Prop extends Alike first second where
  stats_eq : first.stats = second.stats
  dirty (index : Nat) :
    first.pool.blocks[index]?.map Block.dirty = second.pool.blocks[index]?.map Block.dirty
  writebacks : first.writebacks = second.writebacks

theorem sameButBytes_of_outline_eq {first second : Cache} (unwritten : first.Unwritten)
    (unwritten' : second.Unwritten) (same : first.outline = second.outline) :
    first.SameButBytes second where
  toAlike := alike_of_outline_eq same
  stats_eq := by
    have stats : first.stats.outline = second.stats.outline := congrArg Cache.stats same
    have issued := unwritten.issued.trans unwritten'.issued.symm
    cases stats_eq : first.stats
    cases stats_eq' : second.stats
    simp_all [Stats.outline]
  dirty := by
    intro index
    have none {cache : Cache} (unwritten : cache.Unwritten) :
        cache.pool.blocks[index]?.map Block.dirty =
          cache.pool.outline.blocks[index]?.map fun _ => false := by
      rw [Pool.blocks_outline]
      cases found : cache.pool.blocks[index]? with
      | none => rfl
      | some block => exact congrArg some (unwritten.not_dirty found)
    have pool : first.pool.outline = second.pool.outline := congrArg Cache.pool same
    rw [none unwritten, none unwritten', pool]
  writebacks := unwritten.idle.trans unwritten'.idle.symm

end Cache

namespace BackedCache

open BlockStore

variable {σ : Type} [BlockStore σ] {backed : BackedCache σ} {address : Address}
  {block : Array UInt8} {hit : Bool} {after : Cache}

/-- A store that has the block serves the access, and is asked on a miss only. -/
theorem access_of_served {store : σ} (regular : backed.cache.layout.Regular)
    (served : backed.cache.Served address block hit after)
    (fetched : fetchBlock backed.store (backed.cache.layout.blockOf address) =
      .ok (.ok block, store)) :
    ∃ byte, backed.access address .read =
      .ok (.ok (byte, hit), { cache := after, store := if hit then backed.store else store }) := by
  cases served with
  | @hit byte _ found =>
    have accessed : backed.cache.access address .read = .ok (some byte, after) := found
    rw [access, accessed]
    exact ⟨byte, rfl⟩
  | @miss built leaf byte missed filled _ absent kept unwritten _ isFilled unwritten' again _ _ =>
    have accessed : backed.cache.access address .read = .ok (none, missed) := absent
    have accessed' : filled.access address .read = .ok (some byte, after) := again
    have layout : missed.layout = backed.cache.layout :=
      congrArg (fun view : View => view.frame.layout) kept
    have tag : missed.layout.tag address = .ok (backed.cache.layout.blockOf address) := by
      rw [layout]
      exact regular.tag_eq address
    obtain ⟨retired, isRetired⟩ := unwritten.retireStale address
    have drained : drain { backed with cache := missed } = .ok (.ok (), { backed with cache := missed }) :=
      drain_of_idle unwritten.idle
    have drained' : drain { cache := filled, store } = .ok (.ok (), { cache := filled, store }) :=
      drain_of_idle unwritten'.idle
    have refilled : refill { backed with cache := missed } address =
        .ok (.ok (), { cache := filled, store }) := by
      simp only [refill, tag, ok_bind, fetched, isFilled, drained']
    have missServed : serveMiss { backed with cache := missed } address =
        .ok (.ok (), { cache := filled, store }) := by
      simp only [serveMiss, isRetired, ok_bind, drained, refilled]
    rw [access, accessed, ok_bind]
    dsimp only
    rw [missServed, ok_bind]
    dsimp only
    rw [accessed']
    exact ⟨byte, rfl⟩

end BackedCache

namespace Replay

variable {σ : Type} {cacheOf : σ → Cache} {step : Step σ} {verify : Bool} {state : σ}
  {report : Report} {address : Address} {rest : List Address}

def seededStep (value : UInt8) : Step Cache := fun cache address => do
  let (hit, cache) ← cache.readSeeded value address
  return (.ok hit, cache)

def backedStep : Step (BackedCache Memory) := fun backed address => do
  let (reply, backed) ← backed.access address .read
  return ((reply.map Prod.snd).mapError .backed, backed)

theorem seededStep_eq {cache after : Cache} {value : UInt8} {hit : Bool}
    (ran : cache.readSeeded value address = .ok (hit, after)) :
    seededStep value cache address = .ok (.ok hit, after) := by
  rw [seededStep, ran]
  rfl

theorem backedStep_eq {backed after : BackedCache Memory} {byte : UInt8} {hit : Bool}
    (ran : backed.access address .read = .ok (.ok (byte, hit), after)) :
    backedStep backed address = .ok (.ok hit, after) := by
  rw [backedStep, ran]
  rfl

theorem visitAll_cons {hit : Bool} {state' : σ}
    (inRange : (cacheOf state).layout.contains address = true)
    (stepped : step state address = .ok (.ok hit, state'))
    (inspected : inspect verify (cacheOf state') address = .ok (.ok ())) :
    visitAll cacheOf step verify state report (address :: rest) =
      visitAll cacheOf step verify state' (report.count hit) rest := by
  rw [visitAll, visit]
  simp only [inRange, if_true, stepped, ok_bind, inspected]
  rfl

theorem visitAll_cons_of_outside
    (outside : (cacheOf state).layout.contains address = false) :
    visitAll cacheOf step verify state report (address :: rest) =
      .ok (.error (.outOfRange address.toNat (cacheOf state).config.addressBits.toNat), state) := by
  rw [visitAll, visit]
  simp only [outside, Bool.false_eq_true, if_false]
  rfl

end Replay

section Lockstep

variable {fetches count : Nat} {seeded : Cache} {backed : BackedCache Memory} {address : Address}

/-- Two replays have come equally far: their caches show the same, and the memory was asked
for at most one block an address. -/
structure Twins (fetches count : Nat) (seeded : Cache) (backed : BackedCache Memory) : Prop where
  unwritten : seeded.Unwritten
  unwritten' : backed.cache.Unwritten
  outline : seeded.outline = backed.cache.outline
  sequence_le : seeded.view.sequence ≤ count
  whole : backed.store.Whole
  sized : backed.store.blockSize = seeded.layout.blockBytes
  fetches_le : backed.store.fetches ≤ fetches + count

namespace Twins

variable (twins : Twins fetches count seeded backed)
include twins

theorem layout_eq : backed.cache.layout = seeded.layout :=
  show backed.cache.outline.layout = seeded.outline.layout from
    congrArg Cache.layout twins.outline.symm

theorem config_eq : backed.cache.config = seeded.config :=
  show backed.cache.outline.config = seeded.outline.config from
    congrArg Cache.config twins.outline.symm

theorem step (inRange : seeded.layout.contains address = true) (value : UInt8)
    (countable : fetches + count + 1 < 2 ^ 64) :
    ∃ byte hit seeded' backed', seeded.readSeeded value address = .ok (hit, seeded') ∧
      backed.access address .read = .ok (.ok (byte, hit), backed') ∧
      seeded'.frame = seeded.frame ∧ Twins fetches (count + 1) seeded' backed' := by
  have regular : seeded.layout.Regular := twins.unwritten.sound.founded.regular
  have layout := twins.layout_eq
  have sequence_le := twins.sequence_le
  have fetches_le := twins.fetches_le
  have sequence_eq : backed.cache.view.sequence = seeded.view.sequence :=
    show backed.cache.outline.fastPath.nextSequence = seeded.outline.fastPath.nextSequence from
      congrArg (fun cache : Cache => cache.fastPath.nextSequence) twins.outline.symm
  have small : backed.store.blockSize < 2 ^ 63 := by
    rw [twins.sized]
    exact Nat.pow_lt_pow_right (by omega) regular.blockBits_lt
  have whole : ((Array.replicate seeded.layout.blockBytes 0).setIfInBounds
      (seeded.layout.placeOf address) value).size = seeded.layout.blockBytes := by simp
  obtain ⟨hit, seeded', served, unwritten, frame, sequence_le'⟩ :=
    twins.unwritten.served inRange whole (by omega)
  have size : (backed.store.contents (seeded.layout.blockOf address)).size =
      backed.cache.layout.blockBytes := by
    rw [twins.whole.size_contents, twins.sized, layout]
  obtain ⟨hit', cache', served', unwritten', _, _⟩ :=
    twins.unwritten'.served (layout ▸ inRange) size (by omega)
  obtain ⟨⟨_, store⟩, fetched, rfl, rfl⟩ :=
    (twins.whole.fetchBlock_outcome (seeded.layout.blockOf address)).exists_ok fun fault failed => by
      rcases failed with ⟨_, full⟩ | large
      · omega
      · omega
  rw [← layout] at fetched
  obtain ⟨byte, accessed⟩ :=
    BackedCache.access_of_served (layout ▸ regular) (layout ▸ served') fetched
  have demanded := served.demand
  rw [twins.outline, served'.demand, Except.ok.injEq, Prod.mk.injEq, Option.some.injEq] at demanded
  obtain ⟨rfl, same⟩ := demanded
  have layout' : seeded'.layout = seeded.layout := congrArg Frame.layout frame
  refine ⟨byte, hit', seeded', _, served.readSeeded, accessed, frame, unwritten, unwritten',
    same.symm, by omega, ?_, ?_, ?_⟩
  · cases hit' <;> exact twins.whole
  · rw [layout', ← twins.sized]
    cases hit' <;> rfl
  · cases hit'
    · change backed.store.fetches + 1 ≤ _
      omega
    · change backed.store.fetches ≤ _
      omega

/-- Both replays of a list of addresses stop at the first one out of range, and otherwise
come to the end with the same counts. -/
theorem visitAll (value : UInt8) (verify : Bool) (addresses : List Address) (report : Report)
    (countable : fetches + count + addresses.length < 2 ^ 64) :
    ∃ reply seeded' backed' count',
      Replay.visitAll id (Replay.seededStep value) verify seeded report addresses =
          .ok (reply, seeded') ∧
        Replay.visitAll BackedCache.cache Replay.backedStep verify backed report addresses =
          .ok (reply, backed') ∧
        Twins fetches count' seeded' backed' ∧ count' ≤ count + addresses.length ∧
        seeded'.frame = seeded.frame ∧
        match addresses.find? fun address => !seeded.layout.contains address with
        | none => ∃ final, reply = .ok final ∧ final.total = report.total + addresses.length
        | some address => reply = .error (.outOfRange address.toNat seeded.config.addressBits.toNat) := by
  induction addresses generalizing count seeded backed report with
  | nil =>
    exact ⟨.ok report, seeded, backed, count, rfl, rfl, twins, le_rfl, rfl, report, rfl, rfl⟩
  | cons address rest ih =>
    have layout := twins.layout_eq
    have config := twins.config_eq
    rw [List.length_cons] at countable
    by_cases inRange : seeded.layout.contains address = true
    · obtain ⟨byte, hit, middle, middle', first, first', frame, twins'⟩ :=
        twins.step inRange value (by omega)
      obtain ⟨reply, seeded', backed', count', ran, ran', twins'', count'_le, frame', answer⟩ :=
        ih twins' (report.count hit) (by omega)
      have layout' : middle.layout = seeded.layout := congrArg Frame.layout frame
      have config' : middle.config = seeded.config := congrArg Frame.config frame
      have within : count' ≤ count + (address :: rest).length := by
        rw [List.length_cons]
        omega
      refine ⟨reply, seeded', backed', count', ?_, ?_, twins'', within,
        frame'.trans frame, ?_⟩
      · refine (Replay.visitAll_cons ?_ (Replay.seededStep_eq first) ?_).trans ran
        · exact inRange
        · exact twins'.unwritten.inspect_eq verify address
      · refine (Replay.visitAll_cons ?_ (Replay.backedStep_eq first') ?_).trans ran'
        · exact layout ▸ inRange
        · exact twins'.unwritten'.inspect_eq verify address
      · have total : (report.count hit).total = report.total + 1 := rfl
        have length : (report.count hit).total + rest.length =
            report.total + (address :: rest).length := by
          rw [List.length_cons, total]
          omega
        rw [List.find?_cons, inRange, ← length, ← layout', ← config']
        exact answer
    · rw [Bool.not_eq_true] at inRange
      refine ⟨.error (.outOfRange address.toNat seeded.config.addressBits.toNat), seeded, backed,
        count, ?_, ?_, twins, Nat.le_add_right _ _, rfl, ?_⟩
      · refine Replay.visitAll_cons_of_outside ?_
        exact inRange
      · rw [← config]
        refine Replay.visitAll_cons_of_outside ?_
        exact layout ▸ inRange
      · rw [List.find?_cons, inRange]
        rfl

end Twins

/-- A fresh cache and the same before a memory have read nothing yet. -/
theorem twins_of_ofConfig {config : Config} {cache : Cache} {memory : Memory}
    (usable : config.Usable) (made : Cache.ofConfig config = .ok cache) (whole : memory.Whole)
    (sized : memory.blockSize = config.blockSize.toNat) :
    BackedCache.ofCache cache memory = .ok { cache, store := memory } ∧
      Twins memory.fetches 0 cache { cache, store := memory } := by
  have unwritten := Cache.unwritten_of_ofConfig usable made
  obtain ⟨_, _, accepted, isLayout, _, _, _, isFastPath, _⟩ := Cache.ofConfig_spec made
  obtain ⟨_, _, sequence, _⟩ := FastPath.recorded_of_ofCapacity isFastPath
  have sized : memory.blockSize = cache.layout.blockBytes := by
    rw [sized, accepted.blockSize_eq, (Layout.ofConfig_eq_ok_iff accepted).mp isLayout]
    rfl
  exact ⟨(BackedCache.ofCache_eq_ok_iff unwritten.sound.founded.regular).mpr ⟨sized, rfl⟩,
    unwritten, unwritten, rfl, sequence.le, whole, sized, le_rfl⟩

/-- Seeded and backed replay of the same addresses on fresh caches of a usable configuration
both come to an end, with the same report or at the same address out of range, and leave
caches that differ in the bytes of their leaves at most.  The memory may hold anything, as
long as it can count a fetch for every address. -/
theorem replays_agree {config : Config} {cache : Cache} {memory : Memory} (usable : config.Usable)
    (made : Cache.ofConfig config = .ok cache) (whole : memory.Whole)
    (sized : memory.blockSize = config.blockSize.toNat) (value : UInt8) (verify : Bool)
    (addresses : List Address) (countable : memory.fetches + addresses.length < 2 ^ 64) :
    ∃ backed reply seeded served, BackedCache.ofCache cache memory = .ok backed ∧
      cache.replay value verify addresses = .ok (reply, seeded) ∧
      backed.replay verify addresses = .ok (reply, served) ∧
      (match addresses.find? fun address => !cache.layout.contains address with
        | none => ∃ report, reply = .ok report ∧ report.total = addresses.length
        | some address => reply = .error (.outOfRange address.toNat config.addressBits.toNat)) ∧
      seeded.SameButBytes served.cache := by
  obtain ⟨_, _, _, _, isConfig, _⟩ := Cache.ofConfig_spec made
  obtain ⟨joined, twins⟩ := twins_of_ofConfig usable made whole sized
  obtain ⟨reply, seeded, served, _, ran, ran', twins', _, _, answer⟩ :=
    twins.visitAll value verify addresses {} (by omega)
  refine ⟨_, reply, seeded, served, joined, ran, ran', ?_,
    Cache.sameButBytes_of_outline_eq twins'.unwritten twins'.unwritten' twins'.outline⟩
  rw [isConfig] at answer
  simpa only [Nat.zero_add] using answer

/-- Five paths of two blocks do not fit a pool of eight blocks: the fifth block that is read
pushes out the first, which misses again. -/
theorem replays_agree_under_eviction : ∃ cache backed seeded served,
    Cache.ofConfig .tiny = .ok cache ∧
      BackedCache.ofCache cache ({ blockSize := 4 } : Memory) = .ok backed ∧
      cache.replay 42 false [0x01, 0x08, 0x10, 0x18, 0x20, 0x21, 0x01] =
        .ok (.ok { misses := 6, total := 7 }, seeded) ∧
      backed.replay false [0x01, 0x08, 0x10, 0x18, 0x20, 0x21, 0x01] =
        .ok (.ok { misses := 6, total := 7 }, served) ∧
      seeded.SameButBytes served.cache := by
  have answers : (do
      let cache ← Cache.ofConfig .tiny
      let result ← cache.replay 42 false [0x01, 0x08, 0x10, 0x18, 0x20, 0x21, 0x01]
      return result.1) = .ok (.ok { misses := 6, total := 7 }) := by decide +kernel
  obtain ⟨cache, made, answers⟩ := bind_eq_ok_iff.mp answers
  obtain ⟨⟨reply, seeded⟩, ran, same⟩ := bind_eq_ok_iff.mp answers
  cases same
  obtain ⟨backed, reply, seeded', served, joined, ran', served_ran, _, same⟩ :=
    replays_agree BackedCache.usable_tiny made (Memory.whole_of_empty 4) rfl 42 false
      [0x01, 0x08, 0x10, 0x18, 0x20, 0x21, 0x01] (by decide)
  cases ran.symm.trans ran'
  exact ⟨cache, backed, seeded, served, made, joined, ran, served_ran, same⟩

end Lockstep

end TrieCache
