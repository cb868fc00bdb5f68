import TrieCache.Proofs.Flushing
import TrieCache.Proofs.Replays
import TrieCache.Proofs.Representation
import TrieCache.Proofs.Traffic
import TrieCache.Simulation

/-!
# Synthetic runs complete

A run on random addresses that has room for its lists comes to an end with a report, whatever
source the addresses are drawn from.  However the footprint was given, they are all inside the
address space.  So the replay refuses none of them, every miss is served, and there is nothing
to publish at the end.

The list of addresses and the pool are made at once, and a run that has no room for one of them
ends there.  The fast path grows on the way: it takes a record an address at most, and no more
than twice its capacity before it drops those that are stale.
-/

namespace TrieCache

namespace Cache

section Building

variable {config : Config} (valid : config.ensureValid = .ok ())
include valid

/-- Of what an accepted configuration asks for, only the pool may have no room. -/
theorem ofConfig_eq_of_pool :
    ∃ layout top fastPath, ofConfig config = do
      let pool ← Pool.ofCapacity (config.size.toNat / config.blockSize.toNat)
      return { config, layout, pool, top, fastPath } := by
  obtain ⟨capacity, spanBits, accepted⟩ := Config.accepted_of_ensureValid valid
  have isLayout := (Layout.ofConfig_eq_ok_iff accepted).mpr rfl
  have topped : Link.bytes * max (2 ^ (config.addressBits.toNat - spanBits)) 1 < 2 ^ 63 := by
    have few : 2 ^ (config.addressBits.toNat - spanBits) ≤ 2 ^ 24 :=
      Nat.pow_le_pow_right (by decide) accepted.topBits_le
    rw [Link.bytes]
    omega
  have isTop : TopIndex.ofSize (2 ^ (config.addressBits.toNat - spanBits)) = .ok
      { entries := Array.replicate (max (2 ^ (config.addressBits.toNat - spanBits)) 1) {} } := by
    rw [TopIndex.ofSize, allocate_eq_ok_iff.mpr ⟨topped, rfl⟩]
    rfl
  have isFastPath : FastPath.ofCapacity config.fastPathSize.toNat =
      .ok { capacity := config.fastPathSize.toNat } :=
    if_pos accepted.fastPathSize_pos
  simp only [ofConfig, valid, ok_bind, isLayout, accepted.capacity_eq, accepted.topEntries_eq, isTop,
    isFastPath, ← accepted.capacity_eq_div]
  exact ⟨_, _, _, rfl⟩

theorem exists_ofConfig {pool : Pool}
    (pooled : Pool.ofCapacity (config.size.toNat / config.blockSize.toNat) = .ok pool) :
    ∃ cache, ofConfig config = .ok cache := by
  obtain ⟨_, _, _, same⟩ := ofConfig_eq_of_pool valid
  rw [same, pooled]
  exact ⟨_, rfl⟩

theorem ofConfig_of_crowd
    (crowd : Pool.ofCapacity (config.size.toNat / config.blockSize.toNat) = .error .noRoom) :
    ofConfig config = .error .noRoom := by
  obtain ⟨_, _, _, same⟩ := ofConfig_eq_of_pool valid
  rw [same, crowd]
  rfl

end Building

end Cache

/-- Room for the records of a fast path, for its entries and for one more of each.  A record takes
16 bytes and an entry 24, and what holds them doubles when it is full, so 128 bytes for each are
always enough. -/
def FastPath.HasRoom (table : FastPath) : Prop :=
  128 * (max table.size table.order.length + 1) < 2 ^ 63

namespace BackedCache

theorem flush_of_unwritten {backed : BackedCache Memory} (unwritten : backed.cache.Unwritten) :
    backed.flush = .ok (.ok 0, backed) := by
  have flushed := Cache.flushDirty_of_clean unwritten.not_dirty
  have drained : drain backed = .ok (.ok (), backed) := drain_of_idle unwritten.idle
  rw [flush, flushed]
  dsimp only
  rw [drained]
  rfl

end BackedCache

namespace Replay

variable {σ : Type} {cacheOf : σ → Cache} {step : Step σ} {verify : Bool}

theorem misses_le_of_visitAll {state after : σ} {report final : Report} {addresses : List Address}
    (ran : visitAll cacheOf step verify state report addresses = .ok (.ok final, after))
    (misses_le : report.misses ≤ report.total) : final.misses ≤ final.total := by
  induction addresses generalizing state report with
  | nil =>
    cases ran
    exact misses_le
  | cons address rest ih =>
    obtain ⟨⟨reply, state'⟩, _, ran⟩ := bind_eq_ok_iff.mp ran
    cases reply with
    | error error => cases ran
    | ok hit =>
      refine ih ran ?_
      cases hit
      · exact Nat.succ_le_succ misses_le
      · exact Nat.le_succ_of_le misses_le

end Replay

namespace Simulation

variable {options : Options} {settings : Settings} {length : UInt64} {source : Source}

section Addresses

def synthetic (options : Options) (config : Config) (length : UInt64) (source : Source) :
    Checked (List Address) := do
  (← traffic options config length).generate source

/-- The range of the addresses is within the address space, whatever footprint was given. -/
theorem range_le {config : Config} {traffic : Traffic} (bits_le : config.addressBits.toNat ≤ 64)
    {wanted : Nat} (footprint : traffic.footprint = UInt64.ofNat (min wanted config.addressLimit)) :
    traffic.range ≤ 2 ^ config.addressBits.toNat := by
  have limit_le : config.addressLimit ≤ 2 ^ config.addressBits.toNat := by
    rw [Config.addressLimit]
    split
    next => exact le_rfl
    next wide =>
      have width : config.addressBits.toNat = 64 := by omega
      rw [width, Word.max64]
      omega
  have limit_lt := config.addressLimit_le
  have fits : min wanted config.addressLimit < 2 ^ 64 := by
    rw [Word.max64] at limit_lt
    omega
  have positive := Nat.two_pow_pos config.addressBits.toNat
  rw [Traffic.range, footprint, UInt64.toNat_ofNat_of_lt' fits]
  omega

theorem exists_traffic (options : Options) {config : Config} (length : UInt64)
    (defaulted : 4 * config.size.toNat < 2 ^ 64) :
    ∃ chosen wanted, traffic options config length = .ok chosen ∧ chosen.length = length.toNat ∧
      chosen.base = 0 ∧ chosen.footprint = UInt64.ofNat (min wanted config.addressLimit) := by
  have usual : Word.mul 64 4 config.size.toNat = .ok (4 * config.size.toNat) :=
    Word.mul_eq_ok_iff.mpr ⟨defaulted, rfl⟩
  rw [traffic, usual, ok_bind]
  exact ⟨_, _, rfl, rfl, rfl, rfl⟩

theorem synthetic_of_room (options : Options) {config : Config} {capacity spanBits : Nat}
    {layout : Layout} (source : Source) (accepted : config.Accepted capacity spanBits)
    (isLayout : Layout.ofConfig config = .ok layout)
    (defaulted : 4 * config.size.toNat < 2 ^ 64) (listed : 8 * length.toNat < 2 ^ 63) :
    ∃ addresses, synthetic options config length source = .ok addresses ∧
      addresses.length = length.toNat ∧ ∀ address ∈ addresses, layout.contains address = true := by
  obtain ⟨chosen, wanted, isChosen, length_eq, base, footprint⟩ :=
    exists_traffic options length defaulted
  have range_le := range_le accepted.addressBits_le footprint
  have space : 2 ^ config.addressBits.toNat ≤ 2 ^ 64 :=
    Nat.pow_le_pow_right (by decide) accepted.addressBits_le
  have fits : chosen.Fits := by
    intro offset offset_lt
    rw [base, UInt64.toNat_zero]
    omega
  rw [← length_eq] at listed
  obtain ⟨addresses, generated, count, covers⟩ := Traffic.generate_of_room source fits listed
  refine ⟨addresses, ?_, count.trans length_eq, ?_⟩
  · rw [synthetic, isChosen, ok_bind, generated]
  · intro address member
    obtain ⟨offset, offset_lt, isAddress⟩ := covers address member
    rw [base, UInt64.toNat_zero] at isAddress
    rw [Layout.contains_iff_lt accepted isLayout]
    omega

theorem synthetic_of_crowd (options : Options) {config : Config} (source : Source)
    (defaulted : 4 * config.size.toNat < 2 ^ 64) (crowd : 2 ^ 63 ≤ 8 * length.toNat) :
    synthetic options config length source = .error .noRoom := by
  obtain ⟨chosen, _, isChosen, length_eq, _⟩ := exists_traffic options length defaulted
  rw [← length_eq] at crowd
  rw [synthetic, isChosen, ok_bind, Traffic.generate_of_crowd source crowd]

end Addresses

section Replays

/-- The cache of a run that has replayed some addresses. -/
def cacheAfter (options : Options) (settings : Settings) (seen : List Address) :
    Checked (ReplayReply Cache) := do
  let cache ← Cache.ofConfig settings.cache
  if options.backed then
    let memory : Memory := { blockSize := settings.cache.blockSize.toNat }
    let backed ← BackedCache.ofCache cache memory
    let (reply, backed) ← backed.replay settings.run.verify seen
    return reply.map fun _ => backed.cache
  else
    let (reply, cache) ← cache.replay settings.run.fillValue settings.run.verify seen
    return reply.map fun _ => cache

/-- How a synthetic run goes that comes to its report. -/
structure Completed (options : Options) (settings : Settings) (length : UInt64) (source : Source)
    (addresses : List Address) (report : Report) (stats : Stats) : Prop where
  drawn : synthetic options settings.cache length source = .ok addresses
  length_eq : addresses.length = length.toNat
  inside : ∃ layout, Layout.ofConfig settings.cache = .ok layout ∧
    ∀ address ∈ addresses, layout.contains address = true
  /-- At every address the fast path has room for one more. -/
  room {seen rest : List Address} {address : Address} : addresses = seen ++ address :: rest →
    ∃ cache, cacheAfter options settings seen = .ok (.ok cache) ∧ cache.fastPath.HasRoom
  replayed : simulate options settings addresses = .ok (.ok (report, stats))
  total : report.total = length.toNat
  misses_le : report.misses ≤ length.toNat

/-- What two replays of the same addresses have in common. -/
structure Joint (cache : Cache) (addresses : List Address) (report : Report) (seeded : Cache)
    (served : BackedCache Memory) : Prop where
  unwritten : served.cache.Unwritten
  fastPath_eq : served.cache.fastPath = seeded.fastPath
  size_le : seeded.fastPath.size ≤ seeded.fastPath.order.length
  records_le : seeded.fastPath.order.length ≤ min addresses.length (2 * cache.fastPath.capacity)
  total : report.total = addresses.length
  misses_le : report.misses ≤ addresses.length

/-- Replays of addresses inside the address space come to their end, with the same report. -/
theorem replays_of_inside {config : Config} {cache : Cache} (usable : config.Usable)
    (made : Cache.ofConfig config = .ok cache) (value : UInt8) (verify : Bool)
    {addresses : List Address} (inside : ∀ address ∈ addresses, cache.layout.contains address = true)
    (countable : addresses.length < 2 ^ 64) :
    ∃ report seeded backed served,
      cache.replay value verify addresses = .ok (.ok report, seeded) ∧
      BackedCache.ofCache cache ({ blockSize := config.blockSize.toNat } : Memory) = .ok backed ∧
      backed.replay verify addresses = .ok (.ok report, served) ∧
      Joint cache addresses report seeded served := by
  obtain ⟨joined, (twins : Twins 0 0 cache _)⟩ :=
    twins_of_ofConfig usable made (Memory.whole_of_empty config.blockSize.toNat) rfl
  obtain ⟨reply, seeded, served, count, ran, ran', twins', count_le, frame, answer⟩ :=
    twins.visitAll value verify addresses {} (by omega)
  have nothing : (addresses.find? fun address => !cache.layout.contains address) = none := by
    rw [List.find?_eq_none]
    intro address member
    simp [inside address member]
  rw [nothing] at answer
  obtain ⟨report, rfl, total⟩ := answer
  have total : report.total = addresses.length := by simpa using total
  have misses_le := Replay.misses_le_of_visitAll ran (Nat.le_refl 0)
  refine ⟨report, seeded, _, served, ran, joined, ran', {
    unwritten := twins'.unwritten'
    fastPath_eq := ?_
    size_le := ?_
    records_le := ?_
    total
    misses_le := total ▸ misses_le }⟩
  · exact show served.cache.outline.fastPath = seeded.outline.fastPath from
      congrArg Cache.fastPath twins'.outline.symm
  · rw [← twins'.unwritten.trimmed.queued.length_live, ← Records.length_toList]
    exact List.length_filter_le _ _
  · have capacity : seeded.fastPath.capacity = cache.fastPath.capacity :=
      congrArg Frame.fastPathCapacity frame
    have sequence_le : seeded.fastPath.nextSequence ≤ count := twins'.sequence_le
    have few := twins'.unwritten.trimmed.queued.length_le
    have trimmed := twins'.unwritten.trimmed.length_le
    rw [capacity] at trimmed
    omega

/-- With few addresses to come or a small fast path there is room at each of them. -/
theorem Joint.hasRoom {cache seeded : Cache} {seen : List Address} {report : Report}
    {served : BackedCache Memory} (joint : Joint cache seen report seeded served) {count : Nat}
    (seen_lt : seen.length < count)
    (recorded : 128 * min count (2 * cache.fastPath.capacity + 1) < 2 ^ 63) :
    seeded.fastPath.HasRoom ∧ served.cache.fastPath.HasRoom := by
  have size_le := joint.size_le
  have records_le := joint.records_le
  have room : seeded.fastPath.HasRoom := by
    unfold FastPath.HasRoom
    omega
  exact ⟨room, joint.fastPath_eq ▸ room⟩

theorem cacheAfter_of_inside {cache : Cache} (usable : settings.cache.Usable)
    (made : Cache.ofConfig settings.cache = .ok cache) {seen : List Address} {count : Nat}
    (inside : ∀ address ∈ seen, cache.layout.contains address = true)
    (countable : count < 2 ^ 64) (seen_lt : seen.length < count)
    (recorded : 128 * min count (2 * cache.fastPath.capacity + 1) < 2 ^ 63) :
    ∃ after, cacheAfter options settings seen = .ok (.ok after) ∧ after.fastPath.HasRoom := by
  obtain ⟨report, seeded, backed, served, ran, joined, ran', joint⟩ :=
    replays_of_inside usable made settings.run.fillValue settings.run.verify inside (by omega)
  obtain ⟨room, room'⟩ := joint.hasRoom seen_lt recorded
  cases asked : options.backed with
  | true =>
    refine ⟨served.cache, ?_, room'⟩
    rw [cacheAfter, made, ok_bind, if_pos asked]
    dsimp only
    rw [joined, ok_bind, ran']
    rfl
  | false =>
    refine ⟨seeded, ?_, room⟩
    rw [cacheAfter, made, ok_bind, if_neg (by simp [asked]), ran]
    rfl

theorem completed_of_room (source : Source) (usable : settings.cache.Usable)
    (defaulted : 4 * settings.cache.size.toNat < 2 ^ 64) (listed : 8 * length.toNat < 2 ^ 63)
    {pool : Pool}
    (pooled : Pool.ofCapacity (settings.cache.size.toNat / settings.cache.blockSize.toNat) = .ok pool)
    (recorded : 128 * min length.toNat (2 * settings.cache.fastPathSize.toNat + 1) < 2 ^ 63) :
    ∃ addresses report stats, Completed options settings length source addresses report stats := by
  obtain ⟨cache, made⟩ := Cache.exists_ofConfig usable.valid pooled
  obtain ⟨_, _, accepted, isLayout, _, _, _, isFastPath, _⟩ := Cache.ofConfig_spec made
  obtain ⟨addresses, drawn, length_eq, inside⟩ :=
    synthetic_of_room options source accepted isLayout defaulted listed
  have countable : addresses.length < 2 ^ 64 := length_eq ▸ length.toNat_lt
  have capacity := (FastPath.recorded_of_ofCapacity isFastPath).2.1
  rw [← capacity, ← length_eq] at recorded
  obtain ⟨report, seeded, backed, served, ran, joined, ran', joint⟩ :=
    replays_of_inside usable made settings.run.fillValue settings.run.verify inside countable
  have completes {stats : Stats}
      (replayed : simulate options settings addresses = .ok (.ok (report, stats))) :
      Completed options settings length source addresses report stats := {
    drawn, length_eq, replayed
    inside := ⟨_, isLayout, inside⟩
    room := by
      rintro seen rest address rfl
      refine cacheAfter_of_inside usable made ?_ countable ?_ recorded
      · exact fun other member => inside other (List.mem_append_left _ member)
      · rw [List.length_append, List.length_cons]
        omega
    total := joint.total.trans length_eq
    misses_le := length_eq ▸ joint.misses_le }
  cases asked : options.backed with
  | true =>
    refine ⟨addresses, report, served.cache.stats, completes ?_⟩
    rw [simulate, made, ok_bind, if_pos asked, replayBacked]
    dsimp only
    rw [joined, ok_bind, ran', ok_bind]
    dsimp only
    rw [BackedCache.flush_of_unwritten joint.unwritten]
    rfl
  | false =>
    refine ⟨addresses, report, seeded.stats, completes ?_⟩
    rw [simulate, made, ok_bind, if_neg (by simp [asked]), replaySeeded, ran, ok_bind]
    rfl

end Replays

section Reports

variable {m : Type → Type} [Monad m] {files : Files m} {arguments : List String}
  {addresses : List Address} {report : Report} {stats : Stats}

@[simp]
theorem orFault_ok {α : Type} (value : α) : orFault (m := m) (.ok value) = pure value :=
  rfl

@[simp]
theorem orFault_error {α : Type} (fault : Fault) :
    orFault (m := m) (.error fault : Checked α) = throw (.faulted fault) :=
  rfl

variable [LawfulMonad m]

@[simp]
theorem orEnd_ok {α : Type} (value : α) : orEnd (m := m) (.ok (.ok value)) = pure value := by
  rw [orEnd, orFault_ok, pure_bind]

@[simp]
theorem orEnd_error {α : Type} (fault : Fault) :
    orEnd (m := m) (.error fault : Checked (Answer α)) = throw (.faulted fault) := by
  simp [orEnd]

def settingsOf (files : Files m) (options : Options) : Run m Settings := do
  let text ← settingsText files options.settingsFile
  orEnd do return (← Settings.load text options).mapError fun message => [message]

theorem settingsOf_of_load (files : Files m) (unread : options.settingsFile = none)
    (loads : Settings.load "" options = .ok (.ok settings)) :
    settingsOf files options = pure settings := by
  have nothing : settingsText files options.settingsFile = pure "" := by
    rw [unread]
    rfl
  rw [settingsOf, nothing, pure_bind, loads]
  exact orEnd_ok settings

/-- With its settings known, a synthetic run goes on with its addresses. -/
theorem report_of_settingsOf (source : Source) (parsed : Options.parse arguments = .ok options)
    (loaded : settingsOf files options = pure settings) (asked : options.synthetic = some length) :
    Simulation.report files arguments source = (do
      let addresses ← orFault (synthetic options settings.cache length source)
      let (report, stats) ← orEnd (simulate options settings addresses)
      return (settings.run.summary, { report, stats })) := by
  have split : Simulation.report files arguments source = (do
      let settings ← settingsOf files options
      let addresses ← Simulation.addresses files options settings source
      let (report, stats) ← orEnd (simulate options settings addresses)
      return (settings.run.summary, { report, stats })) := by
    rw [Simulation.report, parsed, settingsOf, bind_assoc]
  rw [split, loaded, pure_bind, Simulation.addresses, asked]
  rfl

theorem Completed.report_eq
    (completed : Completed options settings length source addresses report stats)
    (parsed : Options.parse arguments = .ok options)
    (loaded : settingsOf files options = pure settings) (asked : options.synthetic = some length) :
    Simulation.report files arguments source = pure (settings.run.summary, { report, stats }) := by
  rw [report_of_settingsOf source parsed loaded asked, completed.drawn, orFault_ok, pure_bind,
    completed.replayed, orEnd_ok, pure_bind]

theorem run_of_report {summary : Summary}
    (reported : Simulation.report files arguments source = pure (none, summary)) :
    run files arguments source =
      pure { output := summary.report.text ++ "\n", ending := .finished } := by
  rw [run, reported]
  simp

theorem run_of_fault {fault : Fault}
    (ended : Simulation.report files arguments source = throw (.faulted fault)) :
    run files arguments source = pure { output := "", ending := .faulted fault } := by
  rw [run, ended]
  simp [Ending.output]

/-- A synthetic run comes to its report, if there is room for its addresses, for its pool and for
the records of its fast path.  It counts every address, and no more misses than that. -/
theorem report_of_synthetic (source : Source) (parsed : Options.parse arguments = .ok options)
    (loaded : settingsOf files options = pure settings) (asked : options.synthetic = some length)
    (usable : settings.cache.Usable) (defaulted : 4 * settings.cache.size.toNat < 2 ^ 64)
    (listed : 8 * length.toNat < 2 ^ 63)
    (pooled : ∃ pool,
      Pool.ofCapacity (settings.cache.size.toNat / settings.cache.blockSize.toNat) = .ok pool)
    (recorded : 128 * min length.toNat (2 * settings.cache.fastPathSize.toNat + 1) < 2 ^ 63) :
    ∃ addresses report stats,
      Completed options settings length source addresses report stats ∧
      Simulation.report files arguments source = pure (settings.run.summary, { report, stats }) ∧
      (settings.run.summary = none → run files arguments source =
        pure { output := report.text ++ "\n", ending := .finished }) := by
  obtain ⟨_, pooled⟩ := pooled
  obtain ⟨addresses, report, stats, completed⟩ :=
    completed_of_room source usable defaulted listed pooled recorded
  have reported := completed.report_eq parsed loaded asked
  refine ⟨addresses, report, stats, completed, reported, ?_⟩
  intro unwritten
  rw [unwritten] at reported
  rw [run_of_report reported]

theorem usable_default : Config.Usable {} :=
  ⟨by decide +kernel, ⟨16, by decide +kernel, by decide⟩, by decide, by decide⟩

def noFiles : Files Id where
  read _ := .error .notFound
  write _ _ := false

/-- An empty footprint counts as one address. -/
theorem report_of_empty_footprint : ∃ options addresses report stats,
    Options.parse ["--synthetic", "3", "--footprint", "0", "--backed", "--verify"] = .ok options ∧
      Completed options { run := { verify := true } } 3 .chaCha addresses report stats ∧
      Simulation.report noFiles ["--synthetic", "3", "--footprint", "0", "--backed", "--verify"] =
        pure (none, { report, stats }) := by
  have parsed : Options.parse ["--synthetic", "3", "--footprint", "0", "--backed", "--verify"] =
      .ok { synthetic := some 3, footprint := some 0, backed := true, verify := true } := by
    decide +kernel
  have loads : Settings.load ""
      { synthetic := some 3, footprint := some 0, backed := true, verify := true } =
        .ok (.ok { run := { verify := true } }) := by
    decide +kernel
  obtain ⟨addresses, report, stats, completed, reported, _⟩ :=
    report_of_synthetic .chaCha parsed (settingsOf_of_load noFiles rfl loads) rfl usable_default
      (by decide) (by decide) ⟨_, rfl⟩ (by decide)
  exact ⟨_, addresses, report, stats, parsed, completed, reported⟩

theorem throw_bind {α β : Type} (ending : Ending) (next : α → Run m β) :
    (throw ending : Run m α) >>= next = throw ending := by
  apply ExceptT.ext
  simp

/-- A synthetic run ends without a report where there is no room for its addresses, or none for
its pool. -/
theorem run_of_noRoom (source : Source) (parsed : Options.parse arguments = .ok options)
    (loaded : settingsOf files options = pure settings) (asked : options.synthetic = some length)
    (valid : settings.cache.ensureValid = .ok ())
    (defaulted : 4 * settings.cache.size.toNat < 2 ^ 64)
    (crowded : 2 ^ 63 ≤ 8 * length.toNat ∨
      Pool.ofCapacity (settings.cache.size.toNat / settings.cache.blockSize.toNat) =
        .error .noRoom) :
    run files arguments source = pure { output := "", ending := .faulted .noRoom } := by
  apply run_of_fault
  rw [report_of_settingsOf source parsed loaded asked]
  by_cases listed : 8 * length.toNat < 2 ^ 63
  · have unpooled := crowded.resolve_left (Nat.not_le.mpr listed)
    obtain ⟨_, _, accepted⟩ := Config.accepted_of_ensureValid valid
    have isLayout := (Layout.ofConfig_eq_ok_iff accepted).mpr rfl
    obtain ⟨addresses, drawn, _⟩ :=
      synthetic_of_room options source accepted isLayout defaulted listed
    rw [drawn, orFault_ok, pure_bind, simulate, Cache.ofConfig_of_crowd valid unpooled, error_bind,
      orEnd_error, throw_bind]
  · rw [synthetic_of_crowd options source defaulted (Nat.le_of_not_lt listed), orFault_error,
      throw_bind]

/-- A pool of `2 ^ 59` blocks. -/
def vast : Config :=
  { size := 2305843009213693952, blockSize := 4, levels := 7 }

/-- Not every synthetic run comes to its report: a list of addresses may have no room, and so may
a pool. -/
theorem not_completed_of_crowd :
    (∀ (m : Type → Type) [Monad m] [LawfulMonad m] (files : Files m) (source : Source),
      run files ["--synthetic", "18446744073709551615", "--footprint", "1"] source =
        pure { output := "", ending := .faulted .noRoom }) ∧
    (∀ (m : Type → Type) [Monad m] [LawfulMonad m] (files : Files m) (source : Source),
      run files ["--synthetic", "1", "--size", "2305843009213693952", "--block-size", "4",
        "--num-bth", "7"] source = pure { output := "", ending := .faulted .noRoom }) ∧
    ¬ ∀ (options : Options) (settings : Settings) (length : UInt64) (source : Source),
      options.synthetic = some length → settings.cache.Usable →
        4 * settings.cache.size.toNat < 2 ^ 64 → ∃ addresses report stats,
          Completed options settings length source addresses report stats := by
  refine ⟨?_, ?_, ?_⟩
  · intro m _ _ files source
    have parsed : Options.parse ["--synthetic", "18446744073709551615", "--footprint", "1"] =
        .ok { synthetic := some 18446744073709551615, footprint := some 1 } := by
      decide +kernel
    have loads : Settings.load ""
        { synthetic := some 18446744073709551615, footprint := some 1 } = .ok (.ok {}) := by
      decide +kernel
    exact run_of_noRoom source parsed (settingsOf_of_load files rfl loads) rfl usable_default.valid
      (by decide) (.inl (by decide))
  · intro m _ _ files source
    have parsed : Options.parse ["--synthetic", "1", "--size", "2305843009213693952",
        "--block-size", "4", "--num-bth", "7"] =
          .ok { synthetic := some 1, size := some 2305843009213693952, blockSize := some 4,
                levels := some 7 } := by
      decide +kernel
    have loads : Settings.load ""
        { synthetic := some 1, size := some 2305843009213693952, blockSize := some 4,
          levels := some 7 } = .ok (.ok { cache := vast }) := by
      decide +kernel
    have unpooled : Pool.ofCapacity (vast.size.toNat / vast.blockSize.toNat) = .error .noRoom := by
      rw [Pool.ofCapacity, allocate_of_crowd (by decide)]
      rfl
    exact run_of_noRoom source parsed (settingsOf_of_load files rfl loads) rfl (by decide +kernel)
      (by decide) (.inr unpooled)
  · intro all
    obtain ⟨addresses, _, _, completed⟩ :=
      all { synthetic := some 18446744073709551615, footprint := some 1 } {} 18446744073709551615
        .chaCha rfl usable_default (by decide)
    cases completed.drawn.symm.trans (synthetic_of_crowd _ _ (by decide) (by decide))

end Reports

end Simulation

end TrieCache
