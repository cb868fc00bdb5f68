import Mathlib.Data.List.Nodup
import TrieCache.Proofs.Fifo
import TrieCache.Proofs.Geometry

/-!
# The records of a fast path

An insertion of a new tag leaves a record, and an entry that is removed leaves its record
behind.  Stale records do not pile up: each new record is followed by a compaction, and of
the records that a compaction keeps there are as many as there are entries.

Two numbers of this bookkeeping are 64-bit words.  The sequence number counts insertions
and does not overflow while there are fewer than `2 ^ 64` of them.  The threshold of the
compaction is twice the capacity, although the capacity may be any word itself: a table of
`2 ^ 63` entries or more takes no entry at all.
-/

namespace TrieCache

namespace FastPath

/-- A command that may put a new tag into the table. -/
def Command.isInsertion : Command → Bool
  | .insert _ _ => true
  | _ => false

/-- The state of a table between two commands. -/
structure Trimmed (table : FastPath) : Prop where
  recorded : table.Recorded
  queued : table.Queued
  length_le : table.order.length ≤ 2 * table.capacity

theorem trimmed_of_ofCapacity {capacity : Nat} {table : FastPath}
    (made : ofCapacity capacity = .ok table) :
    table.Trimmed ∧ table.capacity = capacity ∧ table.nextSequence = 0 := by
  obtain ⟨recorded, capacity_eq, nextSequence_eq, _⟩ := recorded_of_ofCapacity made
  refine ⟨⟨recorded, (queued_of_ofCapacity made).1, ?_⟩, capacity_eq, nextSequence_eq⟩
  unfold ofCapacity at made
  split at made
  · cases made
    exact Nat.zero_le _
  · cases made

/-! ## Compaction -/

theorem isSome_survivor (table : FastPath) (record : Record) :
    (table.survivor record).isSome = table.isLive record := by
  rw [survivor, Option.isSome_map, Option.isSome_filter, isLive]

theorem Queued.length_live {table : FastPath} (queued : table.Queued) :
    (table.order.toList.filter table.isLive).length = table.size := by
  rw [queued.size_eq, survivors, List.length_filterMap_eq_countP, List.countP_eq_length_filter]
  simp only [isSome_survivor]

/-- No more records are kept than insertions were made. -/
theorem Queued.length_le {table : FastPath} (queued : table.Queued) :
    table.order.length ≤ table.nextSequence := by
  have distinct : (table.order.toList.map Record.sequence).Nodup :=
    List.pairwise_map.mpr (queued.increasing.imp fun less => Nat.ne_of_lt less)
  have within : table.order.toList.map Record.sequence ⊆ List.range table.nextSequence := by
    intro sequence member
    obtain ⟨record, isRecord, rfl⟩ := List.mem_map.mp member
    exact List.mem_range.mpr (queued.past isRecord)
  have counted := (distinct.subperm within).length_le
  rwa [List.length_map, Records.length_toList, List.length_range] at counted

theorem length_le_of_compact {table : FastPath} (queued : table.Queued)
    (within : table.size ≤ table.capacity) :
    Ends table.compact (fun after => after.order.length ≤ 2 * after.capacity)
      (fun _ => True) := by
  refine table.compact_cases.mono ?_ fun _ _ => trivial
  rintro after (⟨few, rfl⟩ | rfl)
  · exact few
  · rw [← Records.length_toList, Records.toList_filter, queued.length_live]
    change table.size ≤ 2 * table.capacity
    omega

namespace Trimmed

variable {table : FastPath} (trimmed : table.Trimmed)
include trimmed

theorem length_le_of_insert {after : FastPath} {tag target : Nat} {evicted : Option Nat}
    (inserted : table.insert tag target = .ok (evicted, after)) :
    after.order.length ≤ 2 * after.capacity := by
  unfold FastPath.insert at inserted
  cases found : table.entries[tag]? with
  | some shortcut =>
    simp only [found] at inserted
    cases inserted
    exact trimmed.length_le
  | none =>
    simp only [found] at inserted
    obtain ⟨grown, appended, inserted⟩ := bind_eq_ok_iff.mp inserted
    have spec := append_spec found appended
    cases room : if grown.capacity < grown.size then grown.evictOldest else (none, grown) with
    | mk evicted settled =>
      rw [room] at inserted
      obtain ⟨compacted, ran, same⟩ := bind_eq_ok_iff.mp inserted
      cases same
      obtain ⟨recorded, _⟩ := makeRoom_spec trimmed.recorded found spec room
      obtain ⟨queued, _⟩ := (trimmed.queued.append found spec).1.makeRoom room
      exact (length_le_of_compact queued recorded.size_le).of_eq_ok ran

theorem insert (tag target : Nat) :
    Ends (table.insert tag target)
      (fun (_, after) => after.Trimmed ∧ after.capacity = table.capacity ∧
        after.nextSequence ≤ table.nextSequence + 1)
      (fun fault => (fault = .addOverflow ∧ 2 ^ 64 ≤ table.nextSequence + 1) ∨
        (fault = .multiplyOverflow ∧ 2 ^ 63 ≤ table.capacity)) := by
  refine (insert_outcome trimmed.recorded tag target).attach.mono ?_ fun _ failed => failed
  rintro ⟨evicted, after⟩ ⟨inserted, recorded, capacity_eq, nextSequence_le, _⟩
  obtain ⟨queued, _⟩ := (trimmed.queued.insert tag target).of_eq_ok inserted
  have length_le := trimmed.length_le_of_insert inserted
  exact ⟨⟨recorded, queued, length_le⟩, capacity_eq, nextSequence_le⟩

theorem remove (tag : Nat) :
    (table.remove tag).2.Trimmed ∧ (table.remove tag).2.capacity = table.capacity ∧
      (table.remove tag).2.nextSequence = table.nextSequence := by
  obtain ⟨recorded, capacity_eq, nextSequence_eq, _⟩ := remove_spec trimmed.recorded tag
  refine ⟨⟨recorded, (trimmed.queued.remove tag).1, ?_⟩, capacity_eq, nextSequence_eq⟩
  have order_eq : (table.remove tag).2.order = table.order := by
    unfold FastPath.remove
    split <;> rfl
  rw [order_eq, capacity_eq]
  exact trimmed.length_le

/-! ## Runs -/

/-- A command keeps the records in order.  Only an insertion can fail, when the sequence
numbers are used up or when the threshold of the compaction is no word. -/
theorem run (command : Command) :
    Ends (table.run command)
      (fun (_, after) => after.Trimmed ∧ after.capacity = table.capacity ∧
        after.nextSequence ≤ table.nextSequence + [command].countP Command.isInsertion)
      (fun fault => command.isInsertion = true ∧
        ((fault = .addOverflow ∧ 2 ^ 64 ≤ table.nextSequence + 1) ∨
          (fault = .multiplyOverflow ∧ 2 ^ 63 ≤ table.capacity))) := by
  cases command with
  | insert tag target =>
    refine (trimmed.insert tag target).andThen (fun fault failed => ⟨rfl, failed⟩) ?_
    exact fun _ kept => kept
  | remove tag =>
    obtain ⟨trimmed', capacity_eq, nextSequence_eq⟩ := trimmed.remove tag
    exact ⟨trimmed', capacity_eq, Nat.le_of_eq nextSequence_eq⟩
  | lookup tag => exact ⟨trimmed, rfl, Nat.le_refl _⟩
  | contains tag => exact ⟨trimmed, rfl, Nat.le_refl _⟩

theorem runAll (commands : List Command) :
    Ends (table.runAll commands)
      (fun (_, after) => after.Trimmed ∧ after.capacity = table.capacity)
      (fun fault => (∃ command ∈ commands, command.isInsertion = true) ∧
        ((fault = .addOverflow ∧
            2 ^ 64 ≤ table.nextSequence + commands.countP Command.isInsertion) ∨
          (fault = .multiplyOverflow ∧ 2 ^ 63 ≤ table.capacity))) := by
  induction commands generalizing table with
  | nil => exact ⟨trimmed, rfl⟩
  | cons command rest ih =>
    have counted : (command :: rest).countP Command.isInsertion =
        [command].countP Command.isInsertion + rest.countP Command.isInsertion := by
      rw [← List.countP_append, List.singleton_append]
    rw [FastPath.runAll, counted]
    refine (trimmed.run command).andThen ?_ ?_
    · rintro fault ⟨isInsertion, failed⟩
      refine ⟨⟨command, List.mem_cons_self, isInsertion⟩, failed.imp_left ?_⟩
      rintro ⟨isAdd, full⟩
      have one : [command].countP Command.isInsertion = 1 := by simp [isInsertion]
      exact ⟨isAdd, by omega⟩
    · rintro ⟨reply, middle⟩ ⟨trimmed', capacity_eq, nextSequence_le⟩
      refine (ih trimmed').andThen ?_ ?_
      · rintro fault ⟨⟨other, isOther, isInsertion⟩, failed⟩
        refine ⟨⟨other, List.mem_cons_of_mem _ isOther, isInsertion⟩, failed.imp ?_ ?_⟩
        · rintro ⟨isAdd, full⟩
          exact ⟨isAdd, by omega⟩
        · rintro ⟨isMultiply, large⟩
          exact ⟨isMultiply, capacity_eq ▸ large⟩
      · rintro ⟨replies, after⟩ ⟨trimmedAfter, same⟩
        exact ⟨trimmedAfter, same.trans capacity_eq⟩

end Trimmed

/-- The records are those of the entries and not many others, in the order of insertion. -/
structure Orderly (table : FastPath) : Prop where
  one_record {tag : Nat} {shortcut : Shortcut} : table.entries[tag]? = some shortcut →
    table.order.toList.count { tag, sequence := shortcut.sequence } = 1
  increasing : table.order.toList.Pairwise fun earlier later => earlier.sequence < later.sequence
  length_le : table.order.length ≤ 2 * table.capacity
  /-- When a new entry is one too many, a live record is found and its entry goes. -/
  makes_room {tag target : Nat} {grown : FastPath} : table.entries[tag]? = none →
    table.append tag target = .ok grown → grown.capacity < grown.size →
      ∃ oldest ∈ grown.order.toList, grown.isLive oldest = true ∧
        grown.evictOldest.1 = some oldest.tag

theorem Trimmed.orderly {table : FastPath} (trimmed : table.Trimmed) : table.Orderly where
  one_record := by
    intro tag shortcut found
    have distinct : table.order.toList.Nodup :=
      trimmed.queued.increasing.imp fun less same => Nat.ne_of_lt less (congrArg _ same)
    exact List.count_eq_one_of_mem distinct (trimmed.queued.record found)
  increasing := trimmed.queued.increasing
  length_le := trimmed.length_le
  makes_room := by
    intro tag target grown absent appended full
    have spec := append_spec absent appended
    obtain ⟨record, isRecord, live⟩ := spec.exists_older trimmed.recorded absent full
    obtain ⟨oldest, isOlder, oldestLive, order, popped, _⟩ :=
      evictOldest_spec (spec.record trimmed.recorded) spec.queue isRecord live
    refine ⟨oldest, ?_, oldestLive, congrArg Prod.fst popped⟩
    rw [spec.queue, List.mem_append]
    exact .inl isOlder

/-- After every run of fewer than `2 ^ 64` insertions, with removals among them, each entry has
one record, the records are in the order of insertion, and there are at most twice as many as
the table may have entries.  A table that is full finds a record of an entry to drop. -/
theorem orderly_of_runAll {capacity : Nat} {commands : List Command} (positive : 0 < capacity)
    (small : capacity < 2 ^ 63) (few : commands.countP Command.isInsertion < 2 ^ 64) :
    ∃ table replies after, ofCapacity capacity = .ok table ∧
      table.runAll commands = .ok (replies, after) ∧ after.capacity = capacity ∧
        after.Orderly := by
  have made : ofCapacity capacity = .ok { capacity } := by rw [ofCapacity, if_pos positive]
  obtain ⟨trimmed, _, nextSequence_eq⟩ := trimmed_of_ofCapacity made
  obtain ⟨⟨replies, after⟩, ran, trimmed', capacity_eq⟩ :=
    (trimmed.runAll commands).exists_ok (by
      rintro fault ⟨_, ⟨_, full⟩ | ⟨_, large⟩⟩
      · rw [nextSequence_eq] at full
        omega
      · exact absurd large (Nat.not_le.mpr small))
  exact ⟨_, replies, after, made, ran, capacity_eq, trimmed'.orderly⟩

/-- A tag that comes and goes, until its fifth record is one too many, and then a tag that is
one entry too many. -/
def returning : List Command :=
  [.insert 1 5, .remove 1, .insert 1 6, .remove 1, .insert 1 7, .remove 1, .insert 2 8,
    .insert 1 9, .insert 3 10]

theorem orderly_of_returning : ∃ table replies after, ofCapacity 2 = .ok table ∧
    table.runAll returning = .ok (replies, after) ∧ after.capacity = 2 ∧
      after.order.toList = [⟨1, 4⟩, ⟨3, 5⟩] ∧ after.Orderly := by
  have few : returning.countP Command.isInsertion < 2 ^ 64 := by decide
  obtain ⟨table, replies, after, made, ran, capacity_eq, orderly⟩ :=
    @orderly_of_runAll 2 returning (by decide) (by decide) few
  have records : (ofCapacity 2 >>= fun table => table.runAll returning).map
      (fun result => result.2.order.toList) = .ok [⟨1, 4⟩, ⟨3, 5⟩] := by
    decide +kernel
  rw [made, ok_bind, ran] at records
  exact ⟨table, replies, after, made, ran, capacity_eq, Except.ok.inj records, orderly⟩

/-! ## Capacities -/

theorem compact_of_large {table : FastPath} (large : 2 ^ 63 ≤ table.capacity) :
    table.compact = .error .multiplyOverflow := by
  have wide : ¬ 2 * table.capacity < 2 ^ 64 := by omega
  rw [compact, Word.mul, if_neg wide, error_bind]

theorem insert_of_large {table : FastPath} (recorded : table.Recorded)
    (large : 2 ^ 63 ≤ table.capacity) (room : table.nextSequence + 1 < 2 ^ 64) {tag : Nat}
    (absent : table.entries[tag]? = none) (target : Nat) :
    table.insert tag target = .error .multiplyOverflow := by
  have next : Word.add 64 table.nextSequence 1 = .ok (table.nextSequence + 1) :=
    Word.add_eq_ok_iff.mpr ⟨room, rfl⟩
  unfold insert
  simp only [absent]
  cases appended : table.append tag target with
  | error fault =>
    rw [append, next] at appended
    cases appended
  | ok grown =>
    rw [ok_bind]
    cases settles : if grown.capacity < grown.size then grown.evictOldest else (none, grown) with
    | mk evicted settled =>
      have spec := append_spec absent appended
      obtain ⟨_, capacity_eq, _⟩ := makeRoom_spec recorded absent spec settles
      dsimp only
      rw [compact_of_large (capacity_eq ▸ large), error_bind]

theorem run_of_vacant {table : FastPath} (vacant : ∀ tag : Nat, table.entries[tag]? = none)
    {command : Command} (other : command.isInsertion = false) :
    ∃ reply, table.run command = .ok (reply, table) := by
  cases command with
  | insert tag target => cases other
  | remove tag => exact ⟨.removed none, by simp [run, remove, vacant]⟩
  | lookup tag => exact ⟨_, rfl⟩
  | contains tag => exact ⟨_, rfl⟩

theorem runAll_of_large {table : FastPath} (recorded : table.Recorded)
    (vacant : ∀ tag : Nat, table.entries[tag]? = none) (large : 2 ^ 63 ≤ table.capacity)
    (room : table.nextSequence + 1 < 2 ^ 64) {commands : List Command}
    (inserts : ∃ command ∈ commands, command.isInsertion = true) :
    table.runAll commands = .error .multiplyOverflow := by
  obtain ⟨command, isCommand, isInsertion⟩ := inserts
  induction commands with
  | nil => cases isCommand
  | cons first rest ih =>
    cases here : first.isInsertion with
    | true =>
      cases first with
      | insert tag target =>
        rw [runAll, run, insert_of_large recorded large room (vacant tag), error_bind, error_bind]
      | remove tag => cases here
      | lookup tag => cases here
      | contains tag => cases here
    | false =>
      obtain ⟨reply, ran⟩ := run_of_vacant vacant here
      have isLater : command ∈ rest := by
        rcases List.mem_cons.mp isCommand with rfl | isLater
        · rw [here] at isInsertion
          cases isInsertion
        · exact isLater
      rw [runAll, ran, ok_bind]
      dsimp only
      rw [ih isLater, error_bind]

end FastPath

namespace Config

/-- The size of the fast path is in no other check of a configuration. -/
theorem ensureValid_withFastPath {config : Config} (valid : config.ensureValid = .ok ())
    {fastPathSize : UInt64} (positive : 0 < fastPathSize.toNat) :
    ({ config with fastPathSize } : Config).ensureValid = .ok () := by
  simp only [ensureValid, bind_eq_ok_iff, require_eq_ok_iff, exists_const] at valid ⊢
  obtain ⟨blockSize, levels, capacity, capacity_eq, levels_lt, attempts, _, others⟩ := valid
  exact ⟨blockSize, levels, capacity, capacity_eq, levels_lt, attempts, decide_eq_true positive,
    others⟩

/-- Accepted configurations and tables themselves admit the same sizes of a fast path. -/
theorem exists_fastPathSize_iff {capacity : Nat} (word : capacity < 2 ^ 64) :
    (∃ config : Config, config.ensureValid = .ok () ∧ config.fastPathSize.toNat = capacity) ↔
      ∃ table, FastPath.ofCapacity capacity = .ok table := by
  constructor
  · rintro ⟨config, valid, rfl⟩
    obtain ⟨_, _, accepted⟩ := accepted_of_ensureValid valid
    exact ⟨_, if_pos accepted.fastPathSize_pos⟩
  · rintro ⟨table, made⟩
    have size_eq : (UInt64.ofNat capacity).toNat = capacity := UInt64.toNat_ofNat_of_lt' word
    have positive : 0 < capacity := by
      obtain ⟨trimmed, capacity_eq, _⟩ := FastPath.trimmed_of_ofCapacity made
      exact capacity_eq ▸ trimmed.recorded.capacity_pos
    have valid : ({} : Config).ensureValid = .ok () := by decide +kernel
    exact ⟨{ fastPathSize := UInt64.ofNat capacity },
      ensureValid_withFastPath valid (size_eq.symm ▸ positive), size_eq⟩

end Config

namespace FastPath

/-- A table takes the capacities that accepted configurations have for their fast paths.
Fewer than `2 ^ 64` commands are carried out on it exactly when the capacity is below `2 ^ 63`
or none of them is an insertion.  The sequence numbers never run out: what fails is the
threshold of the compaction. -/
theorem runAll_of_word {capacity : Nat} {commands : List Command} (word : capacity < 2 ^ 64)
    (short : commands.length < 2 ^ 64) :
    ((∃ config : Config, config.ensureValid = .ok () ∧ config.fastPathSize.toNat = capacity) ↔
        ∃ table, ofCapacity capacity = .ok table) ∧
      ∀ table, ofCapacity capacity = .ok table →
        ((∃ replies after, table.runAll commands = .ok (replies, after)) ↔
            capacity < 2 ^ 63 ∨ ∀ command ∈ commands, command.isInsertion = false) ∧
          ∀ fault, table.runAll commands = .error fault → fault = .multiplyOverflow := by
  refine ⟨Config.exists_fastPathSize_iff word, fun table made => ?_⟩
  obtain ⟨trimmed, capacity_eq, nextSequence_eq⟩ := trimmed_of_ofCapacity made
  have outcome := trimmed.runAll commands
  have counted : commands.countP Command.isInsertion ≤ commands.length := List.countP_le_length
  refine ⟨⟨?_, ?_⟩, ?_⟩
  · rintro ⟨replies, after, ran⟩
    by_contra fails
    obtain ⟨large, someInsertion⟩ := not_or.mp fails
    have vacant (tag : Nat) : table.entries[tag]? = none := by
      have missing := (recorded_of_ofCapacity made).2.2.2 tag
      simpa [lookup] using missing
    have inserts : ∃ command ∈ commands, command.isInsertion = true := by
      simpa using someInsertion
    have overflows := runAll_of_large trimmed.recorded vacant (by omega) (by omega) inserts
    rw [overflows] at ran
    cases ran
  · intro safe
    obtain ⟨⟨replies, after⟩, ran, _⟩ := outcome.exists_ok (by
      rintro fault ⟨⟨command, isCommand, isInsertion⟩, ⟨_, full⟩ | ⟨_, large⟩⟩
      · omega
      · rcases safe with small | none
        · omega
        · rw [none command isCommand] at isInsertion
          cases isInsertion)
    exact ⟨replies, after, ran⟩
  · intro fault failed
    rw [failed] at outcome
    rcases outcome.2 with ⟨_, full⟩ | ⟨isMultiply, _⟩
    · omega
    · exact isMultiply

/-- The largest capacity of which twice as much is still a word. -/
theorem runAll_of_widest : 2 ^ 63 - 1 < 2 ^ 64 ∧
    ([.insert 1 2, .remove 1, .insert 1 3, .lookup 1] : List Command).length < 2 ^ 64 ∧
    (∃ config : Config, config.ensureValid = .ok () ∧ config.fastPathSize.toNat = 2 ^ 63 - 1) ∧
    ∃ table replies after, ofCapacity (2 ^ 63 - 1) = .ok table ∧
      table.runAll [.insert 1 2, .remove 1, .insert 1 3, .lookup 1] = .ok (replies, after) := by
  have word : 2 ^ 63 - 1 < 2 ^ 64 := by decide
  have short : List.length
      ([.insert 1 2, .remove 1, .insert 1 3, .lookup 1] : List Command) < 2 ^ 64 := by
    decide
  obtain ⟨admitted, runs⟩ := runAll_of_word word short
  have made : ofCapacity (2 ^ 63 - 1) = .ok { capacity := 2 ^ 63 - 1 } := if_pos (by decide)
  obtain ⟨replies, after, ran⟩ := (runs _ made).1.mpr (.inl (by decide))
  exact ⟨word, short, admitted.mpr ⟨_, made⟩, _, replies, after, made, ran⟩

/-- A table of `2 ^ 63` entries can be made, also of an accepted configuration, and its first
insertion fails. -/
theorem not_runAll_of_halfWord :
    ({ fastPathSize := 9223372036854775808 } : Config).ensureValid = .ok () ∧
      (∃ table, ofCapacity (2 ^ 63) = .ok table ∧
        table.runAll [.insert 1 2] = .error .multiplyOverflow) ∧
      ¬ ∀ (capacity : Nat) (table : FastPath) (commands : List Command), capacity < 2 ^ 64 →
        ofCapacity capacity = .ok table → commands.length < 2 ^ 64 →
          ∃ replies after, table.runAll commands = .ok (replies, after) := by
  have valid : ({ fastPathSize := 9223372036854775808 } : Config).ensureValid = .ok () := by
    decide +kernel
  have made : ofCapacity (2 ^ 63) = .ok { capacity := 2 ^ 63 } := if_pos (by decide)
  have failed : runAll { capacity := 2 ^ 63 } [.insert 1 2] = .error .multiplyOverflow := by
    obtain ⟨trimmed, _⟩ := trimmed_of_ofCapacity made
    refine runAll_of_large trimmed.recorded (fun tag => ?_) (Nat.le_refl _) (by decide) ?_
    · simp
    · exact ⟨_, List.mem_cons_self, rfl⟩
  refine ⟨valid, ⟨_, made, failed⟩, fun all => ?_⟩
  obtain ⟨replies, after, ran⟩ := all _ _ [.insert 1 2] (by decide) made (by decide)
  rw [failed] at ran
  cases ran

end FastPath

end TrieCache
