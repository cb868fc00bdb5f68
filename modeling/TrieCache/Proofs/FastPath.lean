import Mathlib.Algebra.Group.Nat.Defs
import Mathlib.Data.List.Perm.Subperm
import Mathlib.Data.Nat.Init
import TrieCache.FastPath
import TrieCache.Proofs.Outcome

/-!
# The fast path as a bounded map

A table is recorded when the queue of insertions holds a record of every entry.  The
oldest live record is then always there to make room, so the table stays within its
capacity and an insertion never loses the entry it adds.
-/

namespace TrieCache

namespace Records

/-- Taking records off the queue stops at the first that satisfies the condition. -/
theorem popUntil_of_toList_eq {records : Records} {stop : Record → Bool} {dropped rest : List Record}
    {record : Record} (queue : records.toList = dropped ++ record :: rest)
    (passed : ∀ other ∈ dropped, stop other = false) (stops : stop record = true) :
    (records.popUntil stop).1 = some record ∧ (records.popUntil stop).2.toList = rest := by
  have whole : records.toList.dropWhile (fun other => !stop other) = record :: rest := by
    rw [queue, List.dropWhile_append_of_pos (fun other isDropped => by simp [passed other isDropped])]
    simp [stops]
  rw [toList, List.dropWhile_append] at whole
  rw [popUntil]
  cases front : records.front.dropWhile fun other => !stop other with
  | cons first others =>
    simp only [front, List.isEmpty_cons, Bool.false_eq_true, if_false, List.cons_append,
      List.cons.injEq] at whole
    exact ⟨congrArg some whole.1, whole.2⟩
  | nil =>
    simp only [front, List.isEmpty_nil, if_true] at whole
    rw [whole]
    exact ⟨rfl, toList_ofList rest⟩

end Records

namespace FastPath

/-- Every entry has the record of its insertion, and the entries fit the table. -/
structure Recorded (table : FastPath) : Prop where
  capacity_pos : 0 < table.capacity
  size_le : table.size ≤ table.capacity
  record {tag : Nat} {shortcut : Shortcut} : table.entries[tag]? = some shortcut →
    { tag, sequence := shortcut.sequence } ∈ table.order.toList
  past {record : Record} : record ∈ table.order.toList → record.sequence < table.nextSequence

theorem lookup_eq_some_iff {table : FastPath} {tag target : Nat} :
    table.lookup tag = some target ↔
      ∃ shortcut, table.entries[tag]? = some shortcut ∧ shortcut.target = target := by
  simp [lookup]

theorem mem_toList_iff {table : FastPath} {tag index : Nat} :
    (tag, index) ∈ table.toList ↔ table.lookup tag = some index := by
  rw [toList, List.mem_map, lookup_eq_some_iff]
  constructor
  · rintro ⟨⟨_, shortcut⟩, isEntry, same⟩
    cases same
    exact ⟨shortcut, Std.TreeMap.mem_toList_iff_getElem?_eq_some.mp isEntry, rfl⟩
  · rintro ⟨shortcut, found, rfl⟩
    exact ⟨(tag, shortcut), Std.TreeMap.mem_toList_iff_getElem?_eq_some.mpr found, rfl⟩

theorem contains_eq_isSome_lookup (table : FastPath) (tag : Nat) :
    table.contains tag = (table.lookup tag).isSome := by
  rw [contains, lookup, Option.isSome_map, Std.TreeMap.contains_eq_isSome_getElem?]

theorem isLive_iff {table : FastPath} {record : Record} :
    table.isLive record = true ↔
      ∃ shortcut, table.entries[record.tag]? = some shortcut ∧
        shortcut.sequence = record.sequence := by
  cases found : table.entries[record.tag]? with
  | none => simp [isLive, found]
  | some shortcut => simp [isLive, found]

theorem recorded_of_ofCapacity {capacity : Nat} {table : FastPath}
    (made : ofCapacity capacity = .ok table) :
    table.Recorded ∧ table.capacity = capacity ∧ table.nextSequence = 0 ∧
      ∀ tag, table.lookup tag = none := by
  unfold ofCapacity at made
  split at made
  next positive =>
    cases made
    refine ⟨⟨positive, ?_, ?_, ?_⟩, rfl, rfl, fun tag => ?_⟩
    · simp [size]
    · intro tag shortcut found
      simp at found
    · intro record isRecord
      simp [Records.empty] at isRecord
    · simp [lookup]
  next => cases made

theorem remove_spec {table : FastPath} (recorded : table.Recorded) (tag : Nat) :
    (table.remove tag).2.Recorded ∧ (table.remove tag).2.capacity = table.capacity ∧
      (table.remove tag).2.nextSequence = table.nextSequence ∧
      ∀ other, (table.remove tag).2.lookup other = if other = tag then none else table.lookup other := by
  unfold remove
  cases found : table.entries[tag]? with
  | none =>
    refine ⟨recorded, rfl, rfl, fun other => ?_⟩
    by_cases same : other = tag
    · simp [same, lookup, found]
    · simp [same]
  | some shortcut =>
    refine ⟨⟨recorded.capacity_pos, ?_, ?_, recorded.past⟩, rfl, rfl, fun other => ?_⟩
    · exact Nat.le_trans Std.TreeMap.size_erase_le recorded.size_le
    · intro other shortcut' found'
      rw [Std.TreeMap.getElem?_erase] at found'
      split at found'
      · cases found'
      · exact recorded.record found'
    · by_cases same : other = tag
      · simp [same, lookup]
      · have distinct : ¬ tag = other := fun equal => same equal.symm
        simp [same, lookup, Std.TreeMap.getElem?_erase, distinct]

/-- The oldest live record is found, and with it the entry that goes. -/
theorem evictOldest_spec {table : FastPath}
    (complete : ∀ {tag : Nat} {shortcut : Shortcut}, table.entries[tag]? = some shortcut →
      { tag, sequence := shortcut.sequence } ∈ table.order.toList)
    {older newer : List Record} (queue : table.order.toList = older ++ newer)
    {record : Record} (isOlder : record ∈ older) (live : table.isLive record = true) :
    ∃ oldest ∈ older, table.isLive oldest = true ∧ ∃ order,
      table.evictOldest = (some oldest.tag,
        { table with order, entries := table.entries.erase oldest.tag }) ∧
      (∀ {tag : Nat} {shortcut : Shortcut}, tag ≠ oldest.tag → table.entries[tag]? = some shortcut →
        { tag, sequence := shortcut.sequence } ∈ order.toList) ∧
      ∀ other ∈ order.toList, other ∈ table.order.toList := by
  obtain ⟨oldest, found⟩ : ∃ oldest, older.find? table.isLive = some oldest :=
    Option.isSome_iff_exists.mp (List.find?_isSome.mpr ⟨record, isOlder, live⟩)
  obtain ⟨oldestLive, dropped, rest, older_eq, passed⟩ := List.find?_eq_some_iff_append.mp found
  have split : table.order.toList = dropped ++ oldest :: (rest ++ newer) := by
    rw [queue, older_eq, List.append_assoc, List.cons_append]
  obtain ⟨popped, remaining⟩ := Records.popUntil_of_toList_eq split
    (fun other isDropped => by simpa using passed other isDropped) oldestLive
  refine ⟨oldest, by simp [older_eq], oldestLive, (table.order.popUntil table.isLive).2, ?_, ?_, ?_⟩
  · rw [evictOldest]
    split
    next record' order' pair =>
      rw [pair] at popped
      cases popped
      rw [pair]
    next order' pair =>
      rw [pair] at popped
      cases popped
  · intro tag shortcut distinct entry
    have isRecord := complete entry
    rw [split, List.mem_append, List.mem_cons] at isRecord
    rw [remaining]
    rcases isRecord with isDropped | isOldest | isLater
    · have stale := passed _ isDropped
      have alive : table.isLive { tag, sequence := shortcut.sequence } = true :=
        isLive_iff.mpr ⟨shortcut, entry, rfl⟩
      simp [alive] at stale
    · exact absurd (congrArg Record.tag isOldest) distinct
    · exact isLater
  · intro other isOther
    rw [remaining] at isOther
    rw [split]
    simp only [List.mem_append, List.mem_cons] at isOther ⊢
    exact .inr (.inr isOther)

/-- A queue of records that holds those of the entries of a table. -/
theorem Recorded.of_order {table : FastPath} (recorded : table.Recorded) {order : Records}
    (kept : ∀ record ∈ order.toList, record ∈ table.order.toList)
    (live : ∀ record ∈ table.order.toList, table.isLive record = true → record ∈ order.toList) :
    Recorded { table with order } where
  capacity_pos := recorded.capacity_pos
  size_le := recorded.size_le
  record := fun found => live _ (recorded.record found) (isLive_iff.mpr ⟨_, found, rfl⟩)
  past := fun isRecord => recorded.past (kept _ isRecord)

/-- Compaction keeps every record or just the live ones, and in either case no more than
twice the capacity asks for. -/
theorem compact_cases (table : FastPath) :
    Ends table.compact
      (fun after => (table.order.length ≤ 2 * table.capacity ∧ after = table) ∨
        after = { table with order := table.order.filter table.isLive })
      (fun fault => fault = .multiplyOverflow ∧ 2 ^ 63 ≤ table.capacity) := by
  unfold compact Word.mul
  split
  next fits =>
    rw [ok_bind]
    split
    next => exact .inr rfl
    next few => exact .inl ⟨Nat.le_of_not_lt few, rfl⟩
  next overflows => exact ⟨rfl, by omega⟩

theorem compact_outcome (table : FastPath) :
    Ends table.compact
      (fun after => ∃ order, after = { table with order } ∧
        (∀ record ∈ order.toList, record ∈ table.order.toList) ∧
        ∀ record ∈ table.order.toList, table.isLive record = true → record ∈ order.toList)
      (fun fault => fault = .multiplyOverflow ∧ 2 ^ 63 ≤ table.capacity) := by
  refine table.compact_cases.mono ?_ fun _ failed => failed
  rintro after (⟨_, rfl⟩ | rfl)
  · exact ⟨after.order, rfl, fun _ isRecord => isRecord, fun _ isRecord _ => isRecord⟩
  · exact ⟨_, rfl, fun record kept => by simp at kept; exact kept.1,
      fun record isRecord live => by simp [isRecord, live]⟩

/-- What the table holds before room is made for its new entry. -/
structure Appended (table : FastPath) (tag target : Nat) (after : FastPath) : Prop where
  capacity : after.capacity = table.capacity
  nextSequence : after.nextSequence = table.nextSequence + 1
  size : after.size = table.size + 1
  entries (other : Nat) : after.entries[other]? =
    if tag = other then some { target, sequence := table.nextSequence } else table.entries[other]?
  queue : after.order.toList = table.order.toList ++ [{ tag, sequence := table.nextSequence }]

theorem append_spec {table after : FastPath} {tag target : Nat}
    (absent : table.entries[tag]? = none) (appended : table.append tag target = .ok after) :
    table.Appended tag target after := by
  simp only [append, bind_eq_ok_iff, Word.add_eq_ok_iff, pure_eq_ok, Except.ok.injEq] at appended
  obtain ⟨next, ⟨_, rfl⟩, rfl⟩ := appended
  have missing : table.entries.contains tag = false := by
    rw [Std.TreeMap.contains_eq_isSome_getElem?, absent]
    rfl
  refine ⟨rfl, rfl, ?_, fun other => ?_, Records.toList_push _ _⟩
  · simp [size, Std.TreeMap.size_insert, missing]
  · simp [Std.TreeMap.getElem?_insert]

namespace Appended

variable {table after : FastPath} {tag target : Nat} (appended : table.Appended tag target after)
  (recorded : table.Recorded)
include appended recorded

theorem record {other : Nat} {shortcut : Shortcut} (found : after.entries[other]? = some shortcut) :
    { tag := other, sequence := shortcut.sequence } ∈ after.order.toList := by
  rw [appended.entries] at found
  rw [appended.queue, List.mem_append]
  split at found
  next same =>
    cases found
    exact .inr (by simp [same])
  next => exact .inl (recorded.record found)

theorem past {record : Record} (isRecord : record ∈ after.order.toList) :
    record.sequence < after.nextSequence := by
  rw [appended.queue, List.mem_append, List.mem_singleton] at isRecord
  rw [appended.nextSequence]
  rcases isRecord with isOlder | rfl
  · exact Nat.lt_succ_of_lt (recorded.past isOlder)
  · exact Nat.lt_succ_self _

/-- When the table has too many entries, some are older than the new one. -/
theorem exists_older (absent : table.entries[tag]? = none) (full : after.capacity < after.size) :
    ∃ record ∈ table.order.toList, after.isLive record = true := by
  have filled : table.entries.size = table.capacity := by
    have bound := recorded.size_le
    have capacity := appended.capacity
    have size := appended.size
    change table.size = table.capacity
    omega
  obtain ⟨present, isPresent⟩ : ∃ present, present ∈ table.entries := by
    apply Std.TreeMap.isEmpty_eq_false_iff_exists_mem.mp
    have positive := recorded.capacity_pos
    rw [Std.TreeMap.isEmpty_eq_size_eq_zero, beq_eq_false_iff_ne]
    omega
  obtain ⟨shortcut, found⟩ := Option.isSome_iff_exists.mp
    (Std.TreeMap.mem_iff_isSome_getElem?.mp isPresent)
  have distinct : ¬ tag = present := by
    rintro rfl
    rw [absent] at found
    cases found
  refine ⟨_, recorded.record found, isLive_iff.mpr ⟨shortcut, ?_, rfl⟩⟩
  rw [appended.entries, if_neg distinct, found]

theorem tag_ne {record : Record} (isOlder : record ∈ table.order.toList)
    (live : after.isLive record = true) : ¬ tag = record.tag := by
  intro same
  obtain ⟨shortcut, found, sequence⟩ := isLive_iff.mp live
  rw [appended.entries, if_pos same] at found
  cases found
  exact absurd sequence (Nat.ne_of_gt (recorded.past isOlder))

end Appended

/-- Making room for a new entry pushes out another one. -/
theorem makeRoom_spec {table after settled : FastPath} (recorded : table.Recorded) {tag target : Nat}
    {evicted : Option Nat} (absent : table.entries[tag]? = none)
    (appended : table.Appended tag target after)
    (room : (if after.capacity < after.size then after.evictOldest else (none, after)) =
      (evicted, settled)) :
    settled.Recorded ∧ settled.capacity = table.capacity ∧
      settled.nextSequence = table.nextSequence + 1 ∧ settled.lookup tag = some target ∧
      ∀ other, other ≠ tag →
        settled.lookup other = if evicted = some other then none else table.lookup other := by
  have entries := appended.entries
  have capacity_pos : 0 < after.capacity := appended.capacity ▸ recorded.capacity_pos
  split at room
  next full =>
    obtain ⟨record, isRecord, live⟩ := appended.exists_older recorded absent full
    obtain ⟨oldest, isOlder, oldestLive, order, popped, remains, kept⟩ :=
      evictOldest_spec (appended.record recorded) appended.queue isRecord live
    rw [popped] at room
    cases room
    have oldest_ne : ¬ oldest.tag = tag :=
      fun same => appended.tag_ne recorded isOlder oldestLive same.symm
    have contained : after.entries.contains oldest.tag = true := by
      obtain ⟨shortcut, found, _⟩ := isLive_iff.mp oldestLive
      rw [Std.TreeMap.contains_eq_isSome_getElem?, found]
      rfl
    refine ⟨⟨capacity_pos, ?_, ?_, fun isRecord => appended.past recorded (kept _ isRecord)⟩,
      appended.capacity, appended.nextSequence, ?_, ?_⟩
    · have bound := recorded.size_le
      have size := appended.size
      have capacity := appended.capacity
      change (after.entries.erase oldest.tag).size ≤ after.capacity
      change after.entries.size = table.size + 1 at size
      rw [Std.TreeMap.size_erase, if_pos contained]
      omega
    · intro other shortcut entry
      rw [Std.TreeMap.getElem?_erase] at entry
      split at entry
      · cases entry
      next differs => exact remains (fun same => differs (by simp [same])) entry
    · simp [lookup, Std.TreeMap.getElem?_erase, oldest_ne, entries]
    · intro other other_ne
      have differs : ¬ tag = other := fun same => other_ne same.symm
      by_cases goes : oldest.tag = other <;>
        simp [lookup, Std.TreeMap.getElem?_erase, goes, entries, differs]
  next fits =>
    cases room
    refine ⟨⟨capacity_pos, Nat.le_of_not_lt fits, appended.record recorded, appended.past recorded⟩,
      appended.capacity, appended.nextSequence, ?_, ?_⟩
    · simp [lookup, entries]
    · intro other other_ne
      have differs : ¬ tag = other := fun same => other_ne same.symm
      simp [lookup, entries, differs]

/-- An insertion puts its entry in place.  It may push out the oldest other entry, and
fails only where the words that it counts with overflow. -/
theorem insert_outcome {table : FastPath} (recorded : table.Recorded) (tag target : Nat) :
    Ends (table.insert tag target)
      (fun (evicted, after) => after.Recorded ∧ after.capacity = table.capacity ∧
        after.nextSequence ≤ table.nextSequence + 1 ∧ after.lookup tag = some target ∧
        ∀ other, other ≠ tag →
          after.lookup other = if evicted = some other then none else table.lookup other)
      (fun fault => (fault = .addOverflow ∧ 2 ^ 64 ≤ table.nextSequence + 1) ∨
        (fault = .multiplyOverflow ∧ 2 ^ 63 ≤ table.capacity)) := by
  unfold insert
  cases found : table.entries[tag]? with
  | some shortcut =>
    refine ⟨⟨recorded.capacity_pos, ?_, ?_, recorded.past⟩, rfl, Nat.le_succ _, ?_, ?_⟩
    · have present : table.entries.contains tag = true := by
        rw [Std.TreeMap.contains_eq_isSome_getElem?, found]
        rfl
      simpa [size, Std.TreeMap.size_insert, present] using recorded.size_le
    · intro other shortcut' found'
      rw [Std.TreeMap.getElem?_insert] at found'
      split at found'
      next same =>
        cases found'
        have equal : tag = other := by simpa using same
        have isRecord := recorded.record found
        rw [equal] at isRecord
        exact isRecord
      next => exact recorded.record found'
    · simp [lookup]
    · intro other distinct
      have differ : ¬ tag = other := fun equal => distinct equal.symm
      simp [lookup, Std.TreeMap.getElem?_insert, differ]
  | none =>
    cases appended : table.append tag target with
    | error fault =>
      simp only [append, Word.add] at appended
      split at appended
      · cases appended
      next overflows =>
        cases appended
        exact .inl ⟨rfl, by omega⟩
    | ok after =>
      dsimp only
      rw [ok_bind]
      cases room : if after.capacity < after.size then after.evictOldest else (none, after) with
      | mk evicted settled =>
        obtain ⟨recorded', capacity, nextSequence, here, elsewhere⟩ :=
          makeRoom_spec recorded found (append_spec found appended) room
        have compacted := compact_outcome settled
        refine compacted.andThen (fun fault bad => ?_) ?_
        · exact .inr ⟨bad.1, capacity ▸ bad.2⟩
        · rintro after' ⟨order, rfl, kept, live⟩
          exact ⟨recorded'.of_order kept live, capacity, Nat.le_of_eq nextSequence, here,
            elsewhere⟩

theorem evicted_eq_none {table after : FastPath} {tag target : Nat} {evicted : Option Nat}
    (absent : table.lookup tag = none) (room : table.size < table.capacity)
    (inserted : table.insert tag target = .ok (evicted, after)) : evicted = none := by
  have missing : table.entries[tag]? = none := by simpa [lookup] using absent
  unfold insert at inserted
  simp only [missing] at inserted
  obtain ⟨grown, appended, inserted⟩ := bind_eq_ok_iff.mp inserted
  have spec := append_spec missing appended
  have fits : ¬ grown.capacity < grown.size := by
    rw [spec.capacity, spec.size]
    omega
  rw [if_neg fits] at inserted
  obtain ⟨compacted, _, same⟩ := bind_eq_ok_iff.mp inserted
  cases same
  rfl

/-- Entries that lead to different places are no more than the places. -/
theorem size_le_of_injective {table : FastPath} {places : List Nat}
    (inside : ∀ {tag target : Nat}, table.lookup tag = some target → target ∈ places)
    (injective : ∀ {first second target : Nat}, table.lookup first = some target →
      table.lookup second = some target → first = second) : table.size ≤ places.length := by
  have lookup_of_mem {entry : Nat × Shortcut} (isEntry : entry ∈ table.entries.toList) :
      table.lookup entry.1 = some entry.2.target :=
    lookup_eq_some_iff.mpr ⟨entry.2, Std.TreeMap.mem_toList_iff_getElem?_eq_some.mp isEntry, rfl⟩
  have distinct : (table.entries.toList.map fun entry => entry.2.target).Nodup := by
    rw [List.Nodup, List.pairwise_map]
    refine table.entries.distinct_keys_toList.imp_of_mem fun {one other} isOne isOther differ same => ?_
    refine differ (Std.LawfulEqCmp.compare_eq_iff_eq.mpr ?_)
    exact injective (lookup_of_mem isOne) (same ▸ lookup_of_mem isOther)
  have within := (List.Nodup.subperm distinct fun target isTarget => by
    obtain ⟨entry, isEntry, rfl⟩ := List.mem_map.mp isTarget
    exact inside (lookup_of_mem isEntry)).length_le
  rwa [List.length_map, Std.TreeMap.length_toList] at within

end FastPath

end TrieCache
