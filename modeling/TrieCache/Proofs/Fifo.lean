import TrieCache.FastPath.Command
import TrieCache.Proofs.FastPath

/-!
# The fast path as a first-in first-out list

The reference keeps its entries in a list, in the order of their insertion.  The table
keeps them in a map, beside a queue of records some of which are stale.  The list is what
is left of the queue when the stale records are passed over and each live one is joined
to the place its entry leads to: every operation of the table is the operation of that
name on this list.

A removed tag that comes back has two records, an old one and a new one.  Sequence
numbers grow along the queue and an entry has just one of them, so only one record of a
tag is live.
-/

namespace TrieCache

/-- The entries of a table with first-in first-out replacement, as tag and pool index,
oldest first. -/
structure Fifo where
  capacity : Nat
  entries : List (Nat × Nat) := []
  deriving DecidableEq, Repr

namespace Fifo

def lookup (fifo : Fifo) (tag : Nat) : Option Nat :=
  fifo.entries.lookup tag

def contains (fifo : Fifo) (tag : Nat) : Bool :=
  fifo.entries.any fun entry => entry.1 == tag

def retarget (fifo : Fifo) (tag target : Nat) : Fifo :=
  { fifo with
    entries := fifo.entries.map fun entry => if entry.1 = tag then (tag, target) else entry }

/-- Drop the oldest entry when there are too many. -/
def trim (fifo : Fifo) : Option Nat × Fifo :=
  if fifo.capacity < fifo.entries.length then
    (fifo.entries.head?.map Prod.fst, { fifo with entries := fifo.entries.tail })
  else
    (none, fifo)

/-- Add a new entry at the end. -/
def append (fifo : Fifo) (tag target : Nat) : Option Nat × Fifo :=
  trim { fifo with entries := fifo.entries ++ [(tag, target)] }

def insert (fifo : Fifo) (tag target : Nat) : Option Nat × Fifo :=
  if fifo.contains tag then (none, fifo.retarget tag target) else fifo.append tag target

def remove (fifo : Fifo) (tag : Nat) : Option Nat × Fifo :=
  (fifo.lookup tag, { fifo with entries := fifo.entries.filter fun entry => entry.1 != tag })

def run (fifo : Fifo) : FastPath.Command → FastPath.Reply × Fifo
  | .insert tag target => (fifo.insert tag target).map .evicted id
  | .remove tag => (fifo.remove tag).map .removed id
  | .lookup tag => (.found (fifo.lookup tag), fifo)
  | .contains tag => (.present (fifo.contains tag), fifo)

def runAll (fifo : Fifo) : List FastPath.Command → List FastPath.Reply × Fifo
  | [] => ([], fifo)
  | command :: commands =>
    let (reply, fifo) := fifo.run command
    (fifo.runAll commands).map (reply :: ·) id

theorem capacity_trim (fifo : Fifo) : fifo.trim.2.capacity = fifo.capacity := by
  unfold trim
  split <;> rfl

theorem capacity_run (fifo : Fifo) (command : FastPath.Command) :
    (fifo.run command).2.capacity = fifo.capacity := by
  cases command with
  | insert tag target =>
    change (fifo.insert tag target).2.capacity = _
    unfold insert
    split
    · rfl
    · exact capacity_trim _
  | remove tag => rfl
  | lookup tag => rfl
  | contains tag => rfl

theorem capacity_runAll (fifo : Fifo) (commands : List FastPath.Command) :
    (fifo.runAll commands).2.capacity = fifo.capacity := by
  induction commands generalizing fifo with
  | nil => rfl
  | cons command rest ih => exact (ih _).trans (capacity_run fifo command)

theorem length_le_of_insert {fifo : Fifo} (within : fifo.entries.length ≤ fifo.capacity)
    (tag target : Nat) :
    (fifo.insert tag target).2.entries.length ≤ (fifo.insert tag target).2.capacity := by
  unfold insert
  split
  next => simpa [retarget] using within
  next =>
    unfold append trim
    split
    next => simpa using within
    next fits => exact Nat.le_of_not_lt fits

theorem length_le_of_run {fifo : Fifo} (within : fifo.entries.length ≤ fifo.capacity)
    (command : FastPath.Command) :
    (fifo.run command).2.entries.length ≤ (fifo.run command).2.capacity := by
  cases command with
  | insert tag target => exact length_le_of_insert within tag target
  | remove tag => exact Nat.le_trans (List.length_filter_le _ _) within
  | lookup tag => exact within
  | contains tag => exact within

theorem length_le_of_runAll {fifo : Fifo} (within : fifo.entries.length ≤ fifo.capacity)
    (commands : List FastPath.Command) :
    (fifo.runAll commands).2.entries.length ≤ (fifo.runAll commands).2.capacity := by
  induction commands generalizing fifo with
  | nil => exact within
  | cons command rest ih => exact ih (length_le_of_run within command)

end Fifo

namespace FastPath

/-- The entry that a record is of, unless the record is stale. -/
def survivor (table : FastPath) (record : Record) : Option (Nat × Nat) :=
  (table.entries[record.tag]?.filter fun shortcut => shortcut.sequence == record.sequence).map
    fun shortcut => (record.tag, shortcut.target)

/-- The entries of a table, in the order of their insertion. -/
def survivors (table : FastPath) : List (Nat × Nat) :=
  table.order.toList.filterMap table.survivor

def toFifo (table : FastPath) : Fifo :=
  { capacity := table.capacity, entries := table.survivors }

/-- Every entry has the record of its insertion, and the records are in the order of their
sequence numbers. -/
structure Queued (table : FastPath) : Prop where
  record {tag : Nat} {shortcut : Shortcut} : table.entries[tag]? = some shortcut →
    { tag, sequence := shortcut.sequence } ∈ table.order.toList
  increasing : table.order.toList.Pairwise fun earlier later => earlier.sequence < later.sequence
  past {record : Record} : record ∈ table.order.toList → record.sequence < table.nextSequence

theorem survivor_eq_some_iff {table : FastPath} {record : Record} {tag target : Nat} :
    table.survivor record = some (tag, target) ↔ record.tag = tag ∧
      table.entries[record.tag]? = some { target, sequence := record.sequence } := by
  cases found : table.entries[record.tag]? with
  | none => simp [survivor, found]
  | some shortcut =>
    obtain ⟨place, sequence⟩ := shortcut
    simp only [survivor, found, Option.map_eq_some_iff, Option.filter_eq_some_iff, Option.some.injEq,
      beq_iff_eq, Prod.mk.injEq, Shortcut.mk.injEq]
    constructor
    · rintro ⟨_, ⟨rfl, same⟩, isTag, isTarget⟩
      exact ⟨isTag, isTarget, same⟩
    · rintro ⟨isTag, isTarget, same⟩
      exact ⟨_, ⟨rfl, same⟩, isTag, isTarget⟩

theorem survivor_eq_none_iff {table : FastPath} {record : Record} :
    table.survivor record = none ↔ table.isLive record = false := by
  cases found : table.entries[record.tag]? with
  | none => simp [survivor, isLive, found]
  | some shortcut => simp [survivor, isLive, found, Option.filter]

theorem survivor_erase (table : FastPath) (order : Records) (tag : Nat) (record : Record) :
    survivor { table with order, entries := table.entries.erase tag } record =
      (table.survivor record).filter fun entry => entry.1 != tag := by
  by_cases same : tag = record.tag
  · simp [survivor, same, Option.filter_map]
  · have differs : (record.tag != tag) = true := by simpa using fun equal => same equal.symm
    simp [survivor, Std.TreeMap.getElem?_erase, same, Option.filter_map, Function.comp_def, differs]

theorem queued_of_ofCapacity {capacity : Nat} {table : FastPath}
    (made : ofCapacity capacity = .ok table) :
    table.Queued ∧ table.toFifo = { capacity } ∧ table.nextSequence = 0 := by
  unfold ofCapacity at made
  split at made
  next =>
    cases made
    refine ⟨⟨?_, ?_, ?_⟩, ?_, rfl⟩
    · simp
    · simp [Records.empty]
    · simp [Records.empty]
    · simp [toFifo, survivors, Records.empty]
  next => cases made

namespace Queued

variable {table : FastPath} (queued : table.Queued)

include queued

theorem mem_survivors_iff {tag target : Nat} :
    (tag, target) ∈ table.survivors ↔ table.lookup tag = some target := by
  simp only [survivors, List.mem_filterMap, survivor_eq_some_iff, lookup_eq_some_iff]
  constructor
  · rintro ⟨record, _, rfl, found⟩
    exact ⟨_, found, rfl⟩
  · rintro ⟨shortcut, found, rfl⟩
    exact ⟨_, queued.record found, rfl, found⟩

/-- The survivors have different tags: an entry has one sequence number, and no two
records have the same. -/
theorem distinct_survivors : table.survivors.Pairwise fun one other => one.1 ≠ other.1 := by
  refine queued.increasing.filterMap _ ?_
  rintro earlier later increases ⟨tag, target⟩ isEarlier ⟨tag', target'⟩ isLater same
  obtain ⟨rfl, found⟩ := survivor_eq_some_iff.mp isEarlier
  obtain ⟨rfl, found'⟩ := survivor_eq_some_iff.mp isLater
  obtain same : earlier.tag = later.tag := same
  rw [← same, found, Option.some.injEq, Shortcut.mk.injEq] at found'
  exact Nat.ne_of_lt increases found'.2

theorem lookup_survivors (tag : Nat) : table.survivors.lookup tag = table.lookup tag := by
  cases found : table.survivors.lookup tag with
  | some target =>
    obtain ⟨before, rest, split, _⟩ := List.lookup_eq_some_iff.mp found
    exact (queued.mem_survivors_iff.mp (by simp [split])).symm
  | none =>
    have missing := List.lookup_eq_none_iff.mp found
    cases present : table.lookup tag with
    | none => rfl
    | some target =>
      have differs := missing _ (queued.mem_survivors_iff.mpr present)
      simp at differs

theorem contains_toFifo (tag : Nat) : table.toFifo.contains tag = table.contains tag := by
  rw [contains_eq_isSome_lookup, Bool.eq_iff_iff, Option.isSome_iff_exists]
  simp only [Fifo.contains, toFifo, List.any_eq_true, beq_iff_eq]
  constructor
  · rintro ⟨⟨_, target⟩, isEntry, rfl⟩
    exact ⟨target, queued.mem_survivors_iff.mp isEntry⟩
  · rintro ⟨target, found⟩
    exact ⟨_, queued.mem_survivors_iff.mpr found, rfl⟩

/-- The entries of the table are the survivors, in another order. -/
theorem perm_toList : table.toList.Perm table.survivors := by
  have nodup : table.toList.Nodup := by
    refine List.Pairwise.map _ (fun one other differ same => differ ?_)
      table.entries.distinct_keys_toList
    exact Std.LawfulEqCmp.compare_eq_iff_eq.mpr (Prod.mk.inj same).1
  have nodup' : table.survivors.Nodup :=
    queued.distinct_survivors.imp fun differ same => differ (congrArg Prod.fst same)
  refine (List.perm_ext_iff_of_nodup nodup nodup').mpr ?_
  rintro ⟨tag, target⟩
  rw [queued.mem_survivors_iff, mem_toList_iff]

theorem size_eq : table.size = table.survivors.length := by
  rw [← queued.perm_toList.length_eq, toList, List.length_map, Std.TreeMap.length_toList, size]

/-! ## Operations -/

theorem remove (tag : Nat) :
    (table.remove tag).2.Queued ∧ (table.remove tag).2.nextSequence = table.nextSequence ∧
      (table.remove tag).map id toFifo = table.toFifo.remove tag := by
  unfold FastPath.remove
  cases found : table.entries[tag]? with
  | none =>
    refine ⟨queued, rfl, ?_⟩
    have missing : table.lookup tag = none := by simp [FastPath.lookup, found]
    have others : ∀ entry ∈ table.survivors, (entry.1 != tag) = true := by
      rintro ⟨other, target⟩ isEntry
      rw [bne_iff_ne]
      rintro rfl
      have present := queued.mem_survivors_iff.mp isEntry
      rw [missing] at present
      cases present
    simp only [Prod.map_apply, id_eq, Fifo.remove, Fifo.lookup, toFifo, queued.lookup_survivors,
      missing, List.filter_eq_self.mpr others]
  | some shortcut =>
    refine ⟨⟨?_, queued.increasing, queued.past⟩, rfl, ?_⟩
    · intro other shortcut' found'
      rw [Std.TreeMap.getElem?_erase] at found'
      split at found'
      · cases found'
      · exact queued.record found'
    · have present : table.lookup tag = some shortcut.target := by simp [FastPath.lookup, found]
      have left : survivors { table with entries := table.entries.erase tag } =
          table.survivors.filter fun entry => entry.1 != tag := by
        rw [survivors, survivors, List.filter_filterMap]
        exact List.filterMap_congr fun record _ => survivor_erase table table.order tag record
      simp only [Prod.map_apply, id_eq, Fifo.remove, Fifo.lookup, toFifo, queued.lookup_survivors,
        present, left]

theorem retarget {tag : Nat} {shortcut : Shortcut} (found : table.entries[tag]? = some shortcut)
    (target : Nat) :
    Queued { table with entries := table.entries.insert tag { shortcut with target } } ∧
      toFifo { table with entries := table.entries.insert tag { shortcut with target } } =
        table.toFifo.retarget tag target := by
  refine ⟨⟨?_, queued.increasing, queued.past⟩, ?_⟩
  · intro other shortcut' found'
    rw [Std.TreeMap.getElem?_insert] at found'
    split at found'
    next same =>
      obtain rfl : tag = other := Std.LawfulEqCmp.compare_eq_iff_eq.mp same
      cases found'
      have isRecord := queued.record found
      exact isRecord
    next => exact queued.record found'
  · simp only [toFifo, Fifo.retarget, Fifo.mk.injEq, true_and]
    rw [survivors, survivors, List.map_filterMap]
    refine List.filterMap_congr fun record _ => ?_
    by_cases same : tag = record.tag
    · subst same
      by_cases live : shortcut.sequence = record.sequence <;>
        simp [survivor, found, Option.filter, live]
    · have differs : ¬ record.tag = tag := fun equal => same equal.symm
      simp [survivor, Std.TreeMap.getElem?_insert, same, differs, Option.map_map, Function.comp_def]

/-- A new entry comes after all others. -/
theorem append {after : FastPath} {tag target : Nat} (absent : table.entries[tag]? = none)
    (appended : table.Appended tag target after) :
    after.Queued ∧ after.survivors = table.survivors ++ [(tag, target)] := by
  refine ⟨⟨?_, ?_, ?_⟩, ?_⟩
  · intro other shortcut found
    rw [appended.entries] at found
    rw [appended.queue, List.mem_append]
    split at found
    next same =>
      cases found
      exact .inr (by simp [same])
    next => exact .inl (queued.record found)
  · rw [appended.queue, List.pairwise_append]
    refine ⟨queued.increasing, List.pairwise_singleton _ _, ?_⟩
    intro earlier isEarlier later isLater
    rw [List.mem_singleton.mp isLater]
    exact queued.past isEarlier
  · intro record isRecord
    rw [appended.queue, List.mem_append, List.mem_singleton] at isRecord
    rw [appended.nextSequence]
    rcases isRecord with isOlder | rfl
    · exact Nat.lt_succ_of_lt (queued.past isOlder)
    · exact Nat.lt_succ_self _
  · have older : ∀ record ∈ table.order.toList, after.survivor record = table.survivor record := by
      intro record isOlder
      by_cases same : tag = record.tag
      · subst same
        have stale : ¬ table.nextSequence = record.sequence :=
          (Nat.ne_of_lt (queued.past isOlder)).symm
        simp [survivor, appended.entries, absent, Option.filter, stale]
      · simp [survivor, appended.entries, same]
    have newest : after.survivor { tag, sequence := table.nextSequence } = some (tag, target) := by
      simp [survivor, appended.entries, Option.filter]
    rw [survivors, appended.queue, List.filterMap_append, List.filterMap_congr older]
    simp [survivors, newest]

theorem evictOldest {tag target : Nat} {others : List (Nat × Nat)}
    (first : table.survivors = (tag, target) :: others) :
    table.evictOldest.1 = some tag ∧ table.evictOldest.2.Queued ∧
      table.evictOldest.2.nextSequence = table.nextSequence ∧
      table.evictOldest.2.toFifo = { capacity := table.capacity, entries := others } := by
  obtain ⟨dropped, record, rest, queue, passed, survives, left⟩ := List.filterMap_eq_cons_iff.mp first
  obtain ⟨rfl, found⟩ := survivor_eq_some_iff.mp survives
  have live : table.isLive record = true := isLive_iff.mpr ⟨_, found, rfl⟩
  obtain ⟨popped, remaining⟩ := Records.popUntil_of_toList_eq queue
    (fun other isDropped => survivor_eq_none_iff.mp (passed other isDropped)) live
  obtain ⟨order, pair, rfl⟩ : ∃ order, table.order.popUntil table.isLive = (some record, order) ∧
      order.toList = rest := ⟨_, Prod.ext popped rfl, remaining⟩
  have evicted : table.evictOldest = (some record.tag,
      { table with order, entries := table.entries.erase record.tag }) := by
    simp only [FastPath.evictOldest, pair]
  have within : ∀ other ∈ order.toList, other ∈ table.order.toList := by
    intro other isLater
    simp [queue, isLater]
  rw [evicted]
  refine ⟨rfl, ⟨?_, ?_, fun isLater => queued.past (within _ isLater)⟩, rfl, ?_⟩
  · intro other shortcut found'
    rw [Std.TreeMap.getElem?_erase] at found'
    split at found'
    · cases found'
    next differs =>
      have isRecord := queued.record found'
      rw [queue, List.mem_append, List.mem_cons] at isRecord
      rcases isRecord with isDropped | isOldest | isLater
      · have stale := survivor_eq_none_iff.mp (passed _ isDropped)
        have alive : table.isLive { tag := other, sequence := shortcut.sequence } = true :=
          isLive_iff.mpr ⟨shortcut, found', rfl⟩
        rw [stale] at alive
        cases alive
      · exact absurd (by simp [← isOldest]) differs
      · exact isLater
  · have increasing := queued.increasing
    rw [queue] at increasing
    exact (List.pairwise_cons.mp (List.pairwise_append.mp increasing).2.1).2
  · have distinct := queued.distinct_survivors
    rw [first, List.pairwise_cons] at distinct
    have others_ne : ∀ entry ∈ others, (entry.1 != record.tag) = true := by
      intro entry isOther
      rw [bne_iff_ne]
      exact (distinct.1 entry isOther).symm
    simp only [toFifo, Fifo.mk.injEq, true_and]
    rw [survivors, ← List.filter_eq_self.mpr others_ne, ← left, List.filter_filterMap]
    exact List.filterMap_congr fun later _ => survivor_erase table order record.tag later

theorem compact :
    Ends table.compact
      (fun after => after.Queued ∧ after.nextSequence = table.nextSequence ∧
        after.toFifo = table.toFifo)
      (fun fault => fault = .multiplyOverflow ∧ 2 ^ 63 ≤ table.capacity) := by
  refine table.compact_cases.mono ?_ fun _ failed => failed
  rintro after (⟨_, rfl⟩ | rfl)
  · exact ⟨queued, rfl, rfl⟩
  refine ⟨⟨?_, ?_, ?_⟩, rfl, ?_⟩
  · intro tag shortcut found
    rw [Records.toList_filter, List.mem_filter]
    exact ⟨queued.record found, isLive_iff.mpr ⟨shortcut, found, rfl⟩⟩
  · rw [Records.toList_filter]
    exact queued.increasing.filter _
  · intro record kept
    rw [Records.toList_filter, List.mem_filter] at kept
    exact queued.past kept.1
  · simp only [toFifo, Fifo.mk.injEq, true_and]
    rw [survivors, Records.toList_filter, List.filterMap_filter]
    refine List.filterMap_congr fun record _ => ?_
    cases live : table.isLive record with
    | true => rfl
    | false => exact (survivor_eq_none_iff.mpr live).symm

/-- Making room pushes out the oldest survivor, and only when there are too many. -/
theorem makeRoom {evicted : Option Nat} {settled : FastPath}
    (room : (if table.capacity < table.size then table.evictOldest else (none, table)) =
      (evicted, settled)) :
    settled.Queued ∧ settled.nextSequence = table.nextSequence ∧
      (evicted, settled.toFifo) = table.toFifo.trim := by
  rw [queued.size_eq] at room
  split at room
  next full =>
    rw [Fifo.trim, if_pos (show table.toFifo.capacity < table.toFifo.entries.length from full)]
    cases first : table.survivors with
    | nil => simp [first] at full
    | cons oldest others =>
      obtain ⟨gone, queued', nextSequence, left⟩ := queued.evictOldest first
      rw [room] at gone queued' nextSequence left
      have same : (evicted, settled.toFifo) =
          (some oldest.1, { capacity := table.capacity, entries := others }) := Prod.ext gone left
      refine ⟨queued', nextSequence, same.trans ?_⟩
      simp [toFifo, first]
  next fits =>
    cases room
    rw [Fifo.trim, if_neg (show ¬ table.toFifo.capacity < table.toFifo.entries.length from fits)]
    exact ⟨queued, rfl, rfl⟩

/-- An insertion fails only where the words that it counts with overflow. -/
theorem insert (tag target : Nat) :
    Ends (table.insert tag target)
      (fun (evicted, after) => after.Queued ∧ after.nextSequence ≤ table.nextSequence + 1 ∧
        (evicted, after.toFifo) = table.toFifo.insert tag target)
      (fun fault => (fault = .addOverflow ∧ 2 ^ 64 ≤ table.nextSequence + 1) ∨
        (fault = .multiplyOverflow ∧ 2 ^ 63 ≤ table.capacity)) := by
  have contains : table.toFifo.contains tag = table.entries[tag]?.isSome := by
    rw [queued.contains_toFifo, FastPath.contains, Std.TreeMap.contains_eq_isSome_getElem?]
  unfold FastPath.insert Fifo.insert
  rw [contains]
  cases found : table.entries[tag]? with
  | some shortcut =>
    obtain ⟨queued', same⟩ := queued.retarget found target
    exact ⟨queued', Nat.le_succ _, Prod.ext rfl same⟩
  | none =>
    cases appended : table.append tag target with
    | error fault =>
      simp only [FastPath.append, Word.add] at appended
      split at appended
      · cases appended
      next overflows =>
        cases appended
        exact .inl ⟨rfl, by omega⟩
    | ok grown =>
      have spec := append_spec found appended
      obtain ⟨queued', survivors⟩ := queued.append found spec
      dsimp only
      rw [ok_bind]
      cases room : if grown.capacity < grown.size then grown.evictOldest else (none, grown) with
      | mk evicted settled =>
        obtain ⟨queued'', nextSequence, trimmed⟩ := queued'.makeRoom room
        have capacity : settled.capacity = table.capacity := by
          have kept := congrArg (fun result => result.2.capacity) trimmed
          rw [Fifo.capacity_trim] at kept
          exact kept.trans spec.capacity
        refine queued''.compact.andThen (fun fault failed => .inr ⟨failed.1, capacity ▸ failed.2⟩) ?_
        rintro after ⟨queuedAfter, sequence, same⟩
        refine ⟨queuedAfter, ?_, ?_⟩
        · exact Nat.le_of_eq (sequence.trans (nextSequence.trans spec.nextSequence))
        · rw [same, trimmed]
          simp [Fifo.append, toFifo, survivors, spec.capacity]

end Queued

/-! ## Runs -/

theorem queued_of_run {table : FastPath} (queued : table.Queued)
    (room : table.nextSequence + 1 < 2 ^ 64) (small : table.capacity < 2 ^ 63) (command : Command) :
    ∃ reply after, table.run command = .ok (reply, after) ∧ after.Queued ∧
      after.nextSequence ≤ table.nextSequence + 1 ∧
      (reply, after.toFifo) = table.toFifo.run command := by
  cases command with
  | insert tag target =>
    obtain ⟨⟨evicted, after⟩, inserted, queued', nextSequence, same⟩ :=
      (queued.insert tag target).exists_ok (by rintro fault (⟨_, full⟩ | ⟨_, large⟩) <;> omega)
    refine ⟨.evicted evicted, after, ?_, queued', nextSequence, ?_⟩
    · rw [run, inserted]
      rfl
    · rw [Fifo.run, ← same]
      rfl
  | remove tag =>
    obtain ⟨queued', nextSequence, same⟩ := queued.remove tag
    refine ⟨_, _, rfl, queued', Nat.le_succ_of_le (Nat.le_of_eq nextSequence), ?_⟩
    rw [Fifo.run, ← same]
    rfl
  | lookup tag =>
    refine ⟨_, _, rfl, queued, Nat.le_succ _, ?_⟩
    rw [Fifo.run, Fifo.lookup, toFifo, queued.lookup_survivors]
  | contains tag =>
    refine ⟨_, _, rfl, queued, Nat.le_succ _, ?_⟩
    rw [Fifo.run, queued.contains_toFifo]

theorem queued_of_runAll {table : FastPath} {commands : List Command} (queued : table.Queued)
    (room : table.nextSequence + commands.length < 2 ^ 64) (small : table.capacity < 2 ^ 63) :
    ∃ replies after, table.runAll commands = .ok (replies, after) ∧ after.Queued ∧
      (replies, after.toFifo) = table.toFifo.runAll commands := by
  induction commands generalizing table with
  | nil => exact ⟨_, _, rfl, queued, rfl⟩
  | cons command rest ih =>
    rw [List.length_cons] at room
    obtain ⟨reply, middle, ran, queued', nextSequence, same⟩ :=
      queued_of_run queued (by omega) small command
    have capacity : middle.capacity = table.capacity := by
      have kept := congrArg (fun result => result.2.capacity) same
      rw [Fifo.capacity_run] at kept
      exact kept
    obtain ⟨replies, after, ranAll, queuedAfter, sameAll⟩ :=
      ih queued' (by omega) (capacity ▸ small)
    refine ⟨reply :: replies, after, ?_, queuedAfter, ?_⟩
    · rw [runAll, ran, ok_bind]
      dsimp only
      rw [ranAll]
      rfl
    · rw [Fifo.runAll, ← same]
      dsimp only
      rw [← sameAll]
      rfl

/-- What a table and a first-in first-out list have in common. -/
structure Matches (table : FastPath) (fifo : Fifo) : Prop where
  size : table.size = fifo.entries.length
  within : table.size ≤ table.capacity
  /-- The entries are the same, though the table lists them by tag. -/
  entries : table.toList.Perm fifo.entries
  lookup (tag : Nat) : table.lookup tag = fifo.lookup tag
  /-- What an insertion pushes out is the entry that was inserted first. -/
  oldest {tag target evicted : Nat} {after : FastPath} :
    table.insert tag target = .ok (some evicted, after) →
      fifo.entries.head?.map Prod.fst = some evicted

theorem Queued.matches {table : FastPath} (queued : table.Queued)
    (within : table.toFifo.entries.length ≤ table.capacity) (positive : 0 < table.capacity) :
    table.Matches table.toFifo where
  size := queued.size_eq
  within := queued.size_eq ▸ within
  entries := queued.perm_toList
  lookup tag := (queued.lookup_survivors tag).symm
  oldest {tag target evicted after} inserted := by
    obtain ⟨_, _, same⟩ := (queued.insert tag target).of_eq_ok inserted
    have gone : (table.toFifo.insert tag target).1 = some evicted := by rw [← same]
    unfold Fifo.insert Fifo.append Fifo.trim at gone
    split at gone
    · cases gone
    split at gone
    next full =>
      -- The list was not empty before: else one entry would be more than the capacity.
      cases first : table.toFifo.entries with
      | nil =>
        rw [first] at full
        change table.capacity < 1 at full
        omega
      | cons oldest others =>
        rw [first] at gone
        exact gone
    · cases gone

/-- A table is a first-in first-out list of its capacity: every run of fewer than `2 ^ 64`
operations is carried out, answers what the list answers, and ends in the entries that the
list ends in. -/
theorem runAll_eq_fifo {capacity : Nat} {commands : List Command} (positive : 0 < capacity)
    (small : capacity < 2 ^ 63) (short : commands.length < 2 ^ 64) :
    ∃ table replies after, ofCapacity capacity = .ok table ∧
      table.runAll commands = .ok (replies, after) ∧
      replies = (Fifo.runAll { capacity } commands).1 ∧
      after.Matches (Fifo.runAll { capacity } commands).2 := by
  have made : ofCapacity capacity = .ok { capacity } := by rw [ofCapacity, if_pos positive]
  obtain ⟨queued, start, nextSequence⟩ := queued_of_ofCapacity made
  have room : (FastPath.nextSequence { capacity }) + commands.length < 2 ^ 64 := by omega
  obtain ⟨replies, after, ran, queued', same⟩ := queued_of_runAll queued room small
  rw [start] at same
  have final := congrArg Prod.snd same
  have isCapacity : after.capacity = capacity :=
    (congrArg Fifo.capacity final).trans (Fifo.capacity_runAll { capacity } commands)
  have start_le : (Fifo.entries { capacity }).length ≤ (Fifo.capacity { capacity }) := Nat.zero_le _
  have within := Fifo.length_le_of_runAll start_le commands
  rw [Fifo.capacity_runAll, ← final] at within
  refine ⟨_, replies, after, made, ran, congrArg Prod.fst same, ?_⟩
  rw [← final]
  exact queued'.matches (isCapacity ▸ within) (isCapacity ▸ positive)

/-- A tag that was removed and came back goes after one that came in between. -/
theorem runAll_eq_fifo_of_returned : ∃ table after, ofCapacity 2 = .ok table ∧
    table.runAll [.insert 1 5, .remove 1, .insert 2 6, .insert 1 7, .insert 1 8, .lookup 1,
      .insert 3 9, .contains 2] = .ok ([.evicted none, .removed (some 5), .evicted none,
        .evicted none, .evicted none, .found (some 8), .evicted (some 2), .present false], after) ∧
    after.toList.Perm [(1, 8), (3, 9)] := by
  have short : ([.insert 1 5, .remove 1, .insert 2 6, .insert 1 7, .insert 1 8, .lookup 1,
      .insert 3 9, .contains 2] : List Command).length < 2 ^ 64 := by decide
  have positive : 0 < 2 := by decide
  obtain ⟨table, replies, after, made, ran, rfl, agrees⟩ := runAll_eq_fifo positive (by decide) short
  exact ⟨table, after, made, ran, agrees.entries⟩

end FastPath

end TrieCache
