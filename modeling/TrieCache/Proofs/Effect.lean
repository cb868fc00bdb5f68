import TrieCache.Cache.Command
import TrieCache.Proofs.Insertion
import TrieCache.Proofs.Publication

/-!
# Effects of operations

What every operation does to the view of a sound cache, as one relation.  All of it keeps
the view sound, so it is what every operation of a run does.
-/

namespace TrieCache

namespace View

/-- What an operation that ran did, and what it answered. -/
inductive Effect (before : View) : Cache.Command → Cache.Reply → View → Prop
  | access {address : Address} {access : Access} {byte : Option UInt8} {after : View}
      (accessed : before.Accessed (before.frame.layout.blockOf address)
        (before.frame.layout.placeOf address) access byte after) :
    Effect before (.access address access) (.byte byte) after
  | read {address : Address} {byte : Option UInt8} {after : View}
      (accessed : before.Accessed (before.frame.layout.blockOf address)
        (before.frame.layout.placeOf address) .read byte after) :
    Effect before (.read address) (.byte byte) after
  | write {address : Address} {value : UInt8} {byte : Option UInt8} {after : View}
      (accessed : before.Accessed (before.frame.layout.blockOf address)
        (before.frame.layout.placeOf address) (.write value) byte after) :
    Effect before (.write address value) (.written byte.isSome) after
  | insert {address : Address} {value : UInt8} {leaf : Nat} {after : View}
      (inserted : before.Inserted (before.frame.layout.blockOf address)
        ((Array.replicate before.frame.layout.blockBytes 0).setIfInBounds
          (before.frame.layout.placeOf address) value) leaf after) :
    Effect before (.insert address value) (.index leaf) after
  | fill {address : Address} {block : Array UInt8} {leaf : Nat} {after : View}
      (inserted : before.Inserted (before.frame.layout.blockOf address) block leaf after) :
    Effect before (.fill address block) (.index leaf) after
  | search {address : Address} {walk : Walk} : Effect before (.search address) (.walk walk) before
  | setLocked {index : Nat} {locked : Bool} :
    Effect before (.setLocked index locked) .done
      { before with locked := Function.update before.locked index (some locked) }
  | drain {blocks : Array Writeback} :
    Effect before .drain (.drained blocks) { before with queue := [] }
  | flush {flushed : Nat} {after : View} (published : before.Published (fun _ _ => true) after) :
    Effect before .flush (.count flushed) after
  | retire {address : Address} {retired : Nat} {after : View}
      (published : before.Published (Cache.stale (before.frame.layout.blockOf address)
        (before.shortcut (before.frame.layout.blockOf address))) after) :
    Effect before (.retire address) (.count retired) after

theorem Published.sound {before after : View} {chosen : Nat → Nat → Bool}
    (published : before.Published chosen after) (sound : before.Sound) : after.Sound := by
  rw [published.same]
  exact ⟨sound.founded, sound.linked, sound.placed, sound.tagged, sound.agree⟩

theorem Published.frame {before after : View} {chosen : Nat → Nat → Bool}
    (published : before.Published chosen after) : after.frame = before.frame := by
  rw [published.same]

theorem Accessed.exists_copy_before {before after : View} {tag place : Nat} {access : Access}
    {byte : Option UInt8} (accessed : before.Accessed tag place access byte after) {index : Nat}
    {copy : Copy} (holds : after.copies index = some copy) :
    ∃ older, before.copies index = some older ∧ older.tag = copy.tag := by
  cases accessed with
  | miss unresolved => exact ⟨copy, holds, rfl⟩
  | @hit middle target older byte rerouted resolves direct holds' tagged answer =>
    by_cases here : index = target
    · subst here
      have same := (Function.update_self _ _ _).symm.trans holds
      rw [Option.some.injEq] at same
      exact ⟨older, holds', by rw [← same, Copy.tag_access]⟩
    · exact ⟨copy, (Function.update_of_ne here _ _).symm.trans holds, rfl⟩

theorem Published.exists_copy_before {before after : View} {chosen : Nat → Nat → Bool}
    (published : before.Published chosen after) {index : Nat} {copy : Copy}
    (holds : after.copies index = some copy) :
    ∃ older, before.copies index = some older ∧ older.tag = copy.tag := by
  rw [published.copies, Option.map_eq_some_iff] at holds
  obtain ⟨older, holds', rfl⟩ := holds
  refine ⟨older, holds', ?_⟩
  split <;> rfl

theorem Effect.frame {before after : View} {command : Cache.Command} {reply : Cache.Reply}
    (effect : before.Effect command reply after) : after.frame = before.frame := by
  cases effect with
  | access accessed => exact accessed.frame
  | read accessed => exact accessed.frame
  | write accessed => exact accessed.frame
  | insert inserted => exact inserted.frame
  | fill inserted => exact inserted.frame
  | flush published => exact published.frame
  | retire published => exact published.frame
  | search => rfl
  | setLocked => rfl
  | drain => rfl

/-- An operation puts one block on the fast path at most. -/
theorem Effect.sequence_le {before after : View} {command : Cache.Command} {reply : Cache.Reply}
    (effect : before.Effect command reply after) : after.sequence ≤ before.sequence + 1 := by
  cases effect with
  | access accessed => exact accessed.sequence_le
  | read accessed => exact accessed.sequence_le
  | write accessed => exact accessed.sequence_le
  | insert inserted => exact inserted.sequence_le
  | fill inserted => exact inserted.sequence_le
  | flush published =>
    rw [published.same]
    exact Nat.le_succ _
  | retire published =>
    rw [published.same]
    exact Nat.le_succ _
  | search => exact Nat.le_succ _
  | setLocked => exact Nat.le_succ _
  | drain => exact Nat.le_succ _

theorem Effect.mem_queue {before after : View} {command : Cache.Command} {reply : Cache.Reply}
    (effect : before.Effect command reply after) {writeback : Writeback}
    (isQueued : writeback ∈ after.queue) : writeback ∈ before.queue ∨
      ∃ index copy, before.copies index = some copy ∧ writeback = copy.writeback := by
  have ofPublished {chosen : Nat → Nat → Bool} (published : before.Published chosen after) :
      writeback ∈ before.queue ∨
        ∃ index copy, before.copies index = some copy ∧ writeback = copy.writeback := by
    obtain ⟨added, queue, added_iff⟩ := published.queue
    rw [queue, List.mem_append] at isQueued
    refine isQueued.imp_right fun isAdded => ?_
    obtain ⟨index, copy, holds, _, _, same⟩ := (added_iff writeback).mp isAdded
    exact ⟨index, copy, holds, same⟩
  have ofInserted {tag leaf : Nat} {bytes : Array UInt8}
      (inserted : before.Inserted tag bytes leaf after) : writeback ∈ before.queue ∨
        ∃ index copy, before.copies index = some copy ∧ writeback = copy.writeback := by
    obtain ⟨added, queue, fromBefore, _⟩ := inserted.queue
    rw [queue, List.mem_append] at isQueued
    refine isQueued.imp_right fun isAdded => ?_
    obtain ⟨index, copy, holds, _, same⟩ := fromBefore writeback isAdded
    exact ⟨index, copy, holds, same⟩
  cases effect with
  | access accessed => exact .inl (accessed.queue ▸ isQueued)
  | read accessed => exact .inl (accessed.queue ▸ isQueued)
  | write accessed => exact .inl (accessed.queue ▸ isQueued)
  | insert inserted => exact ofInserted inserted
  | fill inserted => exact ofInserted inserted
  | flush published => exact ofPublished published
  | retire published => exact ofPublished published
  | search => exact .inl isQueued
  | setLocked => exact .inl isQueued
  | drain => exact absurd isQueued List.not_mem_nil

end View

namespace Cache

variable {cache after : Cache}

theorem write_eq_ok {address : Address} {value : UInt8} {cached : Bool}
    (ran : cache.write address value = .ok (cached, after)) :
    ∃ byte, cache.access address (.write value) = .ok (byte, after) ∧ cached = byte.isSome := by
  rw [write, bind_eq_ok_iff] at ran
  obtain ⟨⟨byte, _⟩, accessed, same⟩ := ran
  cases same
  exact ⟨byte, accessed, rfl⟩

theorem copy_of_resolves (sound : cache.view.Sound) {tag index : Nat}
    (resolves : cache.view.Resolves tag index) :
    ∃ copy, cache.view.copies index = some copy ∧ copy.tag = tag :=
  exists_copy_iff.mpr (sound.node_of_resolves resolves)

/-- Every operation keeps a cache sound and has its effect. -/
theorem run_effect (sound : cache.view.Sound) (tidy : cache.Tidy) {command : Command} {reply : Reply}
    (ran : cache.run command = .ok (reply, after)) :
    after.Tidy ∧ after.view.Sound ∧ cache.view.Effect command reply after.view := by
  have regular : cache.layout.Regular := sound.founded.regular
  cases command with
  | access address access =>
    obtain ⟨⟨byte, _⟩, accessed, same⟩ := bind_eq_ok_iff.mp ran
    cases same
    obtain ⟨tidy', effect⟩ := (access_outcome sound tidy address access).of_eq_ok accessed
    exact ⟨tidy', effect.sound sound, .access effect⟩
  | read address =>
    obtain ⟨⟨byte, _⟩, accessed, same⟩ := bind_eq_ok_iff.mp ran
    cases same
    obtain ⟨tidy', effect⟩ := (access_outcome sound tidy address .read).of_eq_ok accessed
    exact ⟨tidy', effect.sound sound, .read effect⟩
  | write address value =>
    obtain ⟨⟨cached, _⟩, written, same⟩ := bind_eq_ok_iff.mp ran
    cases same
    obtain ⟨byte, accessed, rfl⟩ := write_eq_ok written
    obtain ⟨tidy', effect⟩ := (access_outcome sound tidy address (.write value)).of_eq_ok accessed
    exact ⟨tidy', effect.sound sound, .write effect⟩
  | insert address value =>
    obtain ⟨⟨leaf, _⟩, inserted, same⟩ := bind_eq_ok_iff.mp ran
    cases same
    obtain ⟨tidy', sound', effect⟩ := (insert_outcome sound tidy value).of_eq_ok inserted
    exact ⟨tidy', sound', .insert effect⟩
  | fill address block =>
    obtain ⟨⟨leaf, _⟩, filled, same⟩ := bind_eq_ok_iff.mp ran
    cases same
    obtain ⟨tidy', sound', effect⟩ := (fill_outcome sound tidy block).of_eq_ok filled
    exact ⟨tidy', sound', .fill effect⟩
  | search address =>
    obtain ⟨⟨walk, _⟩, searched, same⟩ := bind_eq_ok_iff.mp ran
    cases same
    obtain ⟨unmoved, _⟩ := (search_outcome sound tidy address).of_eq_ok searched
    refine ⟨unmoved.tidy, unmoved.sound sound, ?_⟩
    rw [unmoved.view]
    exact .search
  | setLocked index locked =>
    obtain ⟨_, changed, same⟩ := bind_eq_ok_iff.mp ran
    cases same
    obtain ⟨tidy', _, view⟩ := (setLocked_spec tidy index locked).of_eq_ok changed
    rw [view]
    exact ⟨tidy', ⟨sound.founded, sound.linked, sound.placed, sound.tagged, sound.agree⟩,
      .setLocked⟩
  | drain =>
    cases ran
    exact ⟨⟨tidy.hand_lt, tidy.shaped, tidy.bounded, tidy.recorded⟩,
      ⟨sound.founded, sound.linked, sound.placed, sound.tagged, sound.agree⟩, .drain⟩
  | flush =>
    cases ran
    obtain ⟨tidy', published⟩ := flushDirty_spec tidy
    exact ⟨tidy', published.sound sound, .flush published⟩
  | retire address =>
    obtain ⟨result, retired, tidy', published⟩ := retireStale_spec tidy (regular.tag_eq address)
    obtain ⟨_, retired', same⟩ := bind_eq_ok_iff.mp ran
    cases retired.symm.trans retired'
    cases same
    exact ⟨tidy', published.sound sound, .retire published⟩

end Cache

end TrieCache
