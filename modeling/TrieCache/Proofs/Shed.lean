import TrieCache.Proofs.Sound

/-!
# What replacement takes away

Making room for a block takes other blocks out and puts tables in.  Such steps may drop
copies, but none of them changes a copy, makes another one resolve, or drops changed data
without queueing it.  So the changed copies and the queue together never grow.
-/

namespace TrieCache

theorem countP_eq_range {α : Type} (list : List α) (good : α → Bool) :
    list.countP good = (List.range list.length).countP fun index => list[index]?.any good := by
  induction list with
  | nil => rfl
  | cons first rest ih =>
    rw [List.length_cons, List.range_succ_eq_map, List.countP_cons, List.countP_cons,
      List.countP_map, ih]
    simp [Function.comp_def]

theorem countP_range_of_eq_off {count index : Nat} {before after : Nat → Bool}
    (index_lt : index < count) (same : ∀ other, other ≠ index → after other = before other) :
    (List.range count).countP after + (before index).toNat =
      (List.range count).countP before + (after index).toNat := by
  induction count with
  | zero => omega
  | succ count ih =>
    rw [List.range_succ, List.countP_append, List.countP_append, List.countP_singleton,
      List.countP_singleton]
    by_cases isLast : index = count
    · subst isLast
      have others : (List.range index).countP after = (List.range index).countP before := by
        refine List.countP_congr fun other isOther => ?_
        rw [same other (Nat.ne_of_lt (List.mem_range.mp isOther))]
      rw [others]
      cases before index <;> cases after index <;> simp
    · have counted := ih (by omega)
      rw [same count (Ne.symm isLast)]
      omega

namespace View

def changed (view : View) : Nat :=
  (List.range view.frame.capacity).countP fun index => (view.copies index).any Copy.dirty

/-- The number of blocks that the store is still to take. -/
def pending (view : View) : Nat :=
  view.queue.length + view.changed

/-- What making room keeps. -/
structure Shed (before after : View) : Prop where
  frame : after.frame = before.frame
  locked : after.locked = before.locked
  sequence : after.sequence = before.sequence
  resolves {tag index : Nat} : after.Resolves tag index → before.Resolves tag index
  copies {index : Nat} {copy : Copy} : after.copies index = some copy →
    before.copies index = some copy
  queue : ∃ added, after.queue = before.queue ++ added ∧
    (∀ writeback ∈ added, ∃ index copy, before.copies index = some copy ∧ copy.dirty = true ∧
      writeback = copy.writeback) ∧
    ∀ index copy, before.copies index = some copy → copy.dirty = true →
      after.copies index = some copy ∨ copy.writeback ∈ added
  pending : after.pending = before.pending

theorem changed_of_update {before after : View} {index : Nat} {copy : Option Copy}
    (index_lt : index < before.frame.capacity) (frame : after.frame = before.frame)
    (copies : after.copies = Function.update before.copies index copy) :
    after.changed + ((before.copies index).any Copy.dirty).toNat =
      before.changed + (copy.any Copy.dirty).toNat := by
  have same : ∀ other, other ≠ index →
      (after.copies other).any Copy.dirty = (before.copies other).any Copy.dirty := by
    intro other distinct
    rw [copies, Function.update_of_ne distinct]
  have counted := countP_range_of_eq_off index_lt same
  rw [copies, Function.update_self, ← copies, ← frame] at counted
  rw [changed, changed, ← frame]
  exact counted

namespace Shed

variable {before middle after : View}

theorem trans (first : before.Shed middle) (second : middle.Shed after) : before.Shed after where
  frame := second.frame.trans first.frame
  locked := second.locked.trans first.locked
  sequence := second.sequence.trans first.sequence
  resolves := fun resolves => first.resolves (second.resolves resolves)
  copies := fun holds => first.copies (second.copies holds)
  queue := by
    obtain ⟨early, queue, fromEarly, early_kept⟩ := first.queue
    obtain ⟨late, queue', fromLate, late_kept⟩ := second.queue
    refine ⟨early ++ late, by rw [queue', queue, List.append_assoc], ?_, ?_⟩
    · intro writeback isAdded
      rcases List.mem_append.mp isAdded with isEarly | isLate
      · exact fromEarly writeback isEarly
      · obtain ⟨index, copy, holds, dirty, same⟩ := fromLate writeback isLate
        exact ⟨index, copy, first.copies holds, dirty, same⟩
    · intro index copy holds dirty
      rcases early_kept index copy holds dirty with holds' | isEarly
      · rcases late_kept index copy holds' dirty with holds'' | isLate
        · exact .inl holds''
        · exact .inr (List.mem_append_right _ isLate)
      · exact .inr (List.mem_append_left _ isEarly)
  pending := second.pending.trans first.pending

end Shed

variable {view : View}

theorem shed_remove {victim : Nat} (victim_lt : victim < view.frame.capacity)
    (children : List Nat) : view.Shed (view.remove victim children) where
  frame := rfl
  locked := rfl
  sequence := rfl
  resolves := resolves_of_remove
  copies := by
    intro index copy holds
    by_cases isVictim : index = victim
    · subst isVictim
      simp [remove] at holds
    · rwa [copies_remove, Function.update_of_ne isVictim] at holds
  queue := by
    refine ⟨((view.copies victim).filter Copy.dirty).toList.map Copy.writeback, rfl, ?_, ?_⟩
    · intro writeback isAdded
      simp only [List.mem_map, Option.mem_toList, Option.filter_eq_some_iff] at isAdded
      obtain ⟨copy, ⟨holds, dirty⟩, same⟩ := isAdded
      exact ⟨victim, copy, holds, dirty, same.symm⟩
    · intro index copy holds dirty
      by_cases isVictim : index = victim
      · subst isVictim
        refine .inr (List.mem_map_of_mem ?_)
        rw [Option.mem_toList, Option.filter_eq_some_iff]
        exact ⟨holds, dirty⟩
      · refine .inl ?_
        rwa [copies_remove, Function.update_of_ne isVictim]
  pending := by
    have counted : (view.remove victim children).changed +
        ((view.copies victim).any Copy.dirty).toNat = view.changed + (none.any Copy.dirty).toNat :=
      changed_of_update victim_lt rfl (copies_remove view victim children)
    have queued : (((view.copies victim).filter Copy.dirty).toList.map Copy.writeback).length =
        ((view.copies victim).any Copy.dirty).toNat := by
      cases view.copies victim with
      | none => rfl
      | some copy => cases dirty : copy.dirty <;> simp [Option.filter, dirty]
    have split : (view.remove victim children).queue.length =
        view.queue.length + ((view.copies victim).any Copy.dirty).toNat := by
      rw [← queued, ← List.length_append]
      rfl
    rw [Option.any_none, Bool.toNat_false] at counted
    rw [View.pending, View.pending, split]
    omega

theorem shed_placeTable {owner : Option Nat} {slot index : Nat} {node : Node} (sound : view.Sound)
    (fits : view.trie.Fits owner slot index node) (isTable : node.level ≠ view.frame.layout.depth)
    (vacant : view.copies index = none) : view.Shed (view.place owner slot index node none) := by
  have unchanged : (view.place owner slot index node none).copies = view.copies := by
    rw [place, ← vacant, Function.update_eq_self]
  refine ⟨rfl, rfl, rfl, resolves_of_placeTable sound fits isTable, ?_, ?_, ?_⟩
  · intro other copy holds
    rwa [unchanged] at holds
  · refine ⟨[], by simp [place], by simp, fun other copy holds _ => .inl ?_⟩
    rwa [unchanged]
  · change view.queue.length + View.changed _ = view.queue.length + view.changed
    rw [changed, unchanged]
    rfl

end View

end TrieCache
