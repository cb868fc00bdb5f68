import TrieCache.Proofs.Ledger
import TrieCache.Proofs.Supply

/-!
# Coherent copies

The pool may hold any number of copies of one block: the leaf that the block resolves to,
and leaves that were detached before and may still be dirty.  With the queue and the store
they are coherent with a flat memory when everything that may yet be published is what the
memory holds, when only one copy of a block is dirty, and only the one the block resolves
to if it does, and when the store is behind only on blocks that are still to be published.
-/

namespace TrieCache

namespace Blocks

def access (flat : Blocks) (tag place : Nat) : Access → Blocks
  | .read => flat
  | .write value => Function.update flat tag ((flat tag).setIfInBounds place value)

/-- A flat memory as a ledger of its blocks. -/
def ledger (flat : Blocks) : Ledger :=
  fun tag => some (flat tag)

theorem access_of_ne (flat : Blocks) {tag other : Nat} (distinct : other ≠ tag) (place : Nat)
    (access : Access) : flat.access tag place access other = flat other := by
  cases access with
  | read => rfl
  | write value => exact Function.update_of_ne distinct _ _

theorem ledger_access (flat : Blocks) (tag place : Nat) (access : Access) :
    flat.ledger.access tag place access true = (flat.access tag place access).ledger := by
  cases access with
  | read => rfl
  | write value =>
    funext other
    by_cases here : other = tag
    · simp [Ledger.access, ledger, Blocks.access, here]
    · simp [Ledger.access, ledger, Blocks.access, here]

end Blocks

namespace View

/-- Copies, queue and store agree about what the blocks of a flat memory hold. -/
structure Coherent (view : View) (flat stored : Blocks) : Prop where
  kept : view.Kept flat.ledger
  dirty {index : Nat} {copy : Copy} : view.copies index = some copy → copy.dirty = true →
    copy.bytes = flat copy.tag
  single {first second : Nat} {one other : Copy} : view.copies first = some one →
    view.copies second = some other → one.dirty = true → other.dirty = true →
      one.tag = other.tag → first = second
  /-- Where a block resolves, its other copies are clean. -/
  others {tag index other : Nat} {copy : Copy} : view.Resolves tag index →
    view.copies other = some copy → copy.tag = tag → other ≠ index → copy.dirty = false
  queued {block : Writeback} : block ∈ view.queue → block.bytes = flat block.tag
  /-- What the store does not have is in the queue or in a dirty copy. -/
  stored (tag : Nat) : stored tag = flat tag ∨ (∃ block ∈ view.queue, block.tag = tag) ∨
    ∃ index copy, view.copies index = some copy ∧ copy.tag = tag ∧ copy.dirty = true

namespace Coherent

variable {before after : View} {flat stored : Blocks} (coherent : before.Coherent flat stored)
include coherent

/-- A block without dirty copies is up to date in the store when nothing is queued. -/
theorem stored_eq (idle : before.queue = []) {tag : Nat}
    (clean : ∀ {index : Nat} {copy : Copy}, before.copies index = some copy → copy.tag = tag →
      copy.dirty = false) : stored tag = flat tag := by
  rcases coherent.stored tag with same | ⟨block, isQueued, _⟩ | ⟨index, copy, holds, tagged, dirty⟩
  · exact same
  · rw [idle] at isQueued
    cases isQueued
  · rw [clean holds tagged] at dirty
    cases dirty

theorem rerouted (rerouted : before.Rerouted after) : after.Coherent flat stored where
  kept := by
    refine coherent.kept.of_resolves rerouted.resolves fun {index copy} holds => ⟨copy.dirty, ?_⟩
    rw [rerouted.copies, holds]
  dirty := rerouted.copies ▸ coherent.dirty
  single := rerouted.copies ▸ coherent.single
  others := by
    intro tag index other copy resolves holds
    rw [rerouted.copies] at holds
    exact coherent.others (rerouted.resolves resolves) holds
  queued := rerouted.queue ▸ coherent.queued
  stored := by
    rw [rerouted.queue, rerouted.copies]
    exact coherent.stored

theorem written (sound : before.Sound) (idle : before.queue = []) {tag index place : Nat}
    {copy : Copy} {value : UInt8} (resolves : before.Resolves tag index)
    (holds : before.copies index = some copy) (tagged : copy.tag = tag)
    (kept : View.Kept { before with
      copies := Function.update before.copies index (some (copy.access place (.write value))) }
      (flat.access tag place (.write value)).ledger) :
    Coherent { before with
      copies := Function.update before.copies index (some (copy.access place (.write value))) }
      (flat.access tag place (.write value)) stored := by
  have here : Function.update before.copies index (some (copy.access place (.write value))) index =
      some (copy.access place (.write value)) := Function.update_self _ _ _
  have elsewhere : ∀ {other : Nat}, other ≠ index →
      Function.update before.copies index (some (copy.access place (.write value))) other =
        before.copies other := fun distinct => Function.update_of_ne distinct _ _
  -- a dirty copy elsewhere is of another block
  have foreign : ∀ {other : Nat} {copy' : Copy}, other ≠ index →
      before.copies other = some copy' → copy'.dirty = true → copy'.tag ≠ tag := by
    intro other copy' distinct holds' dirty tagged'
    rw [coherent.others resolves holds' tagged' distinct] at dirty
    cases dirty
  have current : flat tag = copy.bytes :=
    Option.some.inj (coherent.kept.eq_bytes resolves holds)
  refine ⟨kept, ?_, ?_, ?_, ?_, ?_⟩
  · intro other copy' holds' dirty
    by_cases isHere : other = index
    · subst isHere
      cases here.symm.trans holds'
      rw [Copy.tag_access, tagged, Blocks.access, Function.update_self, current]
      rfl
    · have holds' := (elsewhere isHere).symm.trans holds'
      rw [Blocks.access_of_ne flat (foreign isHere holds' dirty), coherent.dirty holds' dirty]
  · intro first second one other holdsFirst holdsSecond dirtyFirst dirtySecond same
    by_cases isFirst : first = index <;> by_cases isSecond : second = index
    · rw [isFirst, isSecond]
    · subst isFirst
      cases here.symm.trans holdsFirst
      have holdsSecond := (elsewhere isSecond).symm.trans holdsSecond
      rw [Copy.tag_access, tagged] at same
      exact absurd same.symm (foreign isSecond holdsSecond dirtySecond)
    · subst isSecond
      cases here.symm.trans holdsSecond
      have holdsFirst := (elsewhere isFirst).symm.trans holdsFirst
      rw [Copy.tag_access, tagged] at same
      exact absurd same (foreign isFirst holdsFirst dirtyFirst)
    · exact coherent.single ((elsewhere isFirst).symm.trans holdsFirst)
        ((elsewhere isSecond).symm.trans holdsSecond) dirtyFirst dirtySecond same
  · intro tag' index' other copy' found holds' tagged' distinct
    have resolves' : before.Resolves tag' index' := found
    by_cases isHere : other = index
    · subst isHere
      cases here.symm.trans holds'
      rw [Copy.tag_access, tagged] at tagged'
      subst tagged'
      exact absurd (sound.resolves_unique resolves resolves') distinct
    · exact coherent.others resolves' ((elsewhere isHere).symm.trans holds') tagged' distinct
  · intro block isQueued
    change block ∈ before.queue at isQueued
    rw [idle] at isQueued
    cases isQueued
  · intro tag'
    by_cases isTag : tag' = tag
    · subst isTag
      exact .inr (.inr ⟨index, _, here, (Copy.tag_access _ _ _).trans tagged, rfl⟩)
    · rw [Blocks.access_of_ne flat isTag]
      refine (coherent.stored tag').imp_right (Or.imp_right ?_)
      rintro ⟨other, copy', holds', tagged', dirty⟩
      have distinct : other ≠ index := by
        rintro rfl
        have same : copy' = copy := Option.some.inj (holds'.symm.trans holds)
        exact isTag (tagged'.symm.trans (same ▸ tagged))
      exact ⟨other, copy', (elsewhere distinct).trans holds', tagged', dirty⟩

/-- An access that hits has the effect of the access on the flat memory. -/
theorem accessed (sound : before.Sound) (idle : before.queue = []) {tag place : Nat}
    {access : Access} {byte : UInt8}
    (accessed : before.Accessed tag place access (some byte) after) :
    after.Coherent (flat.access tag place access) stored ∧
      (flat.access tag place access tag)[place]? = some byte := by
  cases accessed with
  | @hit middle index copy _ rerouted resolves direct holds tagged answer =>
    have current : flat tag = copy.bytes :=
      Option.some.inj (coherent.kept.eq_bytes resolves holds)
    cases access with
    | read =>
      have kept := coherent.rerouted rerouted
      have same : Function.update before.copies index (some (copy.access place .read)) =
          middle.copies := by
        rw [rerouted.copies, Copy.access, ← holds, Function.update_eq_self]
      rw [same]
      refine ⟨kept, ?_⟩
      rw [Blocks.access, current]
      exact answer
    | write value =>
      have kept := coherent.kept.accessed sound
        (.hit (.refl before) resolves (fun _ => rfl) holds tagged answer)
      rw [Option.isSome_some, Blocks.ledger_access] at kept
      refine ⟨(coherent.written sound idle resolves holds tagged kept).rerouted
        (rerouted.withCopies _), ?_⟩
      rw [Blocks.access, Function.update_self, current]
      exact answer

theorem published {chosen : Nat → Nat → Bool} (published : before.Published chosen after) :
    after.Coherent flat stored := by
  have earlier : ∀ {index : Nat} {copy : Copy}, after.copies index = some copy →
      ∃ copy', before.copies index = some copy' ∧ copy.tag = copy'.tag ∧
        (copy.dirty = true → copy' = copy) := by
    intro index copy holds
    rw [published.copies, Option.map_eq_some_iff] at holds
    obtain ⟨copy', holds', rfl⟩ := holds
    refine ⟨copy', holds', ?_⟩
    split
    · exact ⟨rfl, nofun⟩
    · exact ⟨rfl, fun _ => rfl⟩
  obtain ⟨added, queue, added_iff⟩ := published.queue
  refine ⟨coherent.kept.published published, ?_, ?_, ?_, ?_, ?_⟩
  · intro index copy holds dirty
    obtain ⟨_, holds', _, same⟩ := earlier holds
    cases same dirty
    exact coherent.dirty holds' dirty
  · intro first second one other holdsFirst holdsSecond dirtyFirst dirtySecond
    obtain ⟨_, holdsFirst', _, sameFirst⟩ := earlier holdsFirst
    obtain ⟨_, holdsSecond', _, sameSecond⟩ := earlier holdsSecond
    cases sameFirst dirtyFirst
    cases sameSecond dirtySecond
    exact coherent.single holdsFirst' holdsSecond' dirtyFirst dirtySecond
  · intro tag index other copy resolves holds tagged distinct
    rw [published.same] at resolves
    obtain ⟨copy', holds', sameTag, same⟩ := earlier holds
    have clean := coherent.others resolves holds' (sameTag.symm.trans tagged) distinct
    rw [Bool.eq_false_iff]
    intro dirty
    rw [same dirty, dirty] at clean
    cases clean
  · intro block isQueued
    rw [queue, List.mem_append] at isQueued
    rcases isQueued with isOld | isAdded
    · exact coherent.queued isOld
    · obtain ⟨index, copy, holds, _, dirty, rfl⟩ := (added_iff block).mp isAdded
      exact coherent.dirty holds dirty
  · intro tag
    rcases coherent.stored tag with same | ⟨block, isQueued, tagged⟩ |
      ⟨index, copy, holds, tagged, dirty⟩
    · exact .inl same
    · exact .inr (.inl ⟨block, queue ▸ List.mem_append_left _ isQueued, tagged⟩)
    · cases isChosen : chosen index copy.tag with
      | true =>
        have isAdded := (added_iff copy.writeback).mpr ⟨index, copy, holds, isChosen, dirty, rfl⟩
        exact .inr (.inl ⟨copy.writeback, queue ▸ List.mem_append_right _ isAdded, tagged⟩)
      | false =>
        refine .inr (.inr ⟨index, copy, ?_, tagged, dirty⟩)
        rw [published.copies, holds, Option.map_some, isChosen]
        rfl

theorem sent : Coherent { before with queue := [] } flat (stored.receive before.queue) where
  kept := coherent.kept
  dirty := coherent.dirty
  single := coherent.single
  others := coherent.others
  queued := nofun
  stored := by
    intro tag
    rcases coherent.stored tag with same | isQueued | held
    · exact .inl (Blocks.receive_eq (fun _ => coherent.queued) (.inl same))
    · exact .inl (Blocks.receive_eq (fun _ => coherent.queued) (.inr isQueued))
    · exact .inr (.inr held)

/-- A block is filled in as it is when none of its copies is dirty. -/
theorem inserted {tag leaf : Nat} (inserted : before.Inserted tag (flat tag) leaf after)
    (clean : ∀ {index : Nat} {copy : Copy}, before.copies index = some copy → copy.tag = tag →
      copy.dirty = false)
    (stocked : ∀ {tag index : Nat}, after.Resolves tag index →
      ∃ copy, after.copies index = some copy ∧ copy.tag = tag) :
    after.Coherent flat stored := by
  have kept := coherent.kept.inserted inserted stocked
  have same : Function.update flat.ledger tag (some (flat tag)) = flat.ledger :=
    Function.update_eq_self _ _
  rw [same] at kept
  -- the new leaf is clean, so a dirty copy is one of those before
  have earlier : ∀ {index : Nat} {copy : Copy}, after.copies index = some copy →
      copy.dirty = true → before.copies index = some copy := by
    intro index copy holds dirty
    refine inserted.copies ?_ holds
    rintro rfl
    cases inserted.held.symm.trans holds
    cases dirty
  obtain ⟨added, queue, fromBefore, kept'⟩ := inserted.queue
  refine ⟨kept, ?_, ?_, ?_, ?_, ?_⟩
  · intro index copy holds dirty
    exact coherent.dirty (earlier holds dirty) dirty
  · intro first second one other holdsFirst holdsSecond dirtyFirst dirtySecond
    exact coherent.single (earlier holdsFirst dirtyFirst) (earlier holdsSecond dirtySecond)
      dirtyFirst dirtySecond
  · intro tag' index other copy resolves holds tagged distinct
    rw [Bool.eq_false_iff]
    intro dirty
    have holds' := earlier holds dirty
    rcases inserted.resolves resolves with ⟨rfl, _⟩ | ⟨_, resolves'⟩
    · rw [clean holds' tagged] at dirty
      cases dirty
    · rw [coherent.others resolves' holds' tagged distinct] at dirty
      cases dirty
  · intro block isQueued
    rw [queue, List.mem_append] at isQueued
    rcases isQueued with isOld | isAdded
    · exact coherent.queued isOld
    · obtain ⟨index, copy, holds, dirty, rfl⟩ := fromBefore block isAdded
      exact coherent.dirty holds dirty
  · intro tag'
    rcases coherent.stored tag' with same | ⟨block, isQueued, tagged⟩ |
      ⟨index, copy, holds, tagged, dirty⟩
    · exact .inl same
    · exact .inr (.inl ⟨block, queue ▸ List.mem_append_left _ isQueued, tagged⟩)
    · rcases kept' index copy holds dirty with ⟨_, holds'⟩ | isAdded
      · exact .inr (.inr ⟨index, copy, holds', tagged, dirty⟩)
      · exact .inr (.inl ⟨copy.writeback, queue ▸ List.mem_append_right _ isAdded, tagged⟩)

/-- A block of which nothing is cached or queued may be another one in the memory when it is
the same other one in the store. -/
theorem replaced (idle : before.queue = []) {tag : Nat}
    (unresolved : ∀ index, ¬ before.Resolves tag index)
    (clean : ∀ {index : Nat} {copy : Copy}, before.copies index = some copy → copy.tag = tag →
      copy.dirty = false) (bytes : Array UInt8) :
    before.Coherent (Function.update flat tag bytes) (Function.update stored tag bytes) where
  kept := by
    intro other index resolves
    obtain ⟨copy, holds, tagged, current⟩ := coherent.kept resolves
    have distinct : other ≠ tag := by
      rintro rfl
      exact unresolved index resolves
    refine ⟨copy, holds, tagged, ?_⟩
    rw [Blocks.ledger, Function.update_of_ne distinct]
    exact current
  dirty := by
    intro index copy holds dirty
    have distinct : copy.tag ≠ tag := by
      intro tagged
      rw [clean holds tagged] at dirty
      cases dirty
    rw [Function.update_of_ne distinct]
    exact coherent.dirty holds dirty
  single := coherent.single
  others := coherent.others
  queued := by
    intro block isQueued
    rw [idle] at isQueued
    cases isQueued
  stored := by
    intro other
    by_cases here : other = tag
    · rw [here, Function.update_self, Function.update_self]
      exact .inl rfl
    · rw [Function.update_of_ne here, Function.update_of_ne here]
      exact coherent.stored other

/-- After a write the store may have anything of the block, which is still to be published. -/
theorem overwritten {earlier : View} {tag place : Nat} {value byte : UInt8}
    (accessed : earlier.Accessed tag place (.write value) (some byte) before)
    (bytes : Array UInt8) : before.Coherent flat (Function.update stored tag bytes) := by
  refine { coherent with stored := fun other => ?_ }
  by_cases here : other = tag
  · subst here
    cases accessed with
    | @hit middle index copy _ rerouted resolves direct holds tagged answer =>
      refine .inr (.inr ⟨index, copy.access place (.write value), ?_, ?_, rfl⟩)
      · exact Function.update_self _ _ _
      · exact (Copy.tag_access _ _ _).trans tagged
  · rw [Function.update_of_ne here]
    exact coherent.stored other

end Coherent

end View

end TrieCache
