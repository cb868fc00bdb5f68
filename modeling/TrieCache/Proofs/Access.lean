import TrieCache.Cache.Access
import TrieCache.Proofs.Search

/-!
# What an access does

An access goes to the leaf that its block resolves to, and changes nothing else but the
fast path, which it may point at that leaf.  On a miss the block resolves nowhere.
-/

namespace TrieCache

namespace Copy

/-- The copy after an access to one of its bytes. -/
def access (place : Nat) (copy : Copy) : Access → Copy
  | .read => copy
  | .write value => { copy with bytes := copy.bytes.setIfInBounds place value, dirty := true }

@[simp]
theorem tag_access (place : Nat) (copy : Copy) (access : Access) :
    (copy.access place access).tag = copy.tag := by
  cases access <;> rfl

end Copy

namespace View

/-- Only the fast path changed, and it makes nothing new resolve. -/
structure Rerouted (before after : View) : Prop where
  same : after = { before with shortcut := after.shortcut, sequence := after.sequence }
  sequence_le : after.sequence ≤ before.sequence + 1
  resolves {tag index : Nat} : after.Resolves tag index → before.Resolves tag index

/-- What an access answers and changes. -/
inductive Accessed (before : View) (tag place : Nat) (access : Access) :
    Option UInt8 → View → Prop
  | miss (unresolved : ∀ index, ¬ before.Resolves tag index) :
    Accessed before tag place access none before
  | hit {middle : View} {index : Nat} {copy : Copy} {byte : UInt8}
      (rerouted : before.Rerouted middle) (resolves : before.Resolves tag index)
      (direct : before.shortcut tag ≠ none → middle = before)
      (holds : before.copies index = some copy) (tagged : copy.tag = tag)
      (answer : (copy.access place access).bytes[place]? = some byte) :
    Accessed before tag place access (some byte)
      { middle with
        copies := Function.update before.copies index (some (copy.access place access)) }

namespace Rerouted

variable {before after : View} (rerouted : before.Rerouted after)
include rerouted

theorem frame : after.frame = before.frame := by
  rw [rerouted.same]

theorem copies : after.copies = before.copies := by
  rw [rerouted.same]

theorem locked : after.locked = before.locked := by
  rw [rerouted.same]

theorem queue : after.queue = before.queue := by
  rw [rerouted.same]

theorem trie : after.trie = before.trie := by
  rw [rerouted.same]

end Rerouted

/-- What the leaves hold has no part in it. -/
theorem Rerouted.withCopies {before after : View} (rerouted : before.Rerouted after)
    (copies : Nat → Option Copy) : Rerouted { before with copies } { after with copies } where
  same := by
    rw [rerouted.same]
  sequence_le := rerouted.sequence_le
  resolves := fun resolves => rerouted.resolves resolves

theorem Rerouted.refl (view : View) : view.Rerouted view where
  same := rfl
  sequence_le := Nat.le_succ _
  resolves := fun resolves => resolves

theorem Rerouted.sound {before after : View} (rerouted : before.Rerouted after)
    (sound : before.Sound) : after.Sound := by
  have same := rerouted.same
  rw [same]
  refine sound.withShortcut fun leads => rerouted.resolves ?_
  exact .inl leads

theorem Sound.withCopies {view : View} (sound : view.Sound) (copies : Nat → Option Copy) :
    Sound { view with copies } :=
  ⟨sound.founded, sound.linked, sound.placed, sound.tagged, sound.agree⟩

namespace Accessed

variable {before after : View} {tag place : Nat} {access : Access} {byte : Option UInt8}
  (accessed : before.Accessed tag place access byte after)
include accessed

theorem sound (sound : before.Sound) : after.Sound := by
  cases accessed with
  | miss unresolved => exact sound
  | hit rerouted resolves direct holds tagged answer => exact (rerouted.sound sound).withCopies _

theorem frame : after.frame = before.frame := by
  cases accessed with
  | miss unresolved => rfl
  | hit rerouted resolves direct holds tagged answer => exact rerouted.frame

theorem locked : after.locked = before.locked := by
  cases accessed with
  | miss unresolved => rfl
  | hit rerouted resolves direct holds tagged answer => exact rerouted.locked

theorem queue : after.queue = before.queue := by
  cases accessed with
  | miss unresolved => rfl
  | hit rerouted resolves direct holds tagged answer => exact rerouted.queue

theorem trie : after.trie = before.trie := by
  cases accessed with
  | miss unresolved => rfl
  | hit rerouted resolves direct holds tagged answer => exact rerouted.trie

theorem resolves_before {other index : Nat} (resolves : after.Resolves other index) :
    before.Resolves other index := by
  cases accessed with
  | miss unresolved => exact resolves
  | hit rerouted _ direct holds tagged answer => exact rerouted.resolves resolves

theorem sequence_le : after.sequence ≤ before.sequence + 1 := by
  cases accessed with
  | miss unresolved => exact Nat.le_succ _
  | hit rerouted resolves direct holds tagged answer => exact rerouted.sequence_le

/-- A block on the fast path is found without any change to it. -/
theorem sequence_eq (leads : before.shortcut tag ≠ none) : after.sequence = before.sequence := by
  cases accessed with
  | miss unresolved => rfl
  | hit rerouted resolves direct holds tagged answer =>
    have same := congrArg View.sequence (direct leads)
    exact same

end Accessed

theorem Accessed.unresolved {before after : View} {tag place : Nat} {access : Access}
    (accessed : before.Accessed tag place access none after) :
    (∀ index, ¬ before.Resolves tag index) ∧ after = before := by
  cases accessed with
  | miss unresolved => exact ⟨unresolved, rfl⟩

theorem Accessed.exists_resolves {before after : View} {tag place : Nat} {access : Access}
    {byte : UInt8} (accessed : before.Accessed tag place access (some byte) after) :
    ∃ index, before.Resolves tag index := by
  cases accessed with
  | hit rerouted resolves direct holds tagged answer => exact ⟨_, resolves⟩

end View

/-- The counts of the fast path leave their words. -/
def FastPathOverflow (view : View) (fault : Fault) : Prop :=
  (fault = .addOverflow ∧ 2 ^ 64 ≤ view.sequence + 1) ∨
    (fault = .multiplyOverflow ∧ 2 ^ 63 ≤ view.frame.fastPathCapacity)

namespace Cache

variable {cache : Cache} {address : Address}

theorem Tidy.record (tidy : cache.Tidy) (change : Stats → Stats) : (cache.record change).Tidy :=
  ⟨tidy.hand_lt, tidy.shaped, tidy.bounded, tidy.recorded⟩

@[simp]
theorem view_record (cache : Cache) (change : Stats → Stats) :
    (cache.record change).view = cache.view :=
  rfl

theorem installFastPath_outcome (tidy : cache.Tidy) (tag index : Nat) :
    Ends (cache.installFastPath tag index)
      (fun after => after.Tidy ∧ after.view = { cache.view with
          shortcut := after.view.shortcut, sequence := after.view.sequence } ∧
        after.view.sequence ≤ cache.view.sequence + 1 ∧
        after.view.shortcut tag = some index ∧
        ∀ other target, other ≠ tag → after.view.shortcut other = some target →
          cache.view.shortcut other = some target)
      (FastPathOverflow cache.view) := by
  refine Ends.bind (FastPath.insert_outcome tidy.recorded tag index) ?_
  rintro ⟨evicted, fastPath⟩ ⟨recorded, capacity, sequence_le, here, elsewhere⟩
  let after : Cache := { cache with fastPath }
  have tidy' : after.Tidy := ⟨tidy.hand_lt, tidy.shaped, tidy.bounded, recorded⟩
  have frame : after.frame = cache.frame := by
    simp only [after, Cache.frame, capacity]
  have view : after.view = { cache.view with
      shortcut := fastPath.lookup, sequence := fastPath.nextSequence } :=
    View.ext frame rfl rfl rfl rfl rfl rfl
  have others : ∀ other target, other ≠ tag → fastPath.lookup other = some target →
      cache.view.shortcut other = some target := by
    intro other target distinct leads
    rw [elsewhere other distinct] at leads
    split at leads
    · cases leads
    · exact leads
  dsimp only
  split
  · exact ⟨tidy'.record _, view, sequence_le, here, others⟩
  · exact ⟨tidy', view, sequence_le, here, others⟩

/-- Why an access may fail: the address is refused, or its block must be put on a fast path
that cannot count any further. -/
def Inaccessible (cache : Cache) (address : Address) (fault : Fault) : Prop :=
  cache.layout.contains address = false ∨
    (cache.view.shortcut (cache.layout.blockOf address) = none ∧ FastPathOverflow cache.view fault)

theorem resolve_outcome (sound : cache.view.Sound) (tidy : cache.Tidy) (address : Address) :
    Ends (cache.resolve address)
      (fun (found, after) => after.Tidy ∧
        match found with
        | some index => cache.view.Rerouted after.view ∧
          cache.view.Resolves (cache.layout.blockOf address) index ∧
          (cache.view.shortcut (cache.layout.blockOf address) ≠ none → after.view = cache.view)
        | none => after.view = cache.view ∧
          ∀ index, ¬ cache.view.Resolves (cache.layout.blockOf address) index)
      (cache.Inaccessible address) := by
  have regular : cache.layout.Regular := sound.founded.regular
  refine (search_outcome sound tidy address).andThen (fun _ outside => .inl outside) ?_
  rintro ⟨walk, walked⟩ ⟨unmoved, ends⟩
  have isTag : walked.layout.tag address = .ok (cache.layout.blockOf address) := by
    rw [unmoved.layout]
    exact regular.tag_eq address
  have lookup : walked.fastPath.lookup = cache.view.shortcut :=
    congrArg View.shortcut unmoved.view
  dsimp only
  rw [isTag, ok_bind, lookup]
  cases shortcut : cache.view.shortcut (cache.layout.blockOf address) with
  | some index =>
    have same : (walked.record Stats.recordFastPathHit).view = cache.view := unmoved.view
    refine ⟨unmoved.tidy.record _, same ▸ .refl _, .inl shortcut, fun _ => same⟩
  | none =>
    cases walk with
    | hit index =>
      refine (installFastPath_outcome (unmoved.tidy.record _) _ index).andThen
        (fun fault overflow => ?_) ?_
      · rw [view_record, unmoved.view] at overflow
        exact .inr ⟨shortcut, overflow⟩
      · rintro after ⟨tidy', same, sequence_le, here, others⟩
        rw [view_record, unmoved.view] at same sequence_le others
        refine ⟨tidy', ⟨same, sequence_le, ?_⟩, .inr ends, fun there => absurd rfl there⟩
        rintro tag target (leads | route)
        · by_cases isTag : tag = cache.layout.blockOf address
          · rw [isTag] at leads ⊢
            rw [here, Option.some.injEq] at leads
            exact .inr (leads ▸ ends)
          · exact .inl (others tag target isTag leads)
        · rw [same] at route
          exact .inr route
    | miss anchor =>
      refine ⟨unmoved.tidy.record _, unmoved.view, ?_⟩
      obtain ⟨level, level_lt, route, free⟩ := ends
      rintro index (leads | whole)
      · rw [shortcut] at leads
        cases leads
      · exact View.not_route_of_free level_lt route free index whole

theorem perform_spec (tidy : cache.Tidy) {index : Nat} {copy : Copy}
    (holds : cache.view.copies index = some copy) {place : Nat}
    (inside : place < cache.layout.blockBytes) (access : Access) :
    ∃ byte after, cache.perform index place access = .ok (byte, after) ∧ after.Tidy ∧
      (copy.access place access).bytes[place]? = some byte ∧
      after.view = { cache.view with
        copies := Function.update cache.view.copies index (some (copy.access place access)) } := by
  obtain ⟨block, found, seen⟩ := Pool.look_eq_some_iff.mp holds
  obtain ⟨valid, level, rfl⟩ := Block.copy?_eq_some_iff.mp seen
  obtain ⟨bytes, payload, size⟩ := tidy.data_of_leaf found valid level
  have isBytes : block.bytes? = some bytes := by rw [Block.bytes?, payload]
  have place_lt : place < bytes.size := size ▸ inside
  rw [perform, Pool.get_eq_ok_iff.mpr found, ok_bind, isBytes]
  dsimp only
  rw [Array.getElem?_eq_getElem place_lt]
  cases access with
  | read =>
    refine ⟨bytes[place], cache, rfl, tidy, ?_, ?_⟩
    · simp [Copy.access, place_lt]
    · have kept : some (Copy.access place
          { tag := block.tag, bytes := (some bytes).getD #[], dirty := block.dirty } .read) =
            cache.view.copies index := by
        rw [holds, isBytes]
        rfl
      rw [kept, Function.update_eq_self]
  | write value =>
    have changed : { block.setByte place value with dirty := true } =
        { block with payload := .data (bytes.setIfInBounds place value), dirty := true } := by
      simp [Block.setByte, Block.mapBytes, payload]
    refine ⟨value, { cache with pool := cache.pool.modify index fun block =>
      { block.setByte place value with dirty := true } }, ?_, ?_, ?_, ?_⟩
    · dsimp only
      rw [updateBlock_eq_ok (Pool.lt_capacity_of_block found)]
      rfl
    · refine tidy.modify (fun block' found' _ => ?_) fun block' bound => ?_
      · cases found.symm.trans found'
        rw [changed]
        exact .leaf valid level _ rfl (by simpa using size)
      · change (block'.mapBytes _).reference ≤ cache.maxReference
        rwa [Block.reference_mapBytes]
    · simp [Copy.access, place_lt]
    · rw [view_modify_leaf found valid level payload changed]
      rfl

theorem access_outcome (sound : cache.view.Sound) (tidy : cache.Tidy) (address : Address)
    (access : Access) :
    Ends (cache.access address access)
      (fun (byte, after) => after.Tidy ∧
        cache.view.Accessed (cache.layout.blockOf address) (cache.layout.placeOf address) access
          byte after.view)
      (cache.Inaccessible address) := by
  have regular : cache.layout.Regular := sound.founded.regular
  refine (Ends.require (cache.layout.contains address) _).andThen
    (fun _ failed => .inl failed.1) fun _ _ => ?_
  have sound' : (cache.record Stats.recordAccess).view.Sound := sound
  refine Ends.bind (resolve_outcome sound' (tidy.record _) address) ?_
  rintro ⟨found, resolved⟩ ⟨tidy', found_spec⟩
  cases found with
  | none =>
    obtain ⟨same, unresolved⟩ := found_spec
    refine ⟨tidy', ?_⟩
    rw [same]
    exact .miss unresolved
  | some index =>
    obtain ⟨rerouted, resolves, direct⟩ := found_spec
    have layout : resolved.layout = cache.layout := congrArg Frame.layout rerouted.frame
    have offset : resolved.layout.offset address = .ok (cache.layout.placeOf address) := by
      rw [layout]
      exact regular.offset_eq address
    obtain ⟨copy, holds, tagged⟩ := exists_copy_iff.mpr (sound.node_of_resolves resolves)
    have copies : resolved.view.copies = cache.view.copies := rerouted.copies
    have holds' : resolved.view.copies index = some copy := copies ▸ holds
    have inside : cache.layout.placeOf address < resolved.layout.blockBytes :=
      layout ▸ cache.layout.placeOf_lt address
    obtain ⟨byte, after, performed, tidy'', answer, view⟩ := perform_spec tidy' holds' inside access
    dsimp only
    rw [offset, ok_bind, performed, ok_bind]
    refine ⟨tidy'', ?_⟩
    rw [view, copies]
    exact .hit rerouted resolves direct holds tagged answer

end Cache

end TrieCache
