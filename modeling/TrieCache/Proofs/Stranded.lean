import TrieCache.Proofs.Growth
import TrieCache.Proofs.Reachability

/-!
# Leaves that nothing leads to

A leaf that the fast path has dropped and that no walk reaches holds a copy of its block
that no access uses.  Tables are built again for the same blocks, and blocks are put back on
the fast path, but neither leads to such a leaf again: an operation makes a leaf resolve only
when it builds it.  The leaf stays as it is, out of reach, until its slot is taken.
-/

namespace TrieCache

namespace View

/-- A leaf holds a copy of a block that does not resolve to it. -/
structure Lost (view : View) (index tag : Nat) : Prop where
  held : ∃ copy, view.copies index = some copy ∧ copy.tag = tag
  unresolved : ¬ view.Resolves tag index

theorem Lost.accessed {before after : View} {index tag other place : Nat} {access : Access}
    {byte : Option UInt8} (lost : before.Lost index tag)
    (accessed : before.Accessed other place access byte after) : after.Lost index tag := by
  obtain ⟨copy, holds, tagged⟩ := lost.held
  cases accessed with
  | miss unresolved => exact lost
  | @hit middle target found byte rerouted resolves direct holds' tagged' answer =>
    refine ⟨?_, fun resolves' => lost.unresolved (rerouted.resolves resolves')⟩
    by_cases here : index = target
    · subst here
      cases holds.symm.trans holds'
      exact ⟨_, Function.update_self _ _ _, (Copy.tag_access _ _ _).trans tagged⟩
    · exact ⟨copy, (Function.update_of_ne here _ _).trans holds, tagged⟩

theorem Lost.published {before after : View} {index tag : Nat} {chosen : Nat → Nat → Bool}
    (lost : before.Lost index tag) (published : before.Published chosen after) :
    after.Lost index tag := by
  obtain ⟨copy, holds, tagged⟩ := lost.held
  refine ⟨⟨_, (published.copies index).trans (congrArg _ holds), ?_⟩, fun resolves => ?_⟩
  · dsimp only
    split <;> exact tagged
  · rw [published.same] at resolves
    exact lost.unresolved resolves

end View

namespace Cache

variable {cache before after : Cache} {index tag : Nat}

def pathOf : Checked (List Nat × Cache) → List Nat
  | .ok (built, _) => built
  | .error _ => []

/-- The slots that an operation takes from what they held and builds anew. -/
def taken (cache : Cache) : Command → List Nat
  | .insert address value =>
    pathOf (cache.installPath address fun offset bytes => bytes.setIfInBounds offset value)
  | .fill address block => pathOf (cache.installPath address fun _ _ => block)
  | _ => []

/-- The slots that are taken in the course of a run. -/
def takenAll (cache : Cache) : List Command → List Nat
  | [] => []
  | command :: commands =>
    cache.taken command ++
      match cache.run command with
      | .ok (_, after) => after.takenAll commands
      | .error _ => []

/-- A leaf carries a tag, and neither the fast path nor a walk finds the block there. -/
structure Stranded (cache : Cache) (index tag : Nat) : Prop where
  leaf : ∃ block, cache.Carries tag index block
  hidden : ¬ cache.Locates tag index

theorem lost_of_installPath (sound : cache.view.Sound) (tidy : cache.Tidy) {address : Address}
    {content : Nat → Array UInt8 → Array UInt8} {bytes : Array UInt8} {built : List Nat}
    (bytes_eq : content (cache.layout.placeOf address)
      (Array.replicate cache.layout.blockBytes 0) = bytes)
    (whole : bytes.size = cache.layout.blockBytes)
    (ran : cache.installPath address content = .ok (built, after)) (spared : index ∉ built)
    (lost : cache.view.Lost index tag) : after.view.Lost index tag := by
  obtain ⟨leaf, isLast, _, _, inserted⟩ :=
    (installPath_outcome sound tidy bytes_eq whole).of_eq_ok ran
  have putIn := putIn_of_installPath sound tidy bytes_eq whole ran
  have other : index ≠ leaf := by
    rintro rfl
    exact spared (List.mem_of_getLast? isLast)
  obtain ⟨copy, holds, tagged⟩ := lost.held
  obtain ⟨block, found, seen⟩ := Pool.look_eq_some_iff.mp holds
  obtain ⟨valid, level, _⟩ := Block.copy?_eq_some_iff.mp seen
  -- the slot is still a leaf, and a leaf beside the new one holds what it held
  obtain ⟨same, found', valid', level'⟩ := putIn.others spared found
  have layout : after.layout = cache.layout := congrArg Frame.layout inserted.frame
  have holds' : after.view.copies index = some _ :=
    (Pool.look_of_block found' _).trans (Block.copy?_eq_some_iff.mpr
      ⟨valid'.trans valid, by rw [level', level, layout], rfl⟩)
  have kept := inserted.copies other holds'
  refine ⟨⟨_, holds', ?_⟩, fun resolves => ?_⟩
  · cases holds.symm.trans kept
    exact tagged
  · rcases inserted.resolves resolves with ⟨_, isLeaf⟩ | ⟨_, resolves'⟩
    · exact other isLeaf
    · exact lost.unresolved resolves'

/-- An operation brings a lost leaf back only by building in its slot. -/
theorem lost_of_run (sound : cache.view.Sound) (tidy : cache.Tidy) {command : Command}
    {reply : Reply} (ran : cache.run command = .ok (reply, after))
    (spared : index ∉ cache.taken command) (lost : cache.view.Lost index tag) :
    after.view.Lost index tag := by
  obtain ⟨_, _, effect⟩ := run_effect sound tidy ran
  have regular : cache.layout.Regular := sound.founded.regular
  cases command with
  | insert address value =>
    obtain ⟨⟨leaf, _⟩, inserted, same⟩ := bind_eq_ok_iff.mp ran
    cases same
    obtain ⟨⟨built, _⟩, installed, same⟩ := bind_eq_ok_iff.mp inserted
    cases same
    rw [taken, installed] at spared
    refine lost_of_installPath sound tidy rfl ?_ installed spared lost
    rw [Array.size_setIfInBounds, Array.size_replicate]
  | fill address block =>
    obtain ⟨⟨leaf, _⟩, filled, same⟩ := bind_eq_ok_iff.mp ran
    cases same
    rw [fill, regular.blockSize_eq, ok_bind] at filled
    obtain ⟨_, passed, inserted⟩ := bind_eq_ok_iff.mp filled
    obtain ⟨⟨built, _⟩, installed, same⟩ := bind_eq_ok_iff.mp inserted
    cases same
    rw [taken, installed] at spared
    exact lost_of_installPath sound tidy rfl (of_decide_eq_true (require_eq_ok_iff.mp passed))
      installed spared lost
  | access | read | write =>
    cases effect
    next accessed => exact lost.accessed accessed
  | flush | retire =>
    cases effect
    next published => exact lost.published published
  | search | setLocked | drain =>
    generalize after.view = view at effect
    cases effect
    exact ⟨lost.held, lost.unresolved⟩

theorem lost_of_runAll (sound : cache.view.Sound) (tidy : cache.Tidy) {commands : List Command}
    {replies : List Reply} (ran : cache.runAll commands = .ok (replies, after))
    (spared : index ∉ cache.takenAll commands) (lost : cache.view.Lost index tag) :
    after.Tidy ∧ after.view.Sound ∧ after.view.Lost index tag := by
  induction commands generalizing cache replies with
  | nil =>
    cases ran
    exact ⟨tidy, sound, lost⟩
  | cons command commands ih =>
    obtain ⟨⟨reply, middle⟩, first, ran⟩ := bind_eq_ok_iff.mp ran
    obtain ⟨⟨replies', _⟩, rest, same⟩ := bind_eq_ok_iff.mp ran
    cases same
    rw [takenAll, first, List.mem_append, not_or] at spared
    obtain ⟨tidy', sound', _⟩ := run_effect sound tidy first
    exact ih sound' tidy' rest spared.2 (lost_of_run sound tidy first spared.1 lost)

/-- An access finds what resolves: the tag that a leaf carries is that of some address. -/
theorem locates_of_resolves (sound : cache.view.Sound) (tidy : cache.Tidy)
    (inSpace : cache.view.InSpace) (resolves : cache.view.Resolves tag index) :
    cache.Locates tag index := by
  obtain ⟨copy, holds, rfl⟩ := copy_of_resolves sound resolves
  rcases resolves with leads | route
  · exact .inl leads
  · obtain ⟨address, inRange, isTag⟩ := inSpace holds
    change cache.layout.blockOf address = copy.tag at isTag
    obtain ⟨walked, hit⟩ := search_of_path sound tidy inRange (isTag.symm ▸ route)
    exact .inr ⟨address, walked,
      (sound.founded.regular.tag_eq address).trans (congrArg _ isTag), hit⟩

theorem Stranded.lost (stranded : cache.Stranded index tag) (sound : cache.view.Sound)
    (tidy : cache.Tidy) (inSpace : cache.view.InSpace) : cache.view.Lost index tag := by
  obtain ⟨block, carries⟩ := stranded.leaf
  exact ⟨⟨_, carries.holds, rfl⟩,
    fun resolves => stranded.hidden (locates_of_resolves sound tidy inSpace resolves)⟩

theorem stranded_of_lost (sound : cache.view.Sound) (tidy : cache.Tidy)
    (lost : cache.view.Lost index tag) : cache.Stranded index tag := by
  obtain ⟨copy, holds, rfl⟩ := lost.held
  obtain ⟨block, carries, _⟩ := carries_of_copy tidy holds
  exact ⟨⟨block, carries⟩, fun locates => lost.unresolved (locates.resolves sound tidy)⟩

theorem ne_some_of_resolve (sound : cache.view.Sound) (tidy : cache.Tidy)
    (lost : cache.view.Lost index tag) {address : Address} {found : Option Nat} {resolved : Cache}
    (ran : cache.resolve address = .ok (found, resolved)) : found ≠ some index := by
  rintro rfl
  obtain ⟨_, _, resolves, _⟩ := (resolve_outcome sound tidy address).of_eq_ok ran
  obtain ⟨copy, holds, tagged⟩ := copy_of_resolves sound resolves
  obtain ⟨copy', holds', tagged'⟩ := lost.held
  cases holds.symm.trans holds'
  rw [← tagged, tagged'] at resolves
  exact lost.unresolved resolves

/-- A leaf that a run left behind stays where it is, and nothing leads to it, in every run
from there on that does not take its slot. -/
theorem stranded_of_runAll {config : Config} {commands later : List Command}
    {replies replies' : List Reply} (made : ofConfig config = .ok cache)
    (ran : cache.runAll commands = .ok (replies, before)) (stranded : before.Stranded index tag)
    (ran' : before.runAll later = .ok (replies', after)) (spared : index ∉ before.takenAll later) :
    after.Stranded index tag ∧ ∀ address found resolved,
      after.resolve address = .ok (found, resolved) → found ≠ some index := by
  have ready := ready_of_ofConfig made
  cases ready.runAll ran with
  | sound tidy sound =>
    have inSpace := ready.inSpace_of_runAll (blank_of_ofConfig made).inSpace ran
    obtain ⟨tidy', sound', lost⟩ :=
      lost_of_runAll sound tidy ran' spared (stranded.lost sound tidy inSpace)
    exact ⟨stranded_of_lost sound' tidy' lost, fun _ _ _ => ne_some_of_resolve sound' tidy' lost⟩
  | vacant vacant =>
    obtain ⟨block, carries⟩ := stranded.leaf
    exact absurd carries vacant.not_carries

/-- Three blocks on three levels, and a fast path of one entry: the leaf of the first block is
cut off by the third.  It stays stranded when its block is put in again elsewhere. -/
theorem stranded_after_refill : ∃ cache before after replies replies',
    ofConfig { Config.tiny with levels := 3, fastPathSize := 1 } = .ok cache ∧
      cache.runAll [.insert 0x01 1, .insert 0x10 2, .insert 0x20 3] = .ok (replies, before) ∧
      before.Stranded 2 0 ∧
      before.runAll [.setLocked 2 true, .insert 0x03 9, .insert 0x10 4, .read 0x03] =
        .ok (replies', after) ∧
      2 ∉ before.takenAll [.setLocked 2 true, .insert 0x03 9, .insert 0x10 4, .read 0x03] ∧
      after.Stranded 2 0 ∧ ∀ address found resolved,
        after.resolve address = .ok (found, resolved) → found ≠ some 2 := by
  have answers : (do
      let cache ← ofConfig { Config.tiny with levels := 3, fastPathSize := 1 }
      let result ← cache.runAll [.insert 0x01 1, .insert 0x10 2, .insert 0x20 3]
      let later : List Command := [.setLocked 2 true, .insert 0x03 9, .insert 0x10 4, .read 0x03]
      let result' ← result.2.runAll later
      let walked ← result.2.search 0x00
      return (result'.1, walked.1, result.2.fastPath.lookup (result.2.layout.blockOf 0x00),
        (result.2.view.copies 2).map Copy.tag,
        result.2.layout.contains 0x00 && decide (2 ∉ result.2.takenAll later))) =
          .ok ([.done, .index 4, .index 7, .byte (some 9)], .miss none, none, some 0, true) := by
    decide +kernel
  obtain ⟨cache, made, answers⟩ := bind_eq_ok_iff.mp answers
  obtain ⟨⟨replies, before⟩, ran, answers⟩ := bind_eq_ok_iff.mp answers
  obtain ⟨⟨replies', after⟩, ran', answers⟩ := bind_eq_ok_iff.mp answers
  obtain ⟨⟨walk, walked⟩, searched, answers⟩ := bind_eq_ok_iff.mp answers
  simp only [pure_eq_ok, Except.ok.injEq, Prod.mk.injEq, Bool.and_eq_true, decide_eq_true_eq]
    at answers
  obtain ⟨rfl, rfl, absent, held, inRange, spared⟩ := answers
  have usable : Config.Usable { Config.tiny with levels := 3, fastPathSize := 1 } :=
    ⟨rfl, ⟨4, rfl, by decide⟩, by decide, by decide⟩
  obtain ⟨tidy, sound, _⟩ := counts_of_runAll usable made ran
  have missed : ∀ index walked, before.search 0x00 ≠ .ok (.hit index, walked) := by
    intro index walked' hit
    rw [searched] at hit
    cases hit
  have block_eq : before.layout.blockOf 0x00 = 0 := Nat.zero_div _
  have unresolved := unresolved_of_missed sound tidy missed absent inRange 2
  rw [block_eq] at unresolved
  have stranded := stranded_of_lost sound tidy ⟨Option.map_eq_some_iff.mp held, unresolved⟩
  exact ⟨cache, before, after, replies, _, made, ran, stranded, ran', spared,
    stranded_of_runAll made ran stranded ran' spared⟩

end Cache

end TrieCache
