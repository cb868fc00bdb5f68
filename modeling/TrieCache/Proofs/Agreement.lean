import TrieCache.Proofs.Guard

/-!
# Fast path and walk agree

A block is found in two ways, and the fast path wins over the walk.  Where both find it
they find the same leaf, so it makes no difference which one an access takes, and a byte
that was written through one of them is there for the other.
-/

namespace TrieCache.Cache

variable {cache : Cache} {address : Address}

/-- Fast path and walk lead to one copy of the block of an address. -/
structure PathsAgree (cache : Cache) (address : Address) : Prop where
  same {tag index other : Nat} {walked : Cache} : cache.layout.tag address = .ok tag →
    cache.fastPath.lookup tag = some index →
      cache.search address = .ok (.hit other, walked) → index = other
  /-- An access uses the leaf that a walk ends at, whether or not the fast path wins. -/
  used {index : Nat} {found : Option Nat} {walked resolved : Cache} :
    cache.search address = .ok (.hit index, walked) →
      cache.resolve address = .ok (found, resolved) → found = some index
  /-- A byte that was written is found afterwards, wherever fast path or walk lead. -/
  seen {tag offset index : Nat} {value byte : UInt8} {written : Cache} :
    cache.layout.tag address = .ok tag → cache.layout.offset address = .ok offset →
      cache.access address (.write value) = .ok (some byte, written) →
        written.Locates tag index →
          ∃ block bytes, written.Carries tag index block ∧ block.bytes? = some bytes ∧
            bytes[offset]? = some value

theorem resolves_of_search (sound : cache.view.Sound) (tidy : cache.Tidy) {index : Nat}
    {walked : Cache} (searched : cache.search address = .ok (.hit index, walked)) :
    cache.view.Resolves (cache.layout.blockOf address) index :=
  .inr ((search_outcome sound tidy address).of_eq_ok searched).2

theorem eq_some_of_resolve (sound : cache.view.Sound) (tidy : cache.Tidy) {index : Nat}
    {found : Option Nat} {resolved : Cache}
    (resolves : cache.view.Resolves (cache.layout.blockOf address) index)
    (ran : cache.resolve address = .ok (found, resolved)) : found = some index := by
  obtain ⟨_, outcome⟩ := (resolve_outcome sound tidy address).of_eq_ok ran
  cases found with
  | none => exact absurd resolves (outcome.2 index)
  | some other => exact congrArg some (sound.resolves_unique outcome.2.1 resolves)

/-- A write that hits is in the only copy that its block resolves to. -/
theorem byte_of_written (sound : cache.view.Sound) (tidy : cache.Tidy) {value byte : UInt8}
    {written : Cache} (ran : cache.access address (.write value) = .ok (some byte, written))
    {index : Nat} (locates : written.Locates (cache.layout.blockOf address) index) :
    ∃ block bytes, written.Carries (cache.layout.blockOf address) index block ∧
      block.bytes? = some bytes ∧ bytes[cache.layout.placeOf address]? = some value := by
  obtain ⟨tidy', accessed⟩ := (access_outcome sound tidy address (.write value)).of_eq_ok ran
  have resolves' := locates.resolves (accessed.sound sound) tidy'
  have layout : written.layout = cache.layout := congrArg Frame.layout accessed.frame
  generalize after_eq : written.view = after at accessed resolves'
  cases accessed with
  | @hit middle target copy _ rerouted resolves direct holds tagged answer =>
    obtain rfl : index = target :=
      sound.resolves_unique (rerouted.resolves resolves') resolves
    have holds' : written.view.copies index =
        some (copy.access (cache.layout.placeOf address) (.write value)) := by
      rw [after_eq]
      exact Function.update_self _ _ _
    obtain ⟨block, found, seen⟩ := Pool.look_eq_some_iff.mp holds'
    obtain ⟨valid, level, copy_eq⟩ := Block.copy?_eq_some_iff.mp seen
    obtain ⟨bytes, payload, _⟩ := tidy'.data_of_leaf found valid level
    have isBytes : block.bytes? = some bytes := by rw [Block.bytes?, payload]
    have tag_eq : copy.tag = block.tag := congrArg Copy.tag copy_eq
    refine ⟨block, bytes, ⟨found, valid, level, tag_eq.symm.trans tagged⟩, isBytes, ?_⟩
    have stored : copy.bytes.setIfInBounds (cache.layout.placeOf address) value = bytes := by
      have read := congrArg Copy.bytes copy_eq
      rwa [isBytes] at read
    have inside : cache.layout.placeOf address < copy.bytes.size := by
      obtain ⟨inside, _⟩ := Array.getElem?_eq_some_iff.mp answer
      simpa [Copy.access] using inside
    rw [← stored]
    simp [inside]

theorem pathsAgree_of_sound (sound : cache.view.Sound) (tidy : cache.Tidy) (address : Address) :
    cache.PathsAgree address := by
  have regular : cache.layout.Regular := sound.founded.regular
  refine ⟨fun isTag leads searched => ?_, fun searched ran => ?_, fun isTag isOffset ran located => ?_⟩
  · cases (regular.tag_eq address).symm.trans isTag
    exact sound.resolves_unique (.inl leads) (resolves_of_search sound tidy searched)
  · exact eq_some_of_resolve sound tidy (resolves_of_search sound tidy searched) ran
  · cases (regular.tag_eq address).symm.trans isTag
    cases (regular.offset_eq address).symm.trans isOffset
    exact byte_of_written sound tidy ran located

theorem Vacant.pathsAgree (vacant : cache.Vacant) (address : Address) :
    cache.PathsAgree address := by
  refine ⟨fun _ leads => ?_, fun searched => ?_, fun _ _ ran => ?_⟩
  · have absent : cache.fastPath.lookup = fun _ => none := funext vacant.blank.shortcut
    rw [absent] at leads
    cases leads
  · cases (vacant.search_eq searched).1
  · cases (vacant.access_eq ran).1

/-- Whatever operations a fresh cache carries out, fast path and walk agree afterwards. -/
theorem pathsAgree_of_runAll {config : Config} {after : Cache} {commands : List Command}
    {replies : List Reply} (made : ofConfig config = .ok cache)
    (ran : cache.runAll commands = .ok (replies, after)) (address : Address) :
    after.PathsAgree address := by
  cases (ready_of_ofConfig made).runAll ran with
  | sound tidy sound => exact pathsAgree_of_sound sound tidy address
  | vacant vacant => exact vacant.pathsAgree address

theorem pathsAgree_after_insert : ∃ cache after walked,
    ofConfig .tiny = .ok cache ∧
      cache.runAll [.fill 0x01 #[1, 2, 3, 4], .insert 0x08 3] = .ok ([.index 1, .index 3], after) ∧
      after.search 0x09 = .ok (.hit 3, walked) ∧ after.fastPath.lookup 2 = some 3 ∧
      after.PathsAgree 0x09 := by
  have answers : (do
      let cache ← ofConfig .tiny
      let result ← cache.runAll [.fill 0x01 #[1, 2, 3, 4], .insert 0x08 3]
      let walked ← result.2.search 0x09
      return (result.1, walked.1, result.2.fastPath.lookup 2)) =
        .ok ([.index 1, .index 3], .hit 3, some 3) := by decide +kernel
  obtain ⟨cache, made, answers⟩ := bind_eq_ok_iff.mp answers
  obtain ⟨⟨replies, after⟩, ran, answers⟩ := bind_eq_ok_iff.mp answers
  obtain ⟨⟨walk, walked⟩, searched, answers⟩ := bind_eq_ok_iff.mp answers
  simp only [pure_eq_ok, Except.ok.injEq, Prod.mk.injEq] at answers
  obtain ⟨rfl, rfl, leads⟩ := answers
  exact ⟨cache, after, walked, made, ran, searched, leads, pathsAgree_of_runAll made ran 0x09⟩

end TrieCache.Cache
