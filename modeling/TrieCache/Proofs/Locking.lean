import TrieCache.Proofs.Retirement
import TrieCache.Proofs.Stranded
import TrieCache.Proofs.Tending

/-!
# Locked blocks stay

The clock settles for no locked block, so no operation takes the slot of one.  The block stays
until it is unlocked, though its parent may be evicted above it, newer copies may be put in
beside it, and the fast path may forget it.  What writes do to it, they do to a leaf that they
find under its own tag.
-/

namespace TrieCache.Cache

variable {cache after : Cache} {address : Address} {index : Nat}

inductive WriteHit (address : Address) (value : UInt8) : Command → Reply → Prop
  | access : WriteHit address value (.access address (.write value)) (.byte (some value))
  | write : WriteHit address value (.write address value) (.written true)

/-- What an operation may do to the payload of a block that it does not take. -/
inductive Touches (cache : Cache) (command : Command) (reply : Reply) (tag : Nat) :
    Payload → Payload → Prop
  | tended {was is : Payload} : was.Tended (cache.taken command) is →
    Touches cache command reply tag was is
  | written {address : Address} {value : UInt8} {place : Nat} {bytes : Array UInt8} :
    WriteHit address value command reply → cache.layout.tag address = .ok tag →
      cache.layout.offset address = .ok place →
        Touches cache command reply tag (.data bytes) (.data (bytes.setIfInBounds place value))

section Commands

variable {command : Command} {reply : Reply} {was : Block}

theorem not_mem_of_locked (sound : cache.view.Sound) (tidy : cache.Tidy)
    {content : Nat → Array UInt8 → Array UInt8} {built : List Nat}
    (ran : cache.installPath address content = .ok (built, after))
    (found : cache.pool.blocks[index]? = some was) (locked : was.locked = true) :
    index ∉ built := by
  obtain ⟨_, _, _, _, _, _, _, grown, _⟩ := grown_of_installPath sound tidy ran
  intro isBuilt
  have unlocked := (Pool.look_of_block found _).symm.trans (grown.unlocked isBuilt)
  exact absurd ((Option.some.inj unlocked).symm.trans locked) Bool.false_ne_true

theorem Touches.of_eq {tag : Nat} ⦃was is : Payload⦄ (same : was = is) :
    cache.Touches command reply tag was is :=
  .tended (.of_eq same)

theorem block_of_perform {target place : Nat} {access : Access} {byte : UInt8}
    (ran : cache.perform target place access = .ok (byte, after))
    (found : cache.pool.blocks[index]? = some was) :
    after.pool.blocks[index]? = some was ∨ ∃ bytes, index = target ∧ access = .write byte ∧
      was.payload = .data bytes ∧ after.pool.blocks[index]? = some { was with
        payload := .data (bytes.setIfInBounds place byte), dirty := true } := by
  obtain ⟨block, isBlock, ran⟩ := bind_eq_ok_iff.mp ran
  dsimp only at ran
  split at ran
  · cases ran
  next bytes isBytes =>
    split at ran
    · cases ran
    · cases access with
      | read =>
        cases ran
        exact .inl found
      | write value =>
        obtain ⟨changed, writes, same⟩ := bind_eq_ok_iff.mp ran
        cases same
        by_cases here : index = target
        · subst here
          cases (Pool.get_eq_ok_iff.mp isBlock).symm.trans found
          have payload : was.payload = .data bytes := by
            cases isPayload : was.payload <;> simp_all [Block.bytes?]
          refine .inr ⟨bytes, rfl, rfl, payload, ?_⟩
          rw [block_of_updateBlock writes found]
          simp [Block.setByte, Block.mapBytes, payload]
        · exact .inl ((block_of_updateBlock_ne here writes).trans found)

/-- An access changes one byte of the leaf it finds, when it is a write. -/
theorem touches_of_access (ready : cache.Ready) {access : Access} {byte : Option UInt8}
    (ran : cache.access address access = .ok (byte, after))
    (hit : ∀ value, access = .write value → byte = some value →
      WriteHit address value command reply)
    (found : cache.pool.blocks[index]? = some was) :
    ∃ is, after.pool.blocks[index]? = some is ∧
      was.Stays (cache.Touches command reply was.tag) is := by
  obtain ⟨_, _, ran⟩ := bind_eq_ok_iff.mp ran
  obtain ⟨⟨target, resolved⟩, isTarget, ran⟩ := bind_eq_ok_iff.mp ran
  obtain ⟨middle, found', stays⟩ := stays_of_resolve isTarget found
  cases target with
  | none =>
    cases ran
    exact ⟨middle, found', stays.mono .of_eq⟩
  | some target =>
    obtain ⟨place, isPlace, ran⟩ := bind_eq_ok_iff.mp ran
    obtain ⟨⟨value, performed⟩, performs, same⟩ := bind_eq_ok_iff.mp ran
    cases same
    rcases block_of_perform performs found' with same | ⟨bytes, rfl, isWrite, payload, written⟩
    · exact ⟨middle, same, stays.mono .of_eq⟩
    · have counted := ready.record Stats.recordAccess
      obtain ⟨_, carries⟩ :=
        counted.carries_of_finds (counted.tag_eq address) (finds_of_resolve isTarget)
      cases found.symm.trans carries.found
      have tagged : cache.layout.tag address = .ok was.tag := carries.tag ▸ ready.tag_eq address
      obtain ⟨_, _, _, _, idle, _⟩ := idle_of_resolve isTarget
      have layout : resolved.layout = cache.layout := idle.layout
      refine ⟨_, written, stays.valid, stays.locked, stays.level, stays.tag, stays.parent,
        stays.parentValid, ?_⟩
      rw [stays.payload, payload]
      exact .written (hit value isWrite rfl) tagged (layout ▸ isPlace)

/-- No operation takes a locked block, and what it does to the block is accounted for. -/
theorem touches_of_run (ready : cache.Ready) (ran : cache.run command = .ok (reply, after))
    (held : command ≠ .setLocked index false) (found : cache.pool.blocks[index]? = some was)
    (locked : was.locked = true) :
    ∃ is, after.pool.blocks[index]? = some is ∧
      was.Stays (cache.Touches command reply was.tag) is := by
  have idle (stays : cache.Stays Eq index after) : ∃ is, after.pool.blocks[index]? = some is ∧
      was.Stays (cache.Touches command reply was.tag) is := stays.mono Touches.of_eq found
  have installs {address : Address} {content : Nat → Array UInt8 → Array UInt8} {built : List Nat}
      (isTaken : cache.taken command = built)
      (ran : cache.installPath address content = .ok (built, after)) :
      ∃ is, after.pool.blocks[index]? = some is ∧
        was.Stays (cache.Touches command reply was.tag) is := by
    cases ready with
    | sound tidy sound =>
      have spared := not_mem_of_locked sound tidy ran found locked
      have stays := stays_of_installPath sound tidy ran spared
      rw [← isTaken] at stays
      exact stays.mono (fun _ _ => .tended) found
    | vacant vacant => exact absurd ran (vacant.installPath_ne _)
  cases command with
  | access address access =>
    obtain ⟨⟨byte, _⟩, accessed, same⟩ := bind_eq_ok_iff.mp ran
    cases same
    refine touches_of_access ready accessed ?_ found
    rintro value rfl rfl
    exact .access
  | read address =>
    obtain ⟨⟨byte, _⟩, accessed, same⟩ := bind_eq_ok_iff.mp ran
    cases same
    exact touches_of_access ready accessed nofun found
  | write address value =>
    obtain ⟨⟨cached, _⟩, written, same⟩ := bind_eq_ok_iff.mp ran
    cases same
    obtain ⟨byte, accessed, rfl⟩ := write_eq_ok written
    refine touches_of_access ready accessed ?_ found
    rintro _ ⟨⟩ rfl
    exact .write
  | insert address value =>
    obtain ⟨⟨leaf, _⟩, inserted, same⟩ := bind_eq_ok_iff.mp ran
    cases same
    obtain ⟨⟨built, _⟩, installed, same⟩ := bind_eq_ok_iff.mp inserted
    cases same
    exact installs (by rw [taken, installed, pathOf]) installed
  | fill address block =>
    obtain ⟨⟨leaf, _⟩, filled, same⟩ := bind_eq_ok_iff.mp ran
    cases same
    obtain ⟨_, _, filled⟩ := bind_eq_ok_iff.mp filled
    obtain ⟨_, _, filled⟩ := bind_eq_ok_iff.mp filled
    obtain ⟨⟨built, _⟩, installed, same⟩ := bind_eq_ok_iff.mp filled
    cases same
    exact installs (by rw [taken, installed, pathOf]) installed
  | search address =>
    obtain ⟨⟨walk, _⟩, searched, same⟩ := bind_eq_ok_iff.mp ran
    cases same
    exact idle (stays_of_search searched)
  | setLocked place lock =>
    obtain ⟨_, changed, same⟩ := bind_eq_ok_iff.mp ran
    cases same
    by_cases here : index = place
    · subst here
      cases lock with
      | false => exact absurd rfl held
      | true =>
        exact ⟨_, block_of_updateBlock changed found, rfl, locked.symm, rfl, rfl, rfl, id, .of_eq rfl⟩
    · exact idle (stays_of_block_eq (block_of_updateBlock_ne here changed))
  | drain =>
    cases ran
    exact idle (stays_of_block_eq rfl)
  | flush =>
    cases ran
    exact idle (stays_of_cleaned (cleaned_of_flushDirty cache))
  | retire address =>
    obtain ⟨⟨retired, _⟩, retires, same⟩ := bind_eq_ok_iff.mp ran
    cases same
    exact idle (stays_of_cleaned (cleaned_of_retireStale retires))

theorem Touches.sameKind {tag : Nat} ⦃was is : Payload⦄
    (touches : cache.Touches command reply tag was is) : was.SameKind is := by
  cases touches with
  | tended tended => exact tended.sameKind
  | written => exact .data

/-- A locked block stays until it is unlocked. -/
theorem stays_while_locked (ready : cache.Ready) {commands : List Command} {replies : List Reply}
    (ran : cache.runAll commands = .ok (replies, after))
    (held : Command.setLocked index false ∉ commands)
    (found : cache.pool.blocks[index]? = some was) (locked : was.locked = true) :
    ∃ is, after.pool.blocks[index]? = some is ∧ was.Stays Payload.SameKind is := by
  induction commands generalizing cache replies was with
  | nil =>
    cases ran
    exact ⟨was, found, (Block.Stays.refl was).mono (by rintro _ _ rfl; exact .refl _)⟩
  | cons command commands ih =>
    obtain ⟨⟨reply, middle⟩, first, ran⟩ := bind_eq_ok_iff.mp ran
    obtain ⟨⟨replies', _⟩, others, same⟩ := bind_eq_ok_iff.mp ran
    cases same
    obtain ⟨now, later⟩ := not_or.mp (mt List.mem_cons.mpr held)
    obtain ⟨next, found', touched⟩ := touches_of_run ready first (Ne.symm now) found locked
    obtain ⟨is, found'', stays⟩ :=
      ih (ready.run first) others later found' (touched.locked.trans locked)
    exact ⟨is, found'', (touched.mono Touches.sameKind).trans Payload.SameKind.trans stays⟩

end Commands

/-- From the moment a block is locked until it is unlocked, whatever operations a cache carries
out, the block stays what it is and where it is.  Of its payload every one of them changes only
what is accounted for: a byte that is written where the block is found, and the links to
children that are evicted or newly built. -/
theorem stays_of_runAll {config : Config} {before locked : Cache} {earlier during : List Command}
    {replies replies' : List Reply} {index : Nat} (made : ofConfig config = .ok cache)
    (ran : cache.runAll earlier = .ok (replies, before))
    (locks : before.setLocked index true = .ok locked)
    (ran' : locked.runAll during = .ok (replies', after))
    (held : Command.setLocked index false ∉ during) :
    ∃ was is, locked.pool.blocks[index]? = some was ∧ after.pool.blocks[index]? = some is ∧
      is.locked = true ∧ was.Stays Payload.SameKind is ∧
      ∀ command reply last, command ≠ .setLocked index false →
        after.run command = .ok (reply, last) → ∃ next, last.pool.blocks[index]? = some next ∧
          is.Stays (after.Touches command reply is.tag) next := by
  have ready := (ready_of_ofConfig made).runAll ran
  have locks' : before.run (.setLocked index true) = .ok (.done, locked) := by
    rw [run, locks, ok_bind]
    rfl
  have ready' := ready.run locks'
  obtain ⟨index_lt, _⟩ := updateBlock_eq_ok_iff.mp locks
  obtain ⟨block, found⟩ := Pool.exists_block index_lt
  have isLocked := block_of_updateBlock locks found
  obtain ⟨is, found', stays⟩ := stays_while_locked ready' ran' held isLocked rfl
  refine ⟨_, is, isLocked, found', stays.locked, stays, fun command reply last other ran => ?_⟩
  exact touches_of_run (ready'.runAll ran') ran other found' stays.locked

/-- A leaf that was locked and cut off from its parent.  The fast path still leads to it. -/
def cutOffLeaf : Block where
  valid := true
  locked := true
  level := 2
  dirty := true
  reference := 1
  payload := .data #[0, 1, 9, 0]

/-- Four blocks more fill the pool and take the table above the locked leaf, and a write finds
the leaf on the fast path. -/
theorem stays_cutOffLeaf : ∃ cache before locked after,
    ofConfig .tiny = .ok cache ∧ cache.runAll [.insert 0x01 1] = .ok ([.index 1], before) ∧
      before.setLocked 1 true = .ok locked ∧
      locked.runAll [.insert 0x08 3, .insert 0x10 4, .insert 0x18 5, .insert 0x20 6,
        .write 0x02 9] =
          .ok ([.index 3, .index 5, .index 7, .index 2, .written true], after) ∧
      after.pool.blocks[1]? = some cutOffLeaf ∧
      ∃ was is, locked.pool.blocks[1]? = some was ∧ after.pool.blocks[1]? = some is ∧
        is.locked = true ∧ was.Stays Payload.SameKind is ∧
        ∀ command reply last, command ≠ .setLocked 1 false →
          after.run command = .ok (reply, last) → ∃ next, last.pool.blocks[1]? = some next ∧
            is.Stays (after.Touches command reply is.tag) next := by
  have answers : (do
      let cache ← ofConfig .tiny
      let filled ← cache.runAll [.insert 0x01 1]
      let locked ← filled.2.setLocked 1 true
      let result ← locked.runAll [.insert 0x08 3, .insert 0x10 4, .insert 0x18 5, .insert 0x20 6,
        .write 0x02 9]
      let block ← result.2.pool.get 1
      return (filled.1, result.1, block)) =
        .ok ([.index 1], [.index 3, .index 5, .index 7, .index 2, .written true], cutOffLeaf) := by
    decide +kernel
  obtain ⟨cache, made, answers⟩ := bind_eq_ok_iff.mp answers
  obtain ⟨⟨replies, before⟩, ran, answers⟩ := bind_eq_ok_iff.mp answers
  obtain ⟨locked, locks, answers⟩ := bind_eq_ok_iff.mp answers
  obtain ⟨⟨replies', after⟩, ran', answers⟩ := bind_eq_ok_iff.mp answers
  obtain ⟨block, isBlock, answers⟩ := bind_eq_ok_iff.mp answers
  simp only [pure_eq_ok, Except.ok.injEq, Prod.mk.injEq] at answers
  obtain ⟨rfl, rfl, rfl⟩ := answers
  exact ⟨cache, before, locked, after, made, ran, locks, ran', Pool.get_eq_ok_iff.mp isBlock,
    stays_of_runAll made ran locks ran' (by decide)⟩

end TrieCache.Cache
