import TrieCache.Proofs.Fresh

/-!
# What a hit answers

A ledger records under every tag the block that was last put in, with the bytes that were
written to it since, and never forgets one.  Whatever replacement does in between, the
leaf that a block resolves to holds the block of the ledger, so a hit answers from there.
-/

namespace TrieCache

/-- The blocks that were put in, by tag. -/
abbrev Ledger := Nat → Option (Array UInt8)

namespace Ledger

/-- Write a byte of a block, when an access hits it. -/
def access (ledger : Ledger) (tag place : Nat) : Access → (hit : Bool) → Ledger
  | .write value, true =>
    Function.update ledger tag ((ledger tag).map fun block => block.setIfInBounds place value)
  | _, _ => ledger

/-- Enter what an operation put in, given its answer. -/
def enter (layout : Layout) (ledger : Ledger) : Cache.Command × Cache.Reply → Ledger
  | (.insert address value, _) =>
    Function.update ledger (layout.blockOf address)
      (some ((Array.replicate layout.blockBytes 0).setIfInBounds (layout.placeOf address) value))
  | (.fill address block, _) => Function.update ledger (layout.blockOf address) (some block)
  | (.access address access, .byte byte) =>
    ledger.access (layout.blockOf address) (layout.placeOf address) access byte.isSome
  | (.write address value, .written hit) =>
    ledger.access (layout.blockOf address) (layout.placeOf address) (.write value) hit
  | _ => ledger

/-- The ledger of a run from an empty one. -/
def ofRun (layout : Layout) (history : List (Cache.Command × Cache.Reply)) : Ledger :=
  history.foldl (enter layout) fun _ => none

end Ledger

namespace View

/-- Blocks resolve to what the ledger has for them. -/
def Kept (view : View) (ledger : Ledger) : Prop :=
  ∀ ⦃tag index : Nat⦄, view.Resolves tag index →
    ∃ copy, view.copies index = some copy ∧ copy.tag = tag ∧ ledger tag = some copy.bytes

variable {before after : View} {ledger : Ledger}

theorem Kept.eq_bytes (kept : before.Kept ledger) {tag index : Nat} {copy : Copy}
    (resolves : before.Resolves tag index) (holds : before.copies index = some copy) :
    ledger tag = some copy.bytes := by
  obtain ⟨_, holds', _, entered⟩ := kept resolves
  cases holds.symm.trans holds'
  exact entered

/-- Nothing new resolves and no copy changes in more than whether it is dirty. -/
theorem Kept.of_resolves (kept : before.Kept ledger)
    (resolves : ∀ {tag index : Nat}, after.Resolves tag index → before.Resolves tag index)
    (copies : ∀ {index : Nat} {copy : Copy}, before.copies index = some copy →
      ∃ dirty, after.copies index = some { copy with dirty }) : after.Kept ledger := by
  intro tag index found
  obtain ⟨copy, holds, tagged, entered⟩ := kept (resolves found)
  obtain ⟨dirty, holds'⟩ := copies holds
  exact ⟨_, holds', tagged, entered⟩

theorem Kept.accessed {tag place : Nat} {access : Access} {byte : Option UInt8}
    (kept : before.Kept ledger) (sound : before.Sound)
    (accessed : before.Accessed tag place access byte after) :
    after.Kept (ledger.access tag place access byte.isSome) := by
  cases accessed with
  | miss unresolved => cases access <;> exact kept
  | @hit middle index copy byte rerouted resolves direct holds tagged answer =>
    intro other index' found
    have resolves' : before.Resolves other index' := rerouted.resolves found
    obtain ⟨copy', holds', tagged', entered⟩ := kept resolves'
    by_cases here : index' = index
    · subst here
      cases holds.symm.trans holds'
      subst tagged tagged'
      refine ⟨_, Function.update_self _ _ _, Copy.tag_access _ _ _, ?_⟩
      cases access with
      | read => exact entered
      | write value =>
        rw [Option.isSome_some, Ledger.access, Function.update_self, entered]
        rfl
    · have distinct : other ≠ tag := by
        rintro rfl
        exact here (sound.resolves_unique resolves' resolves)
      refine ⟨copy', (Function.update_of_ne here _ _).trans holds', tagged', ?_⟩
      cases access with
      | read => exact entered
      | write value => rw [Option.isSome_some, Ledger.access, Function.update_of_ne distinct, entered]

theorem Kept.byte_of_accessed {tag place : Nat} {byte : UInt8} (kept : before.Kept ledger)
    (accessed : before.Accessed tag place .read (some byte) after) :
    ∃ block, ledger tag = some block ∧ block[place]? = some byte := by
  cases accessed with
  | hit rerouted resolves direct holds tagged answer =>
    exact ⟨_, kept.eq_bytes resolves holds, answer⟩

theorem Kept.inserted {tag leaf : Nat} {bytes : Array UInt8} (kept : before.Kept ledger)
    (inserted : before.Inserted tag bytes leaf after)
    (stocked : ∀ {other index : Nat}, after.Resolves other index →
      ∃ copy, after.copies index = some copy ∧ copy.tag = other) :
    after.Kept (Function.update ledger tag (some bytes)) := by
  intro other index found
  rcases inserted.resolves found with ⟨rfl, rfl⟩ | ⟨distinct, resolves⟩
  · exact ⟨_, inserted.held, rfl, Function.update_self _ _ _⟩
  · obtain ⟨copy, holds, tagged⟩ := stocked found
    have elsewhere : index ≠ leaf := by
      rintro rfl
      rw [inserted.held, Option.some.injEq] at holds
      subst holds
      exact distinct tagged.symm
    obtain ⟨copy', holds', _, entered⟩ := kept resolves
    cases (inserted.copies elsewhere holds).symm.trans holds'
    exact ⟨copy, holds, tagged, (Function.update_of_ne distinct _ _).trans entered⟩

theorem Kept.published {chosen : Nat → Nat → Bool} (kept : before.Kept ledger)
    (published : before.Published chosen after) : after.Kept ledger := by
  refine kept.of_resolves (fun {tag index} found => ?_) fun {index copy} holds => ?_
  · rw [published.same] at found
    exact found
  · rw [published.copies, holds, Option.map_some]
    split
    · exact ⟨false, rfl⟩
    · exact ⟨copy.dirty, rfl⟩

/-- An operation is entered in the ledger as what it did. -/
theorem Kept.effect {command : Cache.Command} {reply : Cache.Reply} (kept : before.Kept ledger)
    (sound : before.Sound) (effect : before.Effect command reply after)
    (stocked : ∀ {tag index : Nat}, after.Resolves tag index →
      ∃ copy, after.copies index = some copy ∧ copy.tag = tag) :
    after.Kept (ledger.enter before.frame.layout (command, reply)) := by
  cases effect with
  | access accessed => exact kept.accessed sound accessed
  | read accessed => exact kept.accessed sound accessed
  | write accessed => exact kept.accessed sound accessed
  | insert inserted => exact kept.inserted inserted stocked
  | fill inserted => exact kept.inserted inserted stocked
  | flush published => exact kept.published published
  | retire published => exact kept.published published
  | search => exact kept
  | setLocked => exact kept
  | drain => exact kept

end View

namespace Cache

/-- The address that an operation reads, if it does. -/
def Command.reads? : Command → Option Address
  | .access address .read | .read address => some address
  | _ => none

end Cache

namespace View

variable {before after : View} {ledger : Ledger}

theorem Kept.byte_of_effect {command : Cache.Command} {address : Address} {byte : UInt8}
    (kept : before.Kept ledger) (reads : command.reads? = some address)
    (effect : before.Effect command (.byte (some byte)) after) :
    ∃ block, ledger (before.frame.layout.blockOf address) = some block ∧
      block[before.frame.layout.placeOf address]? = some byte := by
  cases effect with
  | @access _ access _ _ accessed =>
    cases access with
    | read =>
      cases reads
      exact kept.byte_of_accessed accessed
    | write value => cases reads
  | read accessed =>
    cases reads
    exact kept.byte_of_accessed accessed

end View

namespace Cache

variable {config : Config} {cache after : Cache} {commands : List Command} {replies : List Reply}
  {index : Nat} {command : Command} {address : Address} {value : UInt8}

theorem byte_of_runAll_of_kept {ledger : Ledger} (sound : cache.view.Sound) (tidy : cache.Tidy)
    (kept : cache.view.Kept ledger) (ran : cache.runAll commands = .ok (replies, after))
    (isCommand : commands[index]? = some command) (reads : command.reads? = some address)
    (answer : replies[index]? = some (.byte (some value))) :
    ∃ block, ((commands.zip replies).take index).foldl (Ledger.enter cache.layout) ledger
        (cache.layout.blockOf address) = some block ∧
      block[cache.layout.placeOf address]? = some value := by
  induction commands generalizing cache replies index ledger with
  | nil => cases isCommand
  | cons first rest ih =>
    obtain ⟨⟨reply, middle⟩, ranFirst, ran⟩ := bind_eq_ok_iff.mp ran
    obtain ⟨⟨replies', _⟩, ranRest, same⟩ := bind_eq_ok_iff.mp ran
    cases same
    obtain ⟨tidy', sound', effect⟩ := run_effect sound tidy ranFirst
    cases index with
    | zero =>
      cases isCommand
      cases answer
      exact kept.byte_of_effect reads effect
    | succ index =>
      have layout : middle.layout = cache.layout := congrArg Frame.layout effect.frame
      have kept' := kept.effect sound effect (copy_of_resolves sound')
      have found := ih sound' tidy' kept' ranRest isCommand answer
      rw [layout] at found
      exact found

theorem Vacant.not_byte (vacant : cache.Vacant) (ran : cache.runAll commands = .ok (replies, after)) :
    .byte (some value) ∉ replies := by
  induction commands generalizing cache replies with
  | nil =>
    cases ran
    exact List.not_mem_nil
  | cons first rest ih =>
    obtain ⟨⟨reply, middle⟩, ranFirst, ran⟩ := bind_eq_ok_iff.mp ran
    obtain ⟨⟨replies', _⟩, ranRest, same⟩ := bind_eq_ok_iff.mp ran
    cases same
    obtain ⟨vacant', _, nothing⟩ := vacant.run ranFirst
    rw [List.mem_cons, not_or]
    exact ⟨(nothing value).symm, ih vacant' ranRest⟩

/-- A byte that an operation of a run reads is the one in the ledger of the operations
before it. -/
theorem byte_of_runAll (made : ofConfig config = .ok cache)
    (ran : cache.runAll commands = .ok (replies, after))
    (isCommand : commands[index]? = some command) (reads : command.reads? = some address)
    (answer : replies[index]? = some (.byte (some value))) :
    cache.layout.tag address = .ok (cache.layout.blockOf address) ∧
      cache.layout.offset address = .ok (cache.layout.placeOf address) ∧
      ∃ block, Ledger.ofRun cache.layout ((commands.zip replies).take index)
          (cache.layout.blockOf address) = some block ∧
        block[cache.layout.placeOf address]? = some value := by
  have blank := blank_of_ofConfig made
  cases ready_of_ofConfig made with
  | vacant vacant => exact absurd (List.mem_of_getElem? answer) (vacant.not_byte ran)
  | sound tidy sound =>
    have regular : cache.layout.Regular := sound.founded.regular
    have kept : cache.view.Kept fun _ => none :=
      fun tag index resolves => absurd resolves (blank.not_resolves tag index)
    exact ⟨regular.tag_eq address, regular.offset_eq address,
      byte_of_runAll_of_kept sound tidy kept ran isCommand reads answer⟩

theorem byte_after_other_blocks : ∃ cache after block,
    ofConfig .tiny = .ok cache ∧
      cache.runAll [.fill 0x01 #[1, 2, 3, 4], .insert 0x08 9, .write 0x02 7, .read 0x02] =
        .ok ([.index 1, .index 3, .written true, .byte (some 7)], after) ∧
      Ledger.ofRun cache.layout [(.fill 0x01 #[1, 2, 3, 4], .index 1), (.insert 0x08 9, .index 3),
        (.write 0x02 7, .written true)] (cache.layout.blockOf 0x02) = some block ∧
      block[cache.layout.placeOf 0x02]? = some 7 := by
  have answers : (ofConfig .tiny >>= (·.runAll [.fill 0x01 #[1, 2, 3, 4], .insert 0x08 9,
      .write 0x02 7, .read 0x02])).map Prod.fst =
        .ok [.index 1, .index 3, .written true, .byte (some 7)] := by decide +kernel
  obtain ⟨⟨_, after⟩, ran, rfl⟩ := exists_eq_ok_of_map answers
  obtain ⟨cache, made, ran⟩ := bind_eq_ok_iff.mp ran
  have isCommand : [Command.fill 0x01 #[1, 2, 3, 4], .insert 0x08 9, .write 0x02 7,
      .read 0x02][3]? = some (.read 0x02) := rfl
  obtain ⟨_, _, block, entered, isByte⟩ := byte_of_runAll made ran isCommand rfl rfl
  exact ⟨cache, after, block, made, ran, entered, isByte⟩

end Cache

end TrieCache
