import TrieCache.Proofs.Backed
import TrieCache.Proofs.Memory

/-!
# A cache before a memory is a flat memory

Bytes are read as they were last written, or as the memory had them.  No operation fails
but by an overflow of a counter, and that takes a run about as long as a word can count:
there is one insertion into the fast path, one fetch and one newly dirty copy for every
access at most.
-/

namespace TrieCache

namespace Layout

theorem eq_of_blockOf_of_placeOf {layout : Layout} {first second : Address}
    (block : layout.blockOf first = layout.blockOf second)
    (place : layout.placeOf first = layout.placeOf second) : first = second := by
  have one := Nat.div_add_mod first.toNat layout.blockBytes
  have other := Nat.div_add_mod second.toNat layout.blockBytes
  rw [blockOf, blockOf] at block
  rw [placeOf, placeOf] at place
  rw [block, place, other] at one
  exact UInt64.toNat_inj.mp one.symm

end Layout

namespace Blocks

variable {layout : Layout} {flat : Blocks}

theorem getElem?_access_of_ne {address other : Address} (distinct : address ≠ other)
    (access : Access) :
    (flat.access (layout.blockOf address) (layout.placeOf address) access
      (layout.blockOf other))[layout.placeOf other]? =
        (flat (layout.blockOf other))[layout.placeOf other]? := by
  cases access with
  | read => rfl
  | write value =>
    by_cases isBlock : layout.blockOf other = layout.blockOf address
    · have apart : layout.placeOf address ≠ layout.placeOf other :=
        fun same => distinct (Layout.eq_of_blockOf_of_placeOf isBlock.symm same)
      rw [isBlock, Blocks.access, Function.update_self, Array.getElem?_setIfInBounds_ne apart]
    · rw [Blocks.access_of_ne flat isBlock]

theorem eq_of_getElem?_access_write {tag place : Nat} {value byte : UInt8}
    (found : (flat.access tag place (.write value) tag)[place]? = some byte) : byte = value := by
  rw [Blocks.access, Function.update_self] at found
  obtain ⟨inside, isByte⟩ := Array.getElem?_eq_some_iff.mp found
  simpa using isByte.symm

end Blocks

namespace BackedCache

def Command.writes? (address : Address) : Command → Option UInt8
  | .access other (.write value) | .write other value => if other = address then some value else none
  | _ => none

theorem Command.writes?_of_access? {command : Command} {address : Address} {access : Access}
    (performs : command.access? = some (address, access)) (target : Address) :
    command.writes? target = (Command.access address access).writes? target := by
  cases command <;> cases performs <;> rfl

/-- The byte of an address after some operations: the one written last, or the one that the
memory had before. -/
def expected (memory : Memory) (earlier : List Command) (address : Address) : Checked UInt8 :=
  match earlier.reverse.findSome? (Command.writes? address) with
  | some value => .ok value
  | none => memory.peek address

/-- An operation answers as a flat memory of bytes does after the earlier operations. -/
def Refines (memory : Memory) (earlier : List Command) : Command → BackedReply Reply → Prop
  | .access address .read, .ok (.byte byte _) => expected memory earlier address = .ok byte
  | .access _ (.write value), .ok (.byte byte _) => byte = value
  | .read address, .ok (.read byte) => expected memory earlier address = .ok byte
  | .write _ _, .ok .done => True
  | .flush, .ok (.count _) => True
  | .setLocked _ _, .ok .done => True
  | _, _ => False

def RefinesAll (memory : Memory) (earlier : List Command) :
    List Command → List (BackedReply Reply) → Prop
  | [], [] => True
  | command :: commands, reply :: replies =>
    Refines memory earlier command reply ∧
      RefinesAll memory (earlier ++ [command]) commands replies
  | _, _ => False

def unlockedCount (capacity : Nat) (locked : Nat → Bool) : Nat :=
  ((List.range capacity).filter fun index => !locked index).length

/-- An operation that a cache of a given size must carry out: its address is in range, and
after a change of the locks as many blocks are free as the trie has levels. -/
def Admits (layout : Layout) (capacity : Nat) (locked : Nat → Bool) : Command → Prop
  | .setLocked index value =>
    index < capacity ∧
      layout.depth ≤ unlockedCount capacity (Function.update locked index value)
  | .access address _ | .read address | .write address _ => layout.contains address = true
  | .flush => True

/-- Operations that a cache must carry out in turn. -/
def Admissible (layout : Layout) (capacity : Nat) : (locked : Nat → Bool) → List Command → Prop
  | _, [] => True
  | locked, command :: commands =>
    Admits layout capacity locked command ∧
      Admissible layout capacity (command.lock id locked) commands

instance (layout : Layout) (capacity : Nat) (locked : Nat → Bool) (command : Command) :
    Decidable (Admits layout capacity locked command) :=
  match command with
  | .setLocked _ _ => inferInstanceAs (Decidable (_ ∧ _))
  | .access _ _ | .read _ | .write _ _ => inferInstanceAs (Decidable (_ = _))
  | .flush => .isTrue trivial

instance decidableAdmissible (layout : Layout) (capacity : Nat) :
    ∀ (locked : Nat → Bool) (commands : List Command),
      Decidable (Admissible layout capacity locked commands)
  | _, [] => .isTrue trivial
  | locked, command :: commands =>
    have := decidableAdmissible layout capacity (command.lock id locked) commands
    inferInstanceAs (Decidable (_ ∧ _))

section Bytes

variable {memory : Memory} {layout : Layout} {flat : Blocks} {earlier : List Command}

/-- The blocks hold the bytes that are expected after some operations. -/
def Pictures (memory : Memory) (layout : Layout) (earlier : List Command) (flat : Blocks) : Prop :=
  ∀ address, ∃ byte, expected memory earlier address = .ok byte ∧
    (flat (layout.blockOf address))[layout.placeOf address]? = some byte

theorem expected_append (memory : Memory) (earlier : List Command) (command : Command)
    (address : Address) :
    expected memory (earlier ++ [command]) address =
      match command.writes? address with
      | some value => .ok value
      | none => expected memory earlier address := by
  rw [expected, List.reverse_append, List.reverse_singleton, List.singleton_append,
    List.findSome?_cons]
  cases command.writes? address <;> rfl

theorem Pictures.eq_expected (pictures : Pictures memory layout earlier flat) {address : Address}
    {byte : UInt8} (found : (flat (layout.blockOf address))[layout.placeOf address]? = some byte) :
    expected memory earlier address = .ok byte := by
  obtain ⟨byte', isExpected, found'⟩ := pictures address
  cases found.symm.trans found'
  exact isExpected

theorem Pictures.write (pictures : Pictures memory layout earlier flat) {command : Command}
    {address : Address} {value : UInt8}
    (writes : ∀ other, command.writes? other = if address = other then some value else none) :
    Pictures memory layout (earlier ++ [command])
      (flat.access (layout.blockOf address) (layout.placeOf address) (.write value)) := by
  intro other
  rw [expected_append, writes]
  by_cases here : address = other
  · subst here
    obtain ⟨byte, _, found⟩ := pictures address
    obtain ⟨inside, _⟩ := Array.getElem?_eq_some_iff.mp found
    rw [if_pos rfl]
    refine ⟨value, rfl, ?_⟩
    rw [Blocks.access, Function.update_self]
    simp [inside]
  · rw [if_neg here]
    obtain ⟨byte, isExpected, found⟩ := pictures other
    exact ⟨byte, isExpected, (Blocks.getElem?_access_of_ne here _).trans found⟩

theorem Pictures.keep (pictures : Pictures memory layout earlier flat) {command : Command}
    (writes : ∀ other, command.writes? other = none) :
    Pictures memory layout (earlier ++ [command]) flat := by
  intro other
  rw [expected_append, writes]
  exact pictures other

theorem Pictures.apply (pictures : Pictures memory layout earlier flat) (command : Command) :
    Pictures memory layout (earlier ++ [command]) (flat.apply layout command) := by
  cases command with
  | access address access =>
    cases access with
    | read => exact pictures.keep fun _ => rfl
    | write value => exact pictures.write fun _ => rfl
  | read address => exact pictures.keep fun _ => rfl
  | write address value => exact pictures.write fun _ => rfl
  | flush => exact pictures.keep fun _ => rfl
  | setLocked index locked => exact pictures.keep fun _ => rfl

/-- What a flat memory of blocks answers, the flat memory of bytes answers. -/
theorem Pictures.refines (pictures : Pictures memory layout earlier flat) {command : Command}
    {reply : BackedReply Reply} (answered : Answered layout flat command reply) :
    Refines memory earlier command reply := by
  cases answered with
  | @access address access byte hit answer =>
    cases access with
    | read => exact pictures.eq_expected answer
    | write value => exact Blocks.eq_of_getElem?_access_write answer
  | read answer => exact pictures.eq_expected answer
  | write => trivial
  | flush => trivial
  | setLocked => trivial

end Bytes

section Runs

variable {memory : Memory} {earlier commands : List Command} {locked : Nat → Bool} {flat : Blocks}
  {backed : BackedCache Memory}

/-- A run from a memory has come this far. -/
structure Running (memory : Memory) (earlier : List Command) (locked : Nat → Bool) (flat : Blocks)
    (backed : BackedCache Memory) : Prop where
  faithful : Faithful Memory.Whole Memory.contents flat backed
  idle : backed.cache.view.queue = []
  pictures : Pictures memory backed.cache.layout earlier flat
  locks {index : Nat} : index < backed.cache.pool.capacity →
    backed.cache.view.locked index = some (locked index)
  unlocked : backed.cache.layout.depth ≤ unlockedCount backed.cache.pool.capacity locked
  fastPath_lt : backed.cache.fastPath.capacity < 2 ^ 63
  sequence_le : backed.cache.view.sequence ≤ earlier.length
  fetches_le : backed.store.fetches ≤ memory.fetches + earlier.length
  /-- Every block that was ever dirty was written to, and the store has it or will. -/
  writebacks_le : backed.store.writebacks + backed.cache.view.pending ≤
    memory.writebacks + earlier.length

/-- The counters of a run are full. -/
def Exhausted (memory : Memory) (count : Nat) (fault : Fault) : Prop :=
  fault = .addOverflow ∧ 2 ^ 64 ≤ count + max memory.fetches memory.writebacks

namespace Running

variable (running : Running memory earlier locked flat backed)
include running

theorem unlocked_eq :
    backed.cache.view.unlocked = unlockedCount backed.cache.pool.capacity locked := by
  refine congrArg List.length (List.filter_congr fun index inside => ?_)
  rw [running.locks (List.mem_range.mp inside)]
  cases locked index <;> rfl

theorem exhausted_of_breaks {fault : Fault}
    (breaks : BlockStore.Breaks backed.store 1 backed.cache.view.pending fault) :
    Exhausted memory (earlier.length + 1) fault := by
  have regular : backed.cache.layout.Regular := running.faithful.sound.founded.regular
  have small : backed.store.blockSize < 2 ^ 63 := by
    have size : backed.store.blockSize = 2 ^ backed.cache.layout.blockBits :=
      running.faithful.blockSize_eq
    rw [size]
    exact Nat.pow_lt_pow_right (by omega) regular.blockBits_lt
  obtain ⟨overflow, full⟩ := Memory.overflow_of_breaks running.faithful.good small breaks
  have fetches_le := running.fetches_le
  have writebacks_le := running.writebacks_le
  refine ⟨overflow, ?_⟩
  omega

/-- Nothing stops an operation but a full counter. -/
theorem exhausted_of_stopped {command : Command} {fault : Fault}
    (admits : Admits backed.cache.layout backed.cache.pool.capacity locked command)
    (stopped : Stopped backed command fault) : Exhausted memory (earlier.length + 1) fault := by
  cases stopped with
  | @access address access performs denied =>
    cases denied with
    | outside outside =>
      have inRange : backed.cache.layout.contains address = true := by
        cases command <;> cases performs <;> exact admits
      rw [inRange] at outside
      cases outside
    | noRoom noRoom =>
      have few := noRoom.2
      rw [running.unlocked_eq] at few
      exact absurd running.unlocked (Nat.not_le_of_lt few)
    | overflow overflow =>
      have sequence_le := running.sequence_le
      rcases overflow with ⟨overflow, full⟩ | ⟨_, large⟩
      · exact ⟨overflow, by omega⟩
      · exact absurd running.fastPath_lt (Nat.not_lt_of_le large)
    | store breaks => exact running.exhausted_of_breaks breaks
  | flush breaks =>
    exact running.exhausted_of_breaks (breaks.mono (Nat.zero_le _) (Nat.le_refl _))
  | setLocked locks outside =>
    subst locks
    exact absurd admits.1 (Nat.not_lt_of_le outside)

theorem locks_lock {command : Command} {index : Nat}
    (inside : index < backed.cache.pool.capacity) :
    command.lock some backed.cache.view.locked index = some (command.lock id locked index) := by
  have same := running.locks inside
  cases command with
  | setLocked other value =>
    by_cases here : index = other
    · simp [Command.lock, here]
    · simp [Command.lock, here, same]
  | _ => exact same

theorem unlocked_lock {command : Command}
    (admits : Admits backed.cache.layout backed.cache.pool.capacity locked command) :
    backed.cache.layout.depth ≤
      unlockedCount backed.cache.pool.capacity (command.lock id locked) := by
  cases command with
  | setLocked index value => exact admits.2
  | _ => exact running.unlocked

theorem run {command : Command}
    (admits : Admits backed.cache.layout backed.cache.pool.capacity locked command) :
    Ends (backed.run command)
      (fun (reply, after) => after.cache.frame = backed.cache.frame ∧
        Refines memory earlier command reply ∧
        Running memory (earlier ++ [command]) (command.lock id locked)
          (flat.apply backed.cache.layout command) after)
      (Exhausted memory (earlier.length + 1)) := by
  refine (running.faithful.run Memory.serves running.idle command).mono ?_
    fun fault stopped => running.exhausted_of_stopped admits stopped
  rintro ⟨reply, after⟩ ⟨advanced, locks, answered⟩
  have frame := advanced.frame
  have layout : after.cache.layout = backed.cache.layout := congrArg Frame.layout frame
  have capacity : after.cache.pool.capacity = backed.cache.pool.capacity :=
    congrArg Frame.capacity frame
  have fastPath : after.cache.fastPath.capacity = backed.cache.fastPath.capacity :=
    congrArg Frame.fastPathCapacity frame
  obtain ⟨fetched, issued, supplied, few, pending⟩ := advanced.supplied
  obtain ⟨fetches, writebacks⟩ := Memory.count_of_supplied running.faithful.good supplied
  have sequence_le := advanced.sequence_le
  have sequence_le' := running.sequence_le
  have fetches_le := running.fetches_le
  have writebacks_le := running.writebacks_le
  have length : (earlier ++ [command]).length = earlier.length + 1 := by simp
  refine ⟨frame, running.pictures.refines answered, advanced.faithful, advanced.idle, ?_, ?_, ?_,
    fastPath ▸ running.fastPath_lt, ?_, ?_, ?_⟩
  · rw [layout]
    exact running.pictures.apply command
  · intro index inside
    rw [locks]
    exact running.locks_lock (capacity ▸ inside)
  · rw [layout, capacity]
    exact running.unlocked_lock admits
  · omega
  · omega
  · omega

/-- A run comes to its end, with the answers of a flat memory. -/
theorem reaches
    (admissible : Admissible backed.cache.layout backed.cache.pool.capacity locked commands) :
    Ends (backed.runAll commands)
      (fun (replies, after) => RefinesAll memory earlier commands replies ∧
        after.cache.frame = backed.cache.frame ∧
        ∃ locked' flat', Running memory (earlier ++ commands) locked' flat' after)
      (Exhausted memory (earlier.length + commands.length)) := by
  induction commands generalizing backed flat earlier locked with
  | nil =>
    refine ⟨trivial, rfl, locked, flat, ?_⟩
    rw [List.append_nil]
    exact running
  | cons command rest ih =>
    obtain ⟨admits, admissible⟩ := admissible
    refine (running.run admits).andThen (fun fault exhausted => ?_) ?_
    · exact ⟨exhausted.1, exhausted.2.trans (by rw [List.length_cons]; omega)⟩
    rintro ⟨reply, middle⟩ ⟨frame, refines, running'⟩
    have layout : middle.cache.layout = backed.cache.layout := congrArg Frame.layout frame
    have capacity : middle.cache.pool.capacity = backed.cache.pool.capacity :=
      congrArg Frame.capacity frame
    rw [← layout, ← capacity] at admissible
    refine (ih running' admissible).andThen (fun fault exhausted => ?_) ?_
    · have length : (earlier ++ [command]).length + rest.length =
          earlier.length + (command :: rest).length := by
        rw [List.length_append, List.length_singleton, List.length_cons]
        omega
      exact length ▸ exhausted
    · rintro ⟨replies, after⟩ ⟨refinesAll, frame', locked', flat', running''⟩
      refine ⟨⟨refines, refinesAll⟩, frame'.trans frame, locked', flat', ?_⟩
      rw [List.append_cons]
      exact running''

theorem runAll
    (admissible : Admissible backed.cache.layout backed.cache.pool.capacity locked commands) :
    Ends (backed.runAll commands)
      (fun (replies, _) => RefinesAll memory earlier commands replies)
      (Exhausted memory (earlier.length + commands.length)) :=
  (running.reaches admissible).mono (fun _ reached => reached.1) fun _ exhausted => exhausted

end Running

theorem locked_of_ofConfig {config : Config} {cache : Cache}
    (made : Cache.ofConfig config = .ok cache) {index : Nat} (inside : index < cache.pool.capacity) :
    cache.view.locked index = some false := by
  obtain ⟨capacity, _, _, _, _, _, pool, _⟩ := Cache.ofConfig_spec made
  obtain ⟨block, found⟩ := Pool.exists_block inside
  obtain ⟨_, rfl⟩ := Cache.block_of_ofConfig pool found
  exact Pool.look_of_block found _

theorem unlockedCount_of_free (capacity : Nat) : unlockedCount capacity (fun _ => false) = capacity := by
  simp [unlockedCount]

theorem running_of_ofConfig {config : Config} {cache : Cache} (usable : config.Usable)
    (made : Cache.ofConfig config = .ok cache) (whole : memory.Whole)
    (sized : memory.blockSize = cache.layout.blockBytes) :
    Running memory [] (fun _ => false) memory.contents { cache, store := memory } := by
  have founded := Cache.founded_of_ofConfig made usable.span usable.levels_lt
  obtain ⟨capacity, _, _, _, isConfig, _, pool, isFastPath, _⟩ := Cache.ofConfig_spec made
  obtain ⟨_, fastPath, sequence, _⟩ := FastPath.recorded_of_ofCapacity isFastPath
  have blank := Cache.blank_of_ofConfig made
  have depth_lt : cache.layout.depth < cache.pool.capacity := founded.depth_lt
  refine ⟨faithful_of_ofConfig made founded whole sized, blank.queue, fun address => ?_,
    locked_of_ofConfig made, ?_, fastPath ▸ usable.fastPathSize_lt, sequence.le, Nat.le_refl _, ?_⟩
  · have positive : 0 < memory.blockSize := sized ▸ cache.layout.blockBytes_pos
    obtain ⟨byte, peeked, found⟩ := whole.peek_eq positive address
    rw [sized] at found
    exact ⟨byte, peeked, found⟩
  · rw [unlockedCount_of_free]
    exact depth_lt.le
  · have clean : cache.view.changed = 0 := by
      refine List.countP_eq_zero.mpr fun index _ => ?_
      rw [blank.copies]
      simp
    change memory.writebacks + cache.view.pending ≤ _
    rw [View.pending, blank.queue, clean]
    exact Nat.le_refl _

/-- A fresh cache goes before a memory of its block size, and nothing has run yet. -/
theorem joins_of_ofConfig {config : Config} {cache : Cache} (usable : config.Usable)
    (made : Cache.ofConfig config = .ok cache) (whole : memory.Whole)
    (sized : memory.blockSize = config.blockSize.toNat) :
    ofCache cache memory = .ok { cache, store := memory } ∧
      Running memory [] (fun _ => false) memory.contents { cache, store := memory } := by
  have founded := Cache.founded_of_ofConfig made usable.span usable.levels_lt
  obtain ⟨_, _, accepted, isLayout, _⟩ := Cache.ofConfig_spec made
  have sized' : memory.blockSize = cache.layout.blockBytes := by
    rw [sized, accepted.blockSize_eq, (Layout.ofConfig_eq_ok_iff accepted).mp isLayout]
    rfl
  exact ⟨(ofCache_eq_ok_iff founded.regular).mpr ⟨sized', rfl⟩,
    running_of_ofConfig usable made whole sized'⟩

/-- A cache of a usable configuration before a memory of the same block size is a flat
memory: every operation of a run is carried out, and reads answer what was written last or
what the memory had, unless a counter overflows. -/
theorem refinesAll_of_ofConfig {config : Config} {cache : Cache} (usable : config.Usable)
    (made : Cache.ofConfig config = .ok cache) (whole : memory.Whole)
    (sized : memory.blockSize = config.blockSize.toNat)
    (admissible : Admissible cache.layout cache.pool.capacity (fun _ => false) commands) :
    ∃ backed, ofCache cache memory = .ok backed ∧
      Ends (backed.runAll commands)
        (fun (replies, _) => RefinesAll memory [] commands replies)
        (Exhausted memory commands.length) := by
  have founded := Cache.founded_of_ofConfig made usable.span usable.levels_lt
  obtain ⟨_, _, accepted, isLayout, _⟩ := Cache.ofConfig_spec made
  have sized' : memory.blockSize = cache.layout.blockBytes := by
    rw [sized, accepted.blockSize_eq, (Layout.ofConfig_eq_ok_iff accepted).mp isLayout]
    rfl
  refine ⟨{ cache, store := memory }, (ofCache_eq_ok_iff founded.regular).mpr ⟨sized', rfl⟩, ?_⟩
  have ran := (running_of_ofConfig usable made whole sized').runAll admissible
  rw [List.length_nil, Nat.zero_add] at ran
  exact ran

theorem usable_tiny : Config.tiny.Usable :=
  ⟨rfl, ⟨3, rfl, by decide⟩, by decide, by decide⟩

theorem refinesAll_with_locks : ∃ cache backed replies after,
    Cache.ofConfig .tiny = .ok cache ∧ ofCache cache ({ blockSize := 4 } : Memory) = .ok backed ∧
      backed.runAll [.write 0x01 7, .setLocked 0 true, .read 0x08, .flush, .read 0x10, .read 0x18,
        .read 0x20, .read 0x01] = .ok (replies, after) ∧
      RefinesAll { blockSize := 4 } [] [.write 0x01 7, .setLocked 0 true, .read 0x08, .flush,
        .read 0x10, .read 0x18, .read 0x20, .read 0x01] replies := by
  have made : (Cache.ofConfig .tiny).map (fun cache => decide (Admissible cache.layout
      cache.pool.capacity (fun _ => false) [.write 0x01 7, .setLocked 0 true, .read 0x08, .flush,
        .read 0x10, .read 0x18, .read 0x20, .read 0x01])) = .ok true := by decide +kernel
  obtain ⟨cache, made, admissible⟩ := exists_eq_ok_of_map made
  obtain ⟨backed, joined, outcome⟩ := refinesAll_of_ofConfig usable_tiny made
    (Memory.whole_of_empty 4) rfl (of_decide_eq_true admissible)
  have short : ∀ fault, ¬ Exhausted ({ blockSize := 4 } : Memory) 8 fault := by
    rintro fault ⟨_, full⟩
    exact absurd full (by decide)
  obtain ⟨⟨replies, after⟩, ran, refines⟩ := outcome.exists_ok short
  exact ⟨cache, backed, replies, after, made, joined, ran, refines⟩

end Runs

end BackedCache

end TrieCache
