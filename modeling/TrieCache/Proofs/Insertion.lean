import TrieCache.Proofs.Access
import TrieCache.Proofs.Path

/-!
# What an insertion does

An insertion of a block that resolves nowhere makes it resolve to a new leaf.  Other
blocks resolve where they did before, if they still do, and changed data that had to make
room are queued.  It fails only where it is refused, where every block is locked or in
the way, or where the fast path cannot count any further.
-/

namespace TrieCache

namespace View

/-- The outcome of an insertion. -/
structure Inserted (before : View) (tag : Nat) (bytes : Array UInt8) (leaf : Nat) (after : View) :
    Prop where
  frame : after.frame = before.frame
  locked : after.locked = before.locked
  sequence_le : after.sequence ≤ before.sequence + 1
  unresolved (index : Nat) : ¬ before.Resolves tag index
  shortcut : after.shortcut tag = some leaf
  held : after.copies leaf = some { tag, bytes, dirty := false }
  /-- Only the new leaf resolves newly. -/
  resolves {other index : Nat} : after.Resolves other index →
    (other = tag ∧ index = leaf) ∨ (other ≠ tag ∧ before.Resolves other index)
  copies {index : Nat} {copy : Copy} : index ≠ leaf → after.copies index = some copy →
    before.copies index = some copy
  queue : ∃ added, after.queue = before.queue ++ added ∧
    (∀ writeback ∈ added, ∃ index copy, before.copies index = some copy ∧ copy.dirty = true ∧
      writeback = copy.writeback) ∧
    ∀ index copy, before.copies index = some copy → copy.dirty = true →
      (index ≠ leaf ∧ after.copies index = some copy) ∨ copy.writeback ∈ added
  pending : after.pending = before.pending

/-- Why an insertion may fail. -/
inductive Uninserted (view : View) (address : Address) : Fault → Prop
  | outside {fault : Fault} : view.frame.layout.contains address = false →
    Uninserted view address fault
  | present {fault : Fault} (index : Nat) :
    view.Resolves (view.frame.layout.blockOf address) index → Uninserted view address fault
  | noRoom {fault : Fault} : Cache.NoRoom view fault → Uninserted view address fault
  | overflow {fault : Fault} : FastPathOverflow view fault → Uninserted view address fault

section Settling

variable {before middle after : View} {tag slot leaf : Nat} {owner : Option Nat}
  {bytes : Array UInt8}

/-- The leaf is in place and the fast path leads to it. -/
structure Settled (middle : View) (tag : Nat) (owner : Option Nat) (slot leaf : Nat)
    (bytes : Array UInt8) (after : View) : Prop where
  same : after = { middle.place owner slot leaf
      (Node.blank middle.frame.layout.depth tag (owner.getD slot))
      (some { tag, bytes, dirty := false }) with
    shortcut := after.shortcut, sequence := after.sequence }
  sequence_le : after.sequence ≤ middle.sequence + 1
  here : after.shortcut tag = some leaf
  others {other target : Nat} : other ≠ tag → after.shortcut other = some target →
    middle.shortcut other = some target

namespace Settled

variable (settled : middle.Settled tag owner slot leaf bytes after)
include settled

theorem copies : after.copies =
    Function.update middle.copies leaf (some { tag, bytes, dirty := false }) := by
  rw [settled.same]
  rfl

theorem resolves (vacancy : middle.Vacancy tag owner slot leaf) {other index : Nat}
    (resolves : after.Resolves other index) :
    (other = tag ∧ index = leaf) ∨ (other ≠ tag ∧ middle.Resolves other index) := by
  obtain ⟨above, reached, whole⟩ := vacancy.reached
  rcases resolves with leads | route
  · by_cases isTag : other = tag
    · rw [isTag, settled.here, Option.some.injEq] at leads
      exact .inl ⟨isTag, leads.symm⟩
    · exact .inr ⟨isTag, .inl (settled.others isTag leads)⟩
  · rw [settled.same] at route
    rcases path_of_placeLeaf vacancy.sound (vacancy.fits tag) reached whole route with
      here | ⟨isOther, route⟩
    · exact .inl here
    · exact .inr ⟨isOther, .inr route⟩

theorem sound (vacancy : middle.Vacancy tag owner slot leaf) : after.Sound := by
  obtain ⟨above, reached, whole⟩ := vacancy.reached
  have placed : (middle.place owner slot leaf (Node.blank middle.frame.layout.depth tag
      (owner.getD slot)) (some { tag, bytes, dirty := false })).Sound :=
    vacancy.sound.placeLeaf (vacancy.fits tag) reached whole vacancy.absent
  rw [settled.same]
  refine placed.withShortcut fun {other target} leads => ?_
  by_cases isTag : other = tag
  · rw [isTag, settled.here, Option.some.injEq] at leads
    rw [isTag, ← leads]
    exact .inr (path_placeLeaf (vacancy.fits tag) reached whole)
  · exact .inl (settled.others isTag leads)

theorem pending (vacancy : middle.Vacancy tag owner slot leaf) :
    after.pending = middle.pending := by
  have frame : after.frame = middle.frame := by
    rw [settled.same]
    rfl
  have queue : after.queue = middle.queue := by
    rw [settled.same]
    rfl
  have counted := changed_of_update vacancy.leaf_lt frame settled.copies
  rw [vacancy.unheld] at counted
  rw [View.pending, View.pending, queue]
  exact congrArg _ counted

theorem inserted (shed : before.Shed middle) (vacancy : middle.Vacancy tag owner slot leaf)
    (unresolved : ∀ index, ¬ before.Resolves tag index) :
    before.Inserted tag bytes leaf after where
  frame := by
    rw [settled.same]
    exact shed.frame
  locked := by
    rw [settled.same]
    exact shed.locked
  sequence_le := shed.sequence ▸ settled.sequence_le
  unresolved := unresolved
  shortcut := settled.here
  held := by
    rw [settled.copies, Function.update_self]
  resolves := by
    intro other index resolves
    rcases settled.resolves vacancy resolves with here | ⟨isOther, resolves⟩
    · exact .inl here
    · exact .inr ⟨isOther, shed.resolves resolves⟩
  copies := by
    intro index copy distinct holds
    rw [settled.copies, Function.update_of_ne distinct] at holds
    exact shed.copies holds
  queue := by
    obtain ⟨added, queue, fromBefore, kept⟩ := shed.queue
    refine ⟨added, ?_, fromBefore, fun index copy holds dirty => ?_⟩
    · rw [settled.same]
      exact queue
    · rcases kept index copy holds dirty with holds' | isAdded
      · have distinct : index ≠ leaf := by
          rintro rfl
          rw [vacancy.unheld] at holds'
          cases holds'
        refine .inl ⟨distinct, ?_⟩
        rw [settled.copies, Function.update_of_ne distinct, holds']
      · exact .inr isAdded
  pending := (settled.pending vacancy).trans shed.pending

end Settled

end Settling

end View

namespace Cache

variable {cache : Cache} {address : Address}

theorem attachment_eq (sound : cache.view.Sound) {tag level : Nat} {anchor : Option Nat}
    (level_lt : level < cache.layout.depth)
    (route : cache.trie.Route (cache.layout.slots tag level) anchor) :
    cache.attachment anchor = .ok { level := level + 1, parent := anchor } := by
  cases anchor with
  | none =>
    have length := congrArg List.length route.eq_nil
    rw [Layout.length_slots] at length
    change level = 0 at length
    rw [length]
    rfl
  | some index =>
    have linked : cache.trie.Linked := sound.linked
    obtain ⟨node, isNode, _, isLevel⟩ := linked.node_of_route route
    obtain ⟨block, found, _, rfl⟩ := block_of_node isNode
    rw [Layout.length_slots] at isLevel
    change block.level = level at isLevel
    rw [attachment, Pool.get_eq_ok_iff.mpr found, ok_bind]
    dsimp only
    rw [if_neg (by omega), isLevel]
    rfl

/-- The pinned blocks are those of the way. -/
theorem lineage_spec (sound : cache.view.Sound) {slots : List Nat} {index levels : Nat}
    (route : cache.trie.Route slots (some index)) (fits : slots.length ≤ levels) :
    ∃ pinned, cache.lineage index levels = .ok pinned ∧ pinned.length = slots.length ∧
      ∀ other, other ∈ pinned ↔ ∃ above, above <:+ slots ∧ cache.trie.Route above (some other) := by
  have linked : cache.trie.Linked := sound.linked
  induction levels generalizing slots index with
  | zero =>
    cases route with
    | step path leads => exact absurd fits (by simp)
  | succ levels ih =>
    obtain ⟨node, isNode, _, isLevel⟩ := linked.node_of_route route
    obtain ⟨block, found, _, rfl⟩ := block_of_node isNode
    change block.level = slots.length at isLevel
    rw [lineage, Pool.get_eq_ok_iff.mpr found, ok_bind]
    cases route with
    | @step above owner slot _ path leads =>
      obtain ⟨_, isNode', _, hangs⟩ := linked.target leads
      cases isNode.symm.trans isNode'
      cases owner with
      | none =>
        have isTop : block.level = 1 := hangs.1
        have nothing := path.eq_nil
        subst nothing
        rw [if_neg (by omega)]
        refine ⟨[index], rfl, rfl, fun other => ⟨fun isPinned => ?_, ?_⟩⟩
        · cases List.mem_singleton.mp isPinned
          exact ⟨_, List.suffix_rfl, .step path leads⟩
        · rintro ⟨above', suffix, route'⟩
          rcases List.suffix_cons_iff.mp suffix with rfl | shorter
          · cases route'.functional (.step path leads)
            exact List.mem_cons_self
          · rw [List.suffix_nil.mp shorter] at route'
            cases route'
      | some parent =>
        obtain ⟨isParent, above', isAbove, level⟩ := hangs
        change block.parent = parent at isParent
        change block.level = above'.level + 1 at level
        have positive := linked.level_pos isAbove
        rw [List.length_cons] at fits
        obtain ⟨rest, ran, length, isWay⟩ := ih path (by omega)
        rw [if_pos (by omega), isParent, ran]
        refine ⟨index :: rest, rfl, ?_, fun other => ⟨fun isPinned => ?_, ?_⟩⟩
        · rw [List.length_cons, List.length_cons, length]
        · rcases List.mem_cons.mp isPinned with rfl | isAbove
          · exact ⟨_, List.suffix_rfl, .step path leads⟩
          · obtain ⟨above', suffix, route'⟩ := (isWay other).mp isAbove
            exact ⟨above', suffix.trans (List.suffix_cons _ _), route'⟩
        · rintro ⟨above', suffix, route'⟩
          rcases List.suffix_cons_iff.mp suffix with rfl | shorter
          · cases route'.functional (.step path leads)
            exact List.mem_cons_self
          · exact List.mem_cons_of_mem _ ((isWay other).mpr ⟨above', shorter, route'⟩)

/-- The blocks that an insertion starts with pin the way. -/
theorem pinnedBy_spec (sound : cache.view.Sound) {tag level : Nat} {anchor : Option Nat}
    (level_lt : level < cache.layout.depth)
    (route : cache.trie.Route (cache.layout.slots tag level) anchor)
    (free : cache.trie.link anchor (cache.layout.slot tag (level + 1)) = none)
    (absent : cache.view.shortcut tag = none) :
    ∃ pinned, cache.pinnedBy { level := level + 1, parent := anchor } = .ok pinned ∧
      cache.view.Anchored tag level anchor pinned ∧
      ∀ index ∈ pinned, ∃ above, cache.trie.Route above (some index) := by
  cases anchor with
  | none =>
    have nothing := route.eq_nil
    refine ⟨[], rfl, ⟨route, free, absent, ?_, Nat.zero_le _⟩, nofun⟩
    intro above index suffix route'
    change above <:+ cache.layout.slots tag level at suffix
    rw [nothing, List.suffix_nil] at suffix
    rw [suffix] at route'
    cases route'
  | some index =>
    have length : (cache.layout.slots tag level).length ≤ cache.layout.depth := by
      rw [Layout.length_slots]
      exact Nat.le_of_lt level_lt
    obtain ⟨pinned, ran, pinned_length, isWay⟩ := lineage_spec sound route length
    refine ⟨pinned, ran, ⟨route, free, absent, ?_, ?_⟩, fun other isPinned => ?_⟩
    · exact fun suffix route' => (isWay _).mpr ⟨_, suffix, route'⟩
    · rw [pinned_length, Layout.length_slots]
    · obtain ⟨above, _, route'⟩ := (isWay other).mp isPinned
      exact ⟨above, route'⟩

theorem block_of_blank {middle : View} {slot leaf former : Nat} {owner : Option Nat}
    (tidy : cache.Tidy)
    (view : cache.view = middle.place owner slot leaf
      (Node.blank cache.layout.depth former (owner.getD slot))
      (cache.layout.blankCopy cache.layout.depth former)) :
    ∃ block, cache.pool.blocks[leaf]? = some block ∧ block.valid = true ∧
      block.level = cache.layout.depth ∧
      block.payload = .data (Array.replicate cache.layout.blockBytes 0) ∧
      block.parentValid = true ∧ block.parent = owner.getD slot ∧ block.dirty = false := by
  have isNode : cache.trie.node leaf =
      some (Node.blank cache.layout.depth former (owner.getD slot)) := by
    change cache.view.trie.node leaf = _
    rw [view]
    exact Trie.node_graft_self
  have holds : cache.view.copies leaf =
      some { tag := former, bytes := Array.replicate cache.layout.blockBytes 0, dirty := false } := by
    rw [view, Layout.blankCopy, if_pos rfl]
    exact Function.update_self _ _ _
  obtain ⟨block, found, valid, same⟩ := block_of_node isNode
  obtain ⟨block', found', seen⟩ := Pool.look_eq_some_iff.mp holds
  cases found.symm.trans found'
  obtain ⟨_, level, copy⟩ := Block.copy?_eq_some_iff.mp seen
  obtain ⟨bytes, payload, _⟩ := tidy.data_of_leaf found valid level
  have isBlank : Array.replicate cache.layout.blockBytes 0 = bytes := by
    have read := congrArg Copy.bytes copy
    simpa [Block.bytes?, payload] using read
  exact ⟨block, found, valid, level, isBlank ▸ payload, (congrArg Node.attached same).symm,
    (congrArg Node.parent same).symm, (congrArg Copy.dirty copy).symm⟩

/-- What the leaf is given once it is in place: its bytes and its tag. -/
theorem label_spec {middle : View} {slot leaf former : Nat} {owner : Option Nat}
    (tidy : cache.Tidy) (tag : Nat)
    (view : cache.view = middle.place owner slot leaf
      (Node.blank cache.layout.depth former (owner.getD slot))
      (cache.layout.blankCopy cache.layout.depth former))
    {content : Array UInt8 → Array UInt8} {bytes : Array UInt8}
    (bytes_eq : content (Array.replicate cache.layout.blockBytes 0) = bytes)
    (whole : bytes.size = cache.layout.blockBytes) :
    ∃ after, cache.updateBlock leaf (fun block => { block.mapBytes content with tag }) =
        .ok after ∧ after.Tidy ∧
      after.view = middle.place owner slot leaf
        (Node.blank cache.layout.depth tag (owner.getD slot))
        (some { tag, bytes, dirty := false }) := by
  obtain ⟨block, found, valid, level, payload, attached, parent, dirty⟩ :=
    block_of_blank tidy view
  have labelled : ({ block.mapBytes content with tag } : Block) =
      { block with payload := .data bytes, tag } := by
    simp [Block.mapBytes, payload, bytes_eq]
  refine ⟨_, updateBlock_eq_ok (Pool.lt_capacity_of_block found) _, ?_, ?_⟩
  · refine tidy.modify (fun block' found' _ => ?_) fun block' bound => ?_
    · cases found.symm.trans found'
      rw [labelled]
      exact .leaf valid level _ rfl whole
    · change (block'.mapBytes content).reference ≤ cache.maxReference
      rwa [Block.reference_mapBytes]
  · have node : ({ block with payload := .data bytes, tag } : Block).node? =
        some (Node.blank cache.layout.depth tag (owner.getD slot)) := by
      refine Block.node?_eq_some_iff.mpr ⟨valid, ?_⟩
      have child : ({ block with payload := .data bytes, tag } : Block).child? =
          fun _ => none := by
        funext other
        simp [Block.child?, Block.links]
      rw [child, Node.blank, attached, parent, level]
    have copied : ({ block with payload := .data bytes, tag } : Block).copy?
        cache.layout.depth = some { tag, bytes, dirty := false } := by
      refine Block.copy?_eq_some_iff.mpr ⟨valid, level, ?_⟩
      rw [dirty]
      rfl
    have locked : some block.locked = cache.view.locked leaf :=
      (Pool.look_of_block found fun block => some block.locked).symm
    have trie : cache.trie = middle.trie.graft owner slot leaf
        (Node.blank cache.layout.depth former (owner.getD slot)) :=
      congrArg View.trie view
    rw [view_modify found, labelled, node, copied, locked, Function.update_eq_self, trie,
      Trie.update_graft, view]
    exact View.ext rfl rfl (Function.update_idem _ _ _) rfl rfl rfl rfl

/-- Only a block that resolves nowhere passes the checks after a walk. -/
theorem checkAbsent_outcome {tag : Nat} {walk : Walk} (walked : cache.view.Walked tag walk)
    (isTag : cache.layout.blockOf address = tag) :
    Ends (cache.checkAbsent address walk tag)
      (fun _ => (∃ anchor, walk = .miss anchor) ∧ cache.view.shortcut tag = none)
      (cache.view.Uninserted address) := by
  subst isTag
  cases walk with
  | hit index => exact .present index (.inr walked)
  | miss anchor =>
    change Ends (require (!cache.fastPath.contains (cache.layout.blockOf address)) _) _ _
    rw [FastPath.contains_eq_isSome_lookup]
    cases leads : cache.fastPath.lookup (cache.layout.blockOf address) with
    | none => exact ⟨⟨anchor, rfl⟩, leads⟩
    | some index => exact .present index (.inl leads)

theorem settle_outcome {middle : View} {tag slot leaf : Nat} {owner : Option Nat}
    {bytes : Array UInt8} (tidy : cache.Tidy)
    (view : cache.view = middle.place owner slot leaf
      (Node.blank middle.frame.layout.depth tag (owner.getD slot))
      (some { tag, bytes, dirty := false })) :
    Ends (cache.installFastPath tag leaf)
      (fun after => after.Tidy ∧ middle.Settled tag owner slot leaf bytes after.view)
      (FastPathOverflow middle) := by
  refine (installFastPath_outcome tidy tag leaf).mono ?_ ?_
  · rintro after ⟨tidy', same, sequence_le, here, others⟩
    rw [view] at same sequence_le others
    exact ⟨tidy', same, sequence_le, here, fun {other target} => others other target⟩
  · intro fault overflow
    rw [view] at overflow
    exact overflow

/-- An insertion ends with its leaf in place, or for one of the reasons it may fail. -/
theorem installPath_outcome (sound : cache.view.Sound) (tidy : cache.Tidy)
    {content : Nat → Array UInt8 → Array UInt8} {bytes : Array UInt8}
    (bytes_eq : content (cache.layout.placeOf address)
      (Array.replicate cache.layout.blockBytes 0) = bytes)
    (whole : bytes.size = cache.layout.blockBytes) :
    Ends (cache.installPath address content)
      (fun (built, after) => ∃ leaf, built.getLast? = some leaf ∧ after.Tidy ∧ after.view.Sound ∧
        cache.view.Inserted (cache.layout.blockOf address) bytes leaf after.view)
      (cache.view.Uninserted address) := by
  have regular : cache.layout.Regular := sound.founded.regular
  refine (Ends.require (cache.layout.contains address) _).andThen
    (fun _ failed => .outside failed.1) fun _ inRange => ?_
  rw [regular.tag_eq, ok_bind]
  refine (search_outcome sound tidy address).andThen (fun _ outside => .outside outside) ?_
  rintro ⟨walk, walked⟩ ⟨unmoved, ends⟩
  have layout : walked.layout = cache.layout := unmoved.layout
  have sound' := unmoved.sound sound
  -- from here on the cache is the one after the walk, which looks the same
  rw [← layout] at bytes_eq whole inRange ends ⊢
  rw [← unmoved.view] at ends ⊢
  dsimp only
  refine Ends.bind (checkAbsent_outcome ends rfl) ?_
  rintro _ ⟨⟨anchor, rfl⟩, absent⟩
  obtain ⟨level, level_lt, route, free⟩ := ends
  obtain ⟨pinned, pins, anchored, _⟩ := pinnedBy_spec sound' level_lt route free absent
  have attached := attachment_eq sound' level_lt route
  change level < walked.layout.depth at level_lt
  obtain ⟨levels, depth_eq⟩ : ∃ levels, level + levels + 1 = walked.layout.depth :=
    ⟨walked.layout.depth - level - 1, by omega⟩
  have count : walked.layout.depth + 1 - (level + 1) = levels + 1 := by omega
  have unresolved : ∀ index, ¬ walked.view.Resolves (walked.layout.blockOf address) index := by
    rintro index (leads | whole')
    · rw [absent] at leads
      cases leads
    · exact View.not_route_of_free level_lt route free index whole'
  simp only [Walk.anchor, attached, ok_bind, pins, count]
  refine (buildPath_outcome sound' unmoved.tidy inRange depth_eq anchored).andThen
    (fun _ noRoom => .noRoom noRoom) ?_
  rintro ⟨built, hung⟩ ⟨tidy_hung, leaf, middle, owner, slot, former, isLast, shed, vacancy, view⟩
  have frame : hung.frame = middle.frame := congrArg View.frame view
  have layout_hung : hung.layout = walked.layout :=
    congrArg Frame.layout (frame.trans shed.frame)
  have depth_hung : walked.layout.depth = middle.frame.layout.depth :=
    congrArg (fun frame : Frame => frame.layout.depth) shed.frame.symm
  rw [← layout_hung] at bytes_eq whole view
  obtain ⟨labelled, ran, tidy_labelled, view_labelled⟩ :=
    label_spec tidy_hung (walked.layout.blockOf address) view bytes_eq whole
  have offset : hung.layout.offset address = .ok (hung.layout.placeOf address) := by
    rw [layout_hung, layout]
    exact regular.offset_eq address
  simp only [isLast, offset, ok_bind, ran]
  rw [layout_hung, depth_hung] at view_labelled
  refine (settle_outcome tidy_labelled view_labelled).andThen (fun fault overflow => ?_) ?_
  · rw [FastPathOverflow, shed.frame, shed.sequence] at overflow
    exact .overflow overflow
  · rintro after ⟨tidy_after, settled⟩
    exact ⟨leaf, isLast, tidy_after.record (Stats.recordInsertion · built.length), settled.sound vacancy,
      settled.inserted shed vacancy unresolved⟩

theorem install_outcome (sound : cache.view.Sound) (tidy : cache.Tidy)
    {content : Nat → Array UInt8 → Array UInt8} {bytes : Array UInt8}
    (bytes_eq : content (cache.layout.placeOf address)
      (Array.replicate cache.layout.blockBytes 0) = bytes)
    (whole : bytes.size = cache.layout.blockBytes) :
    Ends (cache.install address content)
      (fun (leaf, after) => after.Tidy ∧ after.view.Sound ∧
        cache.view.Inserted (cache.layout.blockOf address) bytes leaf after.view)
      (cache.view.Uninserted address) := by
  refine Ends.bind (installPath_outcome sound tidy bytes_eq whole) ?_
  rintro ⟨built, after⟩ ⟨leaf, isLast, tidy', sound', inserted⟩
  dsimp only at isLast ⊢
  rw [isLast]
  exact ⟨tidy', sound', inserted⟩

theorem insert_outcome (sound : cache.view.Sound) (tidy : cache.Tidy) (value : UInt8) :
    Ends (cache.insert address value)
      (fun (leaf, after) => after.Tidy ∧ after.view.Sound ∧
        cache.view.Inserted (cache.layout.blockOf address)
          ((Array.replicate cache.layout.blockBytes 0).setIfInBounds
            (cache.layout.placeOf address) value) leaf after.view)
      (cache.view.Uninserted address) :=
  install_outcome sound tidy rfl (by simp)

theorem fill_outcome (sound : cache.view.Sound) (tidy : cache.Tidy) (block : Array UInt8) :
    Ends (cache.fill address block)
      (fun (leaf, after) => after.Tidy ∧ after.view.Sound ∧
        cache.view.Inserted (cache.layout.blockOf address) block leaf after.view)
      (fun fault => block.size ≠ cache.layout.blockBytes ∨ cache.view.Uninserted address fault) := by
  have regular : cache.layout.Regular := sound.founded.regular
  rw [fill, regular.blockSize_eq, ok_bind]
  refine (Ends.require (decide (block.size = cache.layout.blockBytes)) _).andThen
    (fun _ failed => .inl (of_decide_eq_false failed.1)) fun _ passed => ?_
  have whole := of_decide_eq_true passed
  exact (install_outcome sound tidy rfl whole).mono (fun _ installed => installed)
    fun _ failed => .inr failed

end Cache

end TrieCache
