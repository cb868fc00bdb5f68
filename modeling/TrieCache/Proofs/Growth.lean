import TrieCache.Proofs.FlatMemory
import TrieCache.Proofs.Guard
import TrieCache.Proofs.Raising

/-!
# Every insertion gets through

As long as a path and no more is free of locks, a block that resolves nowhere can be put in.
The levels that the walk did not find are built and no others, in blocks that are neither
locked nor on the way.  Afterwards the walk ends at the new leaf, and so does the fast path.

What can still stop an insertion is the count of insertions into the fast path, which is a
word and grows by one at most with every operation.
-/

namespace TrieCache

namespace View

/-- The missing part of a path was built: the levels below its anchor, and nothing else. -/
structure Grown (before : View) (tag level : Nat) (anchor : Option Nat) (built : List Nat)
    (after : View) : Prop where
  frame : after.frame = before.frame
  route : before.trie.Route (before.frame.layout.slots tag level) anchor
  length_eq : level + built.length = before.frame.layout.depth
  nodup : built.Nodup
  unlocked {index : Nat} : index ∈ built → before.locked index = some false
  /-- No block of the way to the anchor is taken. -/
  apart {above : List Nat} {index : Nat} : above <:+ before.frame.layout.slots tag level →
    before.trie.Route above (some index) → index ∉ built
  reaches {place index : Nat} : built[place]? = some index →
    after.trie.Route (before.frame.layout.slots tag (level + place + 1)) (some index)
  others {index : Nat} : index ∉ built →
    (after.trie.node index).map Node.level = (before.trie.node index).map Node.level
  shortcut {other index : Nat} : after.shortcut other = some index ↔
    before.shortcut other = some index ∧ index ∉ built

theorem Raised.grown {before after : View} {tag level : Nat} {anchor : Option Nat}
    {pinned built : List Nat} (raised : Raised tag before level anchor pinned built after)
    (anchored : before.Anchored tag level anchor pinned)
    (length_eq : level + built.length = before.frame.layout.depth) :
    before.Grown tag level anchor built after where
  frame := raised.frame
  route := anchored.route
  length_eq := length_eq
  nodup := raised.nodup
  unlocked := raised.unlocked _
  apart := fun suffix route isBuilt =>
    raised.not_mem_pinned _ isBuilt (anchored.guarded suffix route)
  reaches := raised.reaches
  others := raised.level_eq
  shortcut := raised.shortcut_eq_some_iff

end View

theorem Block.node?_relabelled (content : Array UInt8 → Array UInt8) (tag : Nat) (block : Block) :
    ({ block.mapBytes content with tag } : Block).node? =
      block.node?.map fun node => { node with tag } := by
  cases block with
  | mk valid _ _ _ _ _ _ _ payload => cases payload <;> cases valid <;> rfl

/-- What the trie knows of a block tells what was built in it. -/
theorem Block.built_eq {layout : Layout} {first second : Block} (shaped : first.Shaped layout)
    (shaped' : second.Shaped layout)
    (levels : first.node?.map Node.level = second.node?.map Node.level) :
    first.valid = second.valid ∧ first.level = second.level := by
  have unbuilt {block : Block} (shaped : block.Shaped layout) (invalid : block.valid = false) :
      block.level = 0 := by
    cases shaped with
    | unbuilt _ level _ _ => exact level
    | table valid => exact absurd (invalid.symm.trans valid) (by simp)
    | leaf valid => exact absurd (invalid.symm.trans valid) (by simp)
  cases valid : first.valid <;> cases valid' : second.valid <;>
    simp only [Block.node?, valid, valid', Bool.false_eq_true, if_false, if_true, Option.map_none,
      Option.map_some, Option.some.injEq, reduceCtorEq] at levels
  · exact ⟨rfl, (unbuilt shaped valid).trans (unbuilt shaped' valid').symm⟩
  · exact ⟨rfl, levels⟩

/-- A change of one block is known by what it makes of that block. -/
theorem Pool.modify_congr {pool : Pool} {index : Nat} {change change' : Block → Block}
    (same : ∀ block, pool.blocks[index]? = some block → change block = change' block) :
    pool.modify index change = pool.modify index change' := by
  refine congrArg (Pool.mk · pool.hand) (Array.ext_getElem? fun other => ?_)
  have changed := pool.blocks_modify index other change
  have changed' := pool.blocks_modify index other change'
  refine changed.trans (Eq.trans ?_ changed'.symm)
  split
  next here =>
    subst here
    exact Option.map_congr fun block found => same block found
  next => rfl

namespace Cache

variable {cache after : Cache} {address : Address}

section Stages

/-- Giving a block its bytes and its tag changes neither links nor levels. -/
structure Relabelled (before after : Cache) : Prop where
  frame : after.frame = before.frame
  link (owner : Option Nat) (slot : Nat) : after.trie.link owner slot = before.trie.link owner slot
  level (index : Nat) :
    (after.trie.node index).map Node.level = (before.trie.node index).map Node.level
  fastPath : after.fastPath = before.fastPath

theorem relabelled_of_updateBlock {leaf tag : Nat} {content : Array UInt8 → Array UInt8}
    (ran : cache.updateBlock leaf (fun block => { block.mapBytes content with tag }) = .ok after) :
    cache.Relabelled after := by
  obtain ⟨leaf_lt, rfl⟩ := updateBlock_eq_ok_iff.mp ran
  obtain ⟨block, found⟩ := Pool.exists_block leaf_lt
  have node : (cache.pool.modify leaf fun block => { block.mapBytes content with tag }).look
      Block.node? = Function.update cache.trie.node leaf
        ((cache.trie.node leaf).map fun node => { node with tag }) := by
    rw [Pool.look_modify found, Block.node?_relabelled, ← node_of_block found]
    rfl
  refine ⟨frame_modify cache leaf _, fun owner slot => ?_, fun index => ?_, rfl⟩
  · cases owner with
    | none => rfl
    | some table =>
      change (Pool.look _ Block.node? table).bind _ = (cache.trie.node table).bind _
      rw [node]
      by_cases isLeaf : table = leaf
      · rw [isLeaf, Function.update_self, Option.bind_map]
        rfl
      · rw [Function.update_of_ne isLeaf]
  · change (Pool.look _ Block.node? index).map _ = _
    rw [node]
    by_cases isLeaf : index = leaf
    · rw [isLeaf, Function.update_self, Option.map_map]
      rfl
    · rw [Function.update_of_ne isLeaf]

theorem Relabelled.route {before after : Cache} (relabelled : before.Relabelled after)
    {slots : List Nat} {owner : Option Nat} (route : before.trie.Route slots owner) :
    after.trie.Route slots owner :=
  route.congr relabelled.link

theorem Relabelled.grown {before : View} {hung labelled : Cache}
    (relabelled : hung.Relabelled labelled) {tag level : Nat} {anchor : Option Nat}
    {built : List Nat} (grown : before.Grown tag level anchor built hung.view) :
    before.Grown tag level anchor built labelled.view where
  frame := relabelled.frame.trans grown.frame
  route := grown.route
  length_eq := grown.length_eq
  nodup := grown.nodup
  unlocked := grown.unlocked
  apart := grown.apart
  reaches := fun isBuilt => relabelled.route (grown.reaches isBuilt)
  others := fun {index} other => (relabelled.level index).trans (grown.others other)
  shortcut := by
    intro other index
    change labelled.fastPath.lookup other = some index ↔ _
    rw [relabelled.fastPath]
    exact grown.shortcut

/-- What an insertion that got through went through: the walk, the building of the path, the
content of the leaf, and the entry on the fast path. -/
inductive Staged (cache : Cache) (address : Address) (content : Nat → Array UInt8 → Array UInt8) :
    (built : List Nat) → (after : Cache) → Prop
  | mk {anchor : Option Nat} {level levels leaf : Nat} {pinned built : List Nat}
    {walked hung labelled indexed : Cache}
    (passed : cache.checkAddress address = .ok ())
    (searched : cache.search address = .ok (.miss anchor, walked)) (unmoved : cache.Unmoved walked)
    (checked : walked.checkAbsent address (.miss anchor) (cache.layout.blockOf address) = .ok ())
    (attached : walked.attachment anchor = .ok { level := level + 1, parent := anchor })
    (pins : walked.pinnedBy { level := level + 1, parent := anchor } = .ok pinned)
    (depth_eq : level + levels + 1 = cache.layout.depth)
    (anchored : walked.view.Anchored (cache.layout.blockOf address) level anchor pinned)
    (path : walked.buildPath address (level + 1) anchor pinned (levels + 1) = .ok (built, hung))
    (isLast : built.getLast? = some leaf)
    (changed : hung.updateBlock leaf (fun block =>
      { block.mapBytes (content (cache.layout.placeOf address)) with
        tag := cache.layout.blockOf address }) = .ok labelled)
    (installed : labelled.installFastPath (cache.layout.blockOf address) leaf = .ok indexed) :
    Staged cache address content built (indexed.record (Stats.recordInsertion · built.length))

theorem staged_of_installPath (sound : cache.view.Sound) (tidy : cache.Tidy)
    {content : Nat → Array UInt8 → Array UInt8} {built : List Nat}
    (ran : cache.installPath address content = .ok (built, after)) :
    cache.Staged address content built after := by
  have regular : cache.layout.Regular := sound.founded.regular
  obtain ⟨_, passed, ran⟩ := bind_eq_ok_iff.mp ran
  have inRange := require_eq_ok_iff.mp passed
  obtain ⟨tag, isTag, ran⟩ := bind_eq_ok_iff.mp ran
  cases (regular.tag_eq address).symm.trans isTag
  obtain ⟨⟨walk, walked⟩, searched, ran⟩ := bind_eq_ok_iff.mp ran
  obtain ⟨unmoved, ends⟩ := (search_outcome sound tidy address).of_eq_ok searched
  have layout : walked.layout = cache.layout := unmoved.layout
  have sound' := unmoved.sound sound
  obtain ⟨_, checked, ran⟩ := bind_eq_ok_iff.mp ran
  rw [← unmoved.view] at ends
  obtain ⟨⟨anchor, rfl⟩, absent⟩ :=
    (checkAbsent_outcome ends (congrArg (Layout.blockOf · address) layout)).of_eq_ok checked
  obtain ⟨level, level_lt, route, free⟩ := ends
  obtain ⟨pinned, pins, anchored, _⟩ := pinnedBy_spec sound' level_lt route free absent
  have attached := attachment_eq sound' level_lt route
  change level < walked.layout.depth at level_lt
  obtain ⟨levels, depth_eq⟩ : ∃ levels, level + levels + 1 = walked.layout.depth :=
    ⟨walked.layout.depth - level - 1, by omega⟩
  have count : walked.layout.depth + 1 - (level + 1) = levels + 1 := by omega
  simp only [Walk.anchor, attached, ok_bind, pins, count] at ran
  obtain ⟨⟨built', hung⟩, path, ran⟩ := bind_eq_ok_iff.mp ran
  obtain ⟨_, leaf, _, _, _, _, isLast, _⟩ :=
    (buildPath_outcome sound' unmoved.tidy (layout ▸ inRange) depth_eq
      (layout.symm ▸ anchored)).of_eq_ok path
  have layout_hung : hung.layout = cache.layout :=
    (stable_steady.buildPath steady_of_swept path).layout.trans layout
  dsimp only at ran isLast
  rw [isLast, layout_hung] at ran
  dsimp only at ran
  rw [regular.offset_eq, ok_bind] at ran
  obtain ⟨labelled, changed, ran⟩ := bind_eq_ok_iff.mp ran
  obtain ⟨indexed, installed, same⟩ := bind_eq_ok_iff.mp ran
  cases same
  exact .mk passed searched unmoved checked attached pins (layout ▸ depth_eq) anchored path isLast
    changed installed

/-- An insertion that goes through these stages gets through. -/
theorem Staged.installPath_eq {content : Nat → Array UInt8 → Array UInt8} {built : List Nat}
    (staged : cache.Staged address content built after) (sound : cache.view.Sound) :
    cache.installPath address content = .ok (built, after) := by
  have regular : cache.layout.Regular := sound.founded.regular
  cases staged with
  | @mk anchor level levels leaf pinned built walked hung labelled indexed passed searched unmoved
      checked attached pins depth_eq anchored path isLast changed installed =>
    have layout : walked.layout = cache.layout := unmoved.layout
    have layout_hung : hung.layout = cache.layout :=
      (stable_steady.buildPath steady_of_swept path).layout.trans layout
    have count : walked.layout.depth + 1 - (level + 1) = levels + 1 := by
      rw [layout]
      omega
    have offset : hung.layout.offset address = .ok (cache.layout.placeOf address) := by
      rw [layout_hung]
      exact regular.offset_eq address
    simp only [installPath, passed, regular.tag_eq, searched, checked, Walk.anchor, attached, pins,
      count, path, isLast, offset, changed, installed, ok_bind, pure_eq_ok]

/-- Of its content an insertion shows what becomes of a block of zeros. -/
theorem Staged.congr {content content' : Nat → Array UInt8 → Array UInt8} {built : List Nat}
    (staged : cache.Staged address content built after) (sound : cache.view.Sound)
    (same : content (cache.layout.placeOf address) (Array.replicate cache.layout.blockBytes 0) =
      content' (cache.layout.placeOf address) (Array.replicate cache.layout.blockBytes 0)) :
    cache.Staged address content' built after := by
  cases staged with
  | @mk anchor level levels leaf pinned built walked hung labelled indexed passed searched unmoved
      checked attached pins depth_eq anchored path isLast changed installed =>
    refine .mk passed searched unmoved checked attached pins depth_eq anchored path isLast ?_
      installed
    have layout : walked.layout = cache.layout := unmoved.layout
    have layout_hung : hung.layout = walked.layout :=
      (stable_steady.buildPath steady_of_swept path).layout
    obtain ⟨tidy', leaf', _, _, _, _, isLast', _, _, view⟩ :=
      (buildPath_outcome (unmoved.sound sound) unmoved.tidy
        (layout ▸ require_eq_ok_iff.mp passed) (layout ▸ depth_eq)
        (layout.symm ▸ anchored)).of_eq_ok path
    cases isLast.symm.trans isLast'
    rw [← layout_hung] at view
    obtain ⟨block, found, _, _, payload, _⟩ := block_of_blank tidy' view
    rw [layout_hung, layout] at payload
    have alike : ∀ block', hung.pool.blocks[leaf]? = some block' →
        ({ block'.mapBytes (content' (cache.layout.placeOf address)) with
          tag := cache.layout.blockOf address } : Block) =
        { block'.mapBytes (content (cache.layout.placeOf address)) with
          tag := cache.layout.blockOf address } := by
      intro block' found'
      cases found.symm.trans found'
      simp only [Block.mapBytes, payload, same]
    rw [← changed, updateBlock, updateBlock, Pool.modify_congr alike]

theorem grown_of_installPath (sound : cache.view.Sound) (tidy : cache.Tidy)
    {content : Nat → Array UInt8 → Array UInt8} {built : List Nat}
    (ran : cache.installPath address content = .ok (built, after)) :
    ∃ (anchor : Option Nat) (walked : Cache) (level : Nat) (labelled indexed : Cache) (leaf : Nat),
      cache.search address = .ok (.miss anchor, walked) ∧
      cache.view.Grown (cache.layout.blockOf address) level anchor built labelled.view ∧
      cache.Steady labelled ∧ labelled.fastPath.Recorded ∧ built.getLast? = some leaf ∧
      labelled.installFastPath (cache.layout.blockOf address) leaf = .ok indexed ∧
      after = indexed.record (Stats.recordInsertion · built.length) := by
  cases staged_of_installPath sound tidy ran with
  | @mk anchor level levels leaf pinned built walked hung labelled indexed passed searched unmoved
      checked attached pins depth_eq anchored path isLast changed installed =>
    have inRange := require_eq_ok_iff.mp passed
    have layout : walked.layout = cache.layout := unmoved.layout
    have sound' := unmoved.sound sound
    -- from here on the cache is the one after the walk, which looks the same
    rw [← layout] at inRange depth_eq anchored changed installed ⊢
    rw [← unmoved.view]
    have tidy' := ((buildPath_outcome sound' unmoved.tidy inRange depth_eq anchored).of_eq_ok
      path).1
    obtain ⟨raised, length⟩ :=
      raised_of_buildPath sound' unmoved.tidy inRange (by omega) anchored path
    have relabelled := relabelled_of_updateBlock changed
    have length_eq : level + built.length = walked.view.frame.layout.depth := by
      change _ = walked.layout.depth
      omega
    have steady : cache.Steady labelled :=
      ((stable_steady.search searched).trans (stable_steady.buildPath steady_of_swept path)).trans
        (stable_steady.updateBlock changed)
    exact ⟨anchor, walked, level, labelled, indexed, leaf, searched,
      relabelled.grown (raised.grown anchored length_eq), steady,
      relabelled.fastPath ▸ tidy'.recorded, isLast, installed, rfl⟩

end Stages

/-- A block, and the blocks above it by the parents that they name. -/
inductive InLineage (cache : Cache) : (bottom index : Nat) → Prop
  | bottom {index : Nat} : InLineage cache index index
  | above {bottom index : Nat} {block : Block} : cache.pool.blocks[bottom]? = some block →
    1 < block.level → InLineage cache block.parent index → InLineage cache bottom index

/-- The level of the block that a walk ended at; zero if it did not enter the trie. -/
def HasLevel (cache : Cache) (level : Nat) : Option Nat → Prop
  | none => level = 0
  | some anchor => ∃ block, cache.pool.blocks[anchor]? = some block ∧ block.level = level

/-- A block was put in: these slots of the pool were taken for its path, from the top down. -/
structure PutIn (before : Cache) (address : Address) (bytes : Array UInt8) (built : List Nat)
    (leaf : Nat) (after : Cache) : Prop where
  last : built.getLast? = some leaf
  nodup : built.Nodup
  unlocked {index : Nat} : index ∈ built →
    ∃ block, before.pool.blocks[index]? = some block ∧ block.locked = false
  /-- The levels below the end of the walk are built, and nothing on the way there is taken. -/
  missing : ∃ anchor walked level, before.search address = .ok (.miss anchor, walked) ∧
    before.HasLevel level anchor ∧ level + built.length = before.layout.depth ∧
    (∀ bottom index, anchor = some bottom → before.InLineage bottom index → index ∉ built) ∧
    ∀ place index, built[place]? = some index → ∃ block, after.pool.blocks[index]? = some block ∧
      block.valid = true ∧ block.parentValid = true ∧ block.level = level + place + 1
  /-- Nothing else is built. -/
  others {index : Nat} {block : Block} : index ∉ built → before.pool.blocks[index]? = some block →
    ∃ same, after.pool.blocks[index]? = some same ∧ same.valid = block.valid ∧
      same.level = block.level
  /-- The walk finds the new leaf, and the fast path leads there. -/
  hit : ∃ walked, after.search address = .ok (.hit leaf, walked)
  shortcut : after.fastPath.lookup (before.layout.blockOf address) = some leaf
  carries : ∃ block, after.Carries (before.layout.blockOf address) leaf block ∧
    block.dirty = false ∧ block.payload = .data bytes

section Growth

theorem route_of_inLineage (linked : cache.trie.Linked) {slots : List Nat} {bottom index : Nat}
    (inLineage : cache.InLineage bottom index) (route : cache.trie.Route slots (some bottom)) :
    ∃ above, above <:+ slots ∧ cache.trie.Route above (some index) := by
  induction inLineage generalizing slots with
  | bottom => exact ⟨slots, List.suffix_rfl, route⟩
  | above found below _ ih =>
    obtain ⟨node, isNode, _⟩ := linked.node_of_route route
    cases route with
    | @step above owner slot _ path leads =>
      obtain ⟨_, isNode', _, hangs⟩ := linked.target leads
      cases isNode.symm.trans isNode'
      obtain ⟨block, found', _, rfl⟩ := block_of_node isNode
      cases found.symm.trans found'
      cases owner with
      | none => exact absurd hangs.1 (Nat.ne_of_gt below)
      | some parent =>
        obtain ⟨named, _⟩ := hangs
        rw [← named] at path
        obtain ⟨above', suffix, route⟩ := ih path
        exact ⟨above', suffix.trans (List.suffix_cons _ _), route⟩

theorem block_of_route (linked : cache.trie.Linked) {layout : Layout} {tag level index : Nat}
    (route : cache.trie.Route (layout.slots tag level) (some index)) :
    ∃ block, cache.pool.blocks[index]? = some block ∧ block.valid = true ∧
      block.parentValid = true ∧ block.level = level := by
  obtain ⟨node, isNode, attached, isLevel⟩ := linked.node_of_route route
  obtain ⟨block, found, valid, rfl⟩ := block_of_node isNode
  rw [Layout.length_slots] at isLevel
  exact ⟨block, found, valid, attached, isLevel⟩

theorem hasLevel_of_route (linked : cache.trie.Linked) {tag level : Nat} {anchor : Option Nat}
    (route : cache.trie.Route (cache.layout.slots tag level) anchor) :
    cache.HasLevel level anchor := by
  cases anchor with
  | none =>
    have length := congrArg List.length route.eq_nil
    rw [Layout.length_slots] at length
    exact length
  | some index =>
    obtain ⟨block, found, _, _, isLevel⟩ := block_of_route linked route
    exact ⟨block, found, isLevel⟩

theorem carries_of_copy (tidy : cache.Tidy) {index : Nat} {copy : Copy}
    (holds : cache.view.copies index = some copy) : ∃ block, cache.Carries copy.tag index block ∧
      block.dirty = copy.dirty ∧ block.payload = .data copy.bytes := by
  obtain ⟨block, found, seen⟩ := Pool.look_eq_some_iff.mp holds
  obtain ⟨valid, isLevel, rfl⟩ := Block.copy?_eq_some_iff.mp seen
  obtain ⟨bytes, payload, _⟩ := tidy.data_of_leaf found valid isLevel
  refine ⟨block, ⟨found, valid, isLevel, rfl⟩, rfl, ?_⟩
  rw [payload, Block.bytes?, payload]
  rfl

/-- Where the trie has the same levels, the same is built. -/
theorem built_of_level_eq (tidy : cache.Tidy) (tidy' : after.Tidy)
    (frame : after.frame = cache.frame) {index : Nat} {block : Block}
    (found : cache.pool.blocks[index]? = some block)
    (levels : (after.trie.node index).map Node.level = (cache.trie.node index).map Node.level) :
    ∃ same, after.pool.blocks[index]? = some same ∧ same.valid = block.valid ∧
      same.level = block.level := by
  obtain ⟨same, found'⟩ : ∃ same, after.pool.blocks[index]? = some same := by
    refine Pool.exists_block ?_
    have capacity : after.pool.capacity = cache.pool.capacity := congrArg Frame.capacity frame
    exact capacity ▸ Pool.lt_capacity_of_block found
  have layout : after.layout = cache.layout := congrArg Frame.layout frame
  rw [node_of_block found, node_of_block found'] at levels
  exact ⟨same, found',
    Block.built_eq (layout ▸ tidy'.shaped _ _ found') (tidy.shaped _ _ found) levels⟩

theorem search_of_path (sound : cache.view.Sound) (tidy : cache.Tidy) {leaf : Nat}
    (inRange : cache.layout.contains address = true)
    (route : cache.trie.Route (cache.view.path (cache.layout.blockOf address)) (some leaf)) :
    ∃ walked, cache.search address = .ok (.hit leaf, walked) := by
  obtain ⟨⟨walk, walked⟩, searched, _, ends⟩ :=
    (search_outcome sound tidy address).exists_ok fun _ outside => by simp [inRange] at outside
  cases walk with
  | hit other =>
    cases Option.some.inj (Trie.Route.functional ends route)
    exact ⟨walked, searched⟩
  | miss anchor =>
    obtain ⟨_, level_lt, above, free⟩ := ends
    exact absurd route (View.not_route_of_free level_lt above free leaf)

theorem trie_of_installFastPath {tag leaf : Nat}
    (ran : cache.installFastPath tag leaf = .ok after) : after.trie = cache.trie := by
  obtain ⟨_, _, _, rfl⟩ := filed_of_installFastPath ran
  rfl

theorem putIn_of_installPath (sound : cache.view.Sound) (tidy : cache.Tidy)
    {content : Nat → Array UInt8 → Array UInt8} {bytes : Array UInt8} {built : List Nat}
    (bytes_eq : content (cache.layout.placeOf address)
      (Array.replicate cache.layout.blockBytes 0) = bytes)
    (whole : bytes.size = cache.layout.blockBytes)
    (ran : cache.installPath address content = .ok (built, after)) :
    cache.PutIn address bytes built (built.getLast?.getD 0) after := by
  obtain ⟨leaf, isLast, tidy', sound', inserted⟩ :=
    (installPath_outcome sound tidy bytes_eq whole).of_eq_ok ran
  obtain ⟨anchor, walked, level, labelled, indexed, _, searched, grown, _, _, _, installed, same⟩ :=
    grown_of_installPath sound tidy ran
  have filed : indexed.trie = labelled.trie := trie_of_installFastPath installed
  have trie : after.trie = labelled.trie := by
    rw [same]
    exact filed
  have layout : after.layout = cache.layout := congrArg Frame.layout inserted.frame
  have reaches {place index : Nat} (isBuilt : built[place]? = some index) :
      after.trie.Route (cache.layout.slots (cache.layout.blockOf address) (level + place + 1))
        (some index) := by
    rw [trie]
    exact grown.reaches isBuilt
  have length_eq : level + built.length = cache.layout.depth := grown.length_eq
  obtain ⟨_, passed, _⟩ := bind_eq_ok_iff.mp ran
  have inRange := require_eq_ok_iff.mp passed
  rw [isLast, Option.getD_some]
  refine ⟨isLast, grown.nodup, fun isBuilt => ?_, ?_, fun {index block} other found => ?_, ?_,
    inserted.shortcut, carries_of_copy tidy' inserted.held⟩
  · obtain ⟨block, found, unlocked⟩ := Pool.look_eq_some_iff.mp (grown.unlocked isBuilt)
    exact ⟨block, found, Option.some.inj unlocked⟩
  · refine ⟨anchor, walked, level, searched, hasLevel_of_route sound.linked grown.route, length_eq,
      ?_, fun place index isBuilt => block_of_route sound'.linked (reaches isBuilt)⟩
    rintro bottom index rfl inLineage
    obtain ⟨above, suffix, route⟩ := route_of_inLineage sound.linked inLineage grown.route
    exact grown.apart suffix route
  · have levels := grown.others other
    change (labelled.trie.node index).map _ = (cache.trie.node index).map _ at levels
    rw [← trie] at levels
    exact built_of_level_eq tidy tidy' inserted.frame found levels
  · refine search_of_path sound' tidy' (layout ▸ inRange) ?_
    rw [List.getLast?_eq_getElem?] at isLast
    have place_lt := (List.getElem?_eq_some_iff.mp isLast).1
    have bottom : level + (built.length - 1) + 1 = cache.layout.depth := by omega
    have route := reaches isLast
    rw [bottom, ← layout] at route
    exact route

theorem unresolved_of_missed (sound : cache.view.Sound) (tidy : cache.Tidy)
    (missed : ∀ index walked, cache.search address ≠ .ok (.hit index, walked))
    (absent : cache.fastPath.lookup (cache.layout.blockOf address) = none)
    (inRange : cache.layout.contains address = true) (index : Nat) :
    ¬ cache.view.Resolves (cache.layout.blockOf address) index := by
  rintro (leads | route)
  · rw [show cache.view.shortcut = cache.fastPath.lookup from rfl, absent] at leads
    cases leads
  · obtain ⟨walked, hit⟩ := search_of_path sound tidy inRange route
    exact missed index walked hit

/-- An insertion into a run of a usable configuration gets through, when the block resolves
nowhere and the locks leave room for a path, unless the insertions can no longer be counted. -/
theorem putIn_outcome (sound : cache.view.Sound) (tidy : cache.Tidy)
    (room : cache.layout.depth ≤ cache.view.unlocked)
    (inRange : cache.layout.contains address = true)
    (unresolved : ∀ index, ¬ cache.view.Resolves (cache.layout.blockOf address) index)
    {content : Nat → Array UInt8 → Array UInt8} {bytes : Array UInt8}
    (bytes_eq : content (cache.layout.placeOf address)
      (Array.replicate cache.layout.blockBytes 0) = bytes)
    (whole : bytes.size = cache.layout.blockBytes) :
    Ends (cache.install address content)
      (fun (leaf, after) => ∃ built, cache.installPath address content = .ok (built, after) ∧
        cache.PutIn address bytes built leaf after)
      (FastPathOverflow cache.view) := by
  have outcome : Ends (cache.installPath address content) _ _ :=
    installPath_outcome sound tidy bytes_eq whole
  rw [install]
  cases ran : cache.installPath address content with
  | ok result => exact ⟨result.1, rfl, putIn_of_installPath sound tidy bytes_eq whole ran⟩
  | error fault =>
    rw [ran, Ends.error_iff] at outcome
    cases outcome with
    | outside outside => exact absurd (outside.symm.trans inRange) (by simp)
    | present index resolves => exact absurd resolves (unresolved index)
    | noRoom noRoom => exact absurd room (Nat.not_le_of_lt noRoom.2)
    | overflow overflow => exact overflow

/-- A block that neither the walk nor the fast path finds can be put in at every point of a
run of a usable configuration, as long as the locks leave as many blocks as a path has
levels.  Only a word that has counted to its end can stop that, after some `2 ^ 64`
operations. -/
theorem putIn_of_runAll {config : Config} {before : Cache} {commands : List Command}
    {replies : List Reply} (usable : config.Usable) (made : ofConfig config = .ok cache)
    (ran : cache.runAll commands = .ok (replies, before))
    (room : before.layout.depth ≤ before.view.unlocked)
    (inRange : before.layout.contains address = true)
    (missed : ∀ index walked, before.search address ≠ .ok (.hit index, walked))
    (absent : before.fastPath.lookup (before.layout.blockOf address) = none) :
    (∀ value, Ends (before.insert address value)
      (fun (leaf, after) => ∃ built,
        before.installPath address (fun offset bytes => bytes.setIfInBounds offset value) =
          .ok (built, after) ∧
        before.PutIn address ((Array.replicate before.layout.blockBytes 0).setIfInBounds
          (before.layout.placeOf address) value) built leaf after)
      (CountFull commands.length)) ∧
    ∀ block : Array UInt8, block.size = before.layout.blockBytes →
      Ends (before.fill address block)
        (fun (leaf, after) => ∃ built,
          before.installPath address (fun _ _ => block) = .ok (built, after) ∧
          before.PutIn address block built leaf after)
        (CountFull commands.length) := by
  obtain ⟨tidy, sound, counts⟩ := counts_of_runAll usable made ran
  have unresolved := unresolved_of_missed sound tidy missed absent inRange
  have regular : before.layout.Regular := sound.founded.regular
  refine ⟨fun value => ?_, fun block whole => ?_⟩
  · refine (putIn_outcome sound tidy room inRange unresolved rfl ?_).mono
      (fun _ putIn => putIn) counts
    rw [Array.size_setIfInBounds, Array.size_replicate]
  · have passed : require (decide (block.size = before.layout.blockBytes))
        (.partialFill address.toNat block.size before.layout.blockBytes) = .ok () :=
      require_eq_ok_iff.mpr (decide_eq_true whole)
    rw [fill, regular.blockSize_eq, ok_bind, passed, ok_bind]
    exact (putIn_outcome sound tidy room inRange unresolved rfl whole).mono
      (fun _ putIn => putIn) counts

/-- Three blocks are not locked, and one of them is on the way.  The table above the third
leaf is taken, and then that leaf, which has lost its parent. -/
theorem putIn_between_locks : ∃ cache before replies after built,
    ofConfig { Config.tiny with levels := 3 } = .ok cache ∧
      cache.runAll [.insert 0x01 1, .insert 0x10 2, .insert 0x30 3, .setLocked 6 true,
        .setLocked 1 true, .setLocked 2 true, .setLocked 4 true, .setLocked 5 true] =
          .ok (replies, before) ∧
      before.insert 0x18 5 = .ok (0, after) ∧
      before.installPath 0x18 (fun offset bytes => bytes.setIfInBounds offset 5) =
        .ok (built, after) ∧
      before.PutIn 0x18 ((Array.replicate before.layout.blockBytes 0).setIfInBounds
        (before.layout.placeOf 0x18) 5) built 0 after := by
  have answers : (do
      let cache ← ofConfig { Config.tiny with levels := 3 }
      let result ← cache.runAll [.insert 0x01 1, .insert 0x10 2, .insert 0x30 3,
        .setLocked 6 true, .setLocked 1 true, .setLocked 2 true, .setLocked 4 true,
        .setLocked 5 true]
      let walked ← result.2.search 0x18
      let inserted ← result.2.insert 0x18 5
      return (decide (result.2.layout.depth ≤ result.2.view.unlocked),
        result.2.layout.contains 0x18, result.2.fastPath.lookup (result.2.layout.blockOf 0x18),
        walked.1, inserted.1)) =
          .ok (true, true, none, .miss (some 3), 0) := by decide +kernel
  obtain ⟨cache, made, answers⟩ := bind_eq_ok_iff.mp answers
  obtain ⟨⟨replies, before⟩, ran, answers⟩ := bind_eq_ok_iff.mp answers
  obtain ⟨⟨walk, walked⟩, searched, answers⟩ := bind_eq_ok_iff.mp answers
  obtain ⟨⟨leaf, after⟩, inserted, answers⟩ := bind_eq_ok_iff.mp answers
  simp only [pure_eq_ok, Except.ok.injEq, Prod.mk.injEq] at answers
  obtain ⟨room, inRange, absent, rfl, rfl⟩ := answers
  have missed : ∀ index walked, before.search 0x18 ≠ .ok (.hit index, walked) := by
    intro index walked' hit
    rw [searched] at hit
    cases hit
  have usable : Config.Usable { Config.tiny with levels := 3 } :=
    ⟨rfl, ⟨4, rfl, by decide⟩, by decide, by decide⟩
  obtain ⟨built, installed, putIn⟩ := ((putIn_of_runAll usable made ran (of_decide_eq_true room)
    inRange missed absent).1 5).of_eq_ok inserted
  exact ⟨cache, before, replies, after, built, made, ran, inserted, installed, putIn⟩

end Growth

end Cache

end TrieCache
