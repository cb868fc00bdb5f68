import TrieCache.Proofs.Fresh

/-!
# Which leaves a walk reaches

When a table is taken out of the trie, only the blocks right below it lose their parent.
Blocks further down go on naming one, so a leaf may claim a parent and be cut off all the
same.  What tells is the whole lineage: the walk to the block of a leaf ends at that leaf
exactly when the leaf and all blocks above it, up to the first level, have a parent.

The walk to the block of a leaf is the one to the address of its tag.  A leaf carries the
tag of an address in the address space, for such is the address it was put in for.
-/

namespace TrieCache

namespace Layout

def HasBlock (layout : Layout) (tag : Nat) : Prop :=
  ∃ address, layout.contains address = true ∧ layout.blockOf address = tag

/-- The address of a block is a word, and belongs to the block. -/
theorem Regular.blockAddress_eq {layout : Layout} (regular : layout.Regular) (address : Address) :
    ∃ base : Address, layout.blockAddress (layout.blockOf address) = .ok base.toNat ∧
      layout.blockOf base = layout.blockOf address := by
  have blockBits_lt := regular.blockBits_lt
  have base_lt : layout.blockOf address * layout.blockBytes < 2 ^ 64 :=
    Nat.lt_of_le_of_lt (Nat.div_mul_le_self _ _) address.toNat_lt
  have base_eq : (UInt64.ofNat (layout.blockOf address * layout.blockBytes)).toNat =
      layout.blockOf address * layout.blockBytes :=
    UInt64.toNat_ofNat_of_lt base_lt
  refine ⟨UInt64.ofNat (layout.blockOf address * layout.blockBytes), ?_, ?_⟩
  · rw [base_eq]
    exact Word.shiftLeft_eq_ok_iff.mpr ⟨by omega, (Nat.mod_eq_of_lt base_lt).symm⟩
  · rw [blockOf, base_eq, Nat.mul_div_cancel _ layout.blockBytes_pos]

end Layout

namespace View

/-- The leaves carry tags of blocks of the address space. -/
def InSpace (view : View) : Prop :=
  ∀ ⦃index : Nat⦄ ⦃copy : Copy⦄, view.copies index = some copy →
    view.frame.layout.HasBlock copy.tag

variable {before after : View}

theorem Blank.inSpace (blank : before.Blank) : before.InSpace := by
  intro index copy holds
  rw [blank.copies] at holds
  cases holds

theorem InSpace.of_copies (inSpace : before.InSpace) (frame : after.frame = before.frame)
    (copies : ∀ {index : Nat} {copy : Copy}, after.copies index = some copy →
      ∃ older, before.copies index = some older ∧ older.tag = copy.tag) : after.InSpace := by
  intro index copy holds
  obtain ⟨older, holds', tagged⟩ := copies holds
  rw [frame, ← tagged]
  exact inSpace holds'

theorem InSpace.accessed {tag place : Nat} {access : Access} {byte : Option UInt8}
    (inSpace : before.InSpace) (accessed : before.Accessed tag place access byte after) :
    after.InSpace :=
  inSpace.of_copies accessed.frame accessed.exists_copy_before

theorem InSpace.inserted {tag leaf : Nat} {bytes : Array UInt8} (inSpace : before.InSpace)
    (inserted : before.Inserted tag bytes leaf after)
    (hasBlock : before.frame.layout.HasBlock tag) :
    after.InSpace := by
  intro index copy holds
  rw [inserted.frame]
  by_cases isLeaf : index = leaf
  · rw [isLeaf, inserted.held, Option.some.injEq] at holds
    exact holds ▸ hasBlock
  · exact inSpace (inserted.copies isLeaf holds)

theorem InSpace.published {chosen : Nat → Nat → Bool} (inSpace : before.InSpace)
    (published : before.Published chosen after) : after.InSpace :=
  inSpace.of_copies published.frame published.exists_copy_before

end View

namespace Cache

variable {cache after : Cache} {address : Address}

section Space

theorem contains_of_install {content : Nat → Array UInt8 → Array UInt8} {result : Nat × Cache}
    (ran : cache.install address content = .ok result) :
    cache.layout.contains address = true := by
  obtain ⟨_, installed, _⟩ := bind_eq_ok_iff.mp ran
  obtain ⟨_, passed, _⟩ := bind_eq_ok_iff.mp installed
  exact require_eq_ok_iff.mp passed

theorem inSpace_of_run (sound : cache.view.Sound) (tidy : cache.Tidy)
    (inSpace : cache.view.InSpace) {command : Command} {reply : Reply}
    (ran : cache.run command = .ok (reply, after)) : after.view.InSpace := by
  obtain ⟨_, _, effect⟩ := run_effect sound tidy ran
  generalize after.view = view at effect
  cases effect with
  | access accessed => exact inSpace.accessed accessed
  | read accessed => exact inSpace.accessed accessed
  | write accessed => exact inSpace.accessed accessed
  | @insert address value leaf _ inserted =>
    obtain ⟨_, installed, _⟩ := bind_eq_ok_iff.mp ran
    exact inSpace.inserted inserted ⟨address, contains_of_install installed, rfl⟩
  | @fill address block leaf _ inserted =>
    obtain ⟨_, filled, _⟩ := bind_eq_ok_iff.mp ran
    obtain ⟨_, _, filled⟩ := bind_eq_ok_iff.mp filled
    obtain ⟨_, _, installed⟩ := bind_eq_ok_iff.mp filled
    exact inSpace.inserted inserted ⟨address, contains_of_install installed, rfl⟩
  | flush published => exact inSpace.published published
  | retire published => exact inSpace.published published
  | search => exact inSpace
  | setLocked => exact inSpace
  | drain => exact inSpace

theorem Ready.inSpace_of_run (ready : cache.Ready) (inSpace : cache.view.InSpace)
    {command : Command} {reply : Reply} (ran : cache.run command = .ok (reply, after)) :
    after.view.InSpace := by
  cases ready with
  | sound tidy sound => exact Cache.inSpace_of_run sound tidy inSpace ran
  | vacant vacant => exact (vacant.run ran).1.blank.inSpace

theorem Ready.inSpace_of_runAll (ready : cache.Ready) (inSpace : cache.view.InSpace)
    {commands : List Command} {replies : List Reply}
    (ran : cache.runAll commands = .ok (replies, after)) : after.view.InSpace := by
  induction commands generalizing cache replies with
  | nil =>
    cases ran
    exact inSpace
  | cons command rest ih =>
    obtain ⟨⟨reply, middle⟩, first, ran⟩ := bind_eq_ok_iff.mp ran
    obtain ⟨⟨replies', _⟩, others, same⟩ := bind_eq_ok_iff.mp ran
    cases same
    exact ih (ready.run first) (ready.inSpace_of_run inSpace first) others

end Space

/-- A block and all blocks above it, up to the first level, have a parent. -/
inductive Attached (cache : Cache) : Nat → Prop
  | first {index : Nat} {block : Block} : cache.pool.blocks[index]? = some block →
    block.level = 1 → block.parentValid = true → Attached cache index
  | under {index : Nat} {block : Block} : cache.pool.blocks[index]? = some block →
    block.level ≠ 1 → block.parentValid = true → Attached cache block.parent →
      Attached cache index

section Lineage

/-- A block that has a parent hangs from the slot or the table that it names. -/
theorem link_of_parentValid (linked : cache.trie.Linked) {index : Nat} {block : Block}
    (found : cache.pool.blocks[index]? = some block) (valid : block.valid = true)
    (attached : block.parentValid = true) :
    ∃ owner slot, cache.trie.link owner slot = some index ∧
      match owner with
      | none => block.level = 1
      | some table => block.level ≠ 1 ∧ block.parent = table := by
  have isNode := (node_of_block found).trans (Block.node?_eq_some_iff.mpr ⟨valid, rfl⟩)
  obtain ⟨owner, slot, leads⟩ := linked.owned isNode attached
  obtain ⟨node, isNode', _, hangs⟩ := linked.target leads
  cases isNode.symm.trans isNode'
  refine ⟨owner, slot, leads, ?_⟩
  cases owner with
  | none => exact hangs.1
  | some table =>
    obtain ⟨named, above, isAbove, level⟩ := hangs
    have positive := linked.level_pos isAbove
    change block.level = above.level + 1 at level
    exact ⟨by omega, named⟩

/-- The slots on the way to an attached block, from the bottom of its lineage up. -/
theorem Attached.route (linked : cache.trie.Linked) {index : Nat} (attached : cache.Attached index)
    {block : Block} (found : cache.pool.blocks[index]? = some block) (valid : block.valid = true) :
    ∃ slots, cache.trie.Route slots (some index) := by
  induction attached generalizing block with
  | first found' level parentValid =>
    cases found.symm.trans found'
    obtain ⟨owner, slot, leads, named⟩ := link_of_parentValid linked found valid parentValid
    cases owner with
    | none => exact ⟨_, .step .top leads⟩
    | some table => exact absurd level named.1
  | under found' level parentValid _ ih =>
    cases found.symm.trans found'
    obtain ⟨owner, slot, leads, named⟩ := link_of_parentValid linked found valid parentValid
    cases owner with
    | none => exact absurd named level
    | some table =>
      obtain ⟨above, isAbove, _⟩ := Trie.link_some_eq_some_iff.mp leads
      obtain ⟨parent, found_parent, valid_parent, _⟩ := block_of_node isAbove
      rw [named.2] at ih
      obtain ⟨slots, route⟩ := ih found_parent valid_parent
      exact ⟨_, .step route leads⟩

/-- Whatever a route leads to is attached. -/
theorem attached_of_route (linked : cache.trie.Linked) {slots : List Nat} {index : Nat}
    (route : cache.trie.Route slots (some index)) : cache.Attached index := by
  generalize reached : some index = owner at route
  induction route generalizing index with
  | top => cases reached
  | @step above owner slot index' path leads ih =>
    cases reached
    obtain ⟨node, isNode, parentValid, hangs⟩ := linked.target leads
    obtain ⟨block, found, valid, rfl⟩ := block_of_node isNode
    cases owner with
    | none => exact .first found hangs.1 parentValid
    | some table =>
      obtain ⟨named, above, isAbove, level⟩ := hangs
      have positive := linked.level_pos isAbove
      change block.parent = table at named
      change block.level = above.level + 1 at level
      exact .under found (by omega) parentValid (named ▸ ih rfl)

end Lineage

/-- Walks end at the attached leaves, each at the leaf of its block. -/
structure ReachesAttached (cache : Cache) : Prop where
  /-- The address of a leaf's tag is one, and the walk to it ends at the leaf exactly when
  the leaf is attached. -/
  hit_iff {index : Nat} {block : Block} : cache.pool.blocks[index]? = some block →
    block.valid = true → block.level = cache.layout.depth →
      ∃ address : Address, cache.layout.blockAddress block.tag = .ok address.toNat ∧
        cache.layout.contains address = true ∧
          ∃ walk walked, cache.search address = .ok (walk, walked) ∧
            (walk = .hit index ↔ cache.Attached index)
  /-- No walk ends at a leaf that is cut off. -/
  attached {address : Address} {index : Nat} {walked : Cache} :
    cache.search address = .ok (.hit index, walked) → cache.Attached index

/-- The walk to a block ends at an attached leaf of it. -/
theorem search_eq_hit_iff (sound : cache.view.Sound) (tidy : cache.Tidy) {index : Nat}
    {block : Block} (found : cache.pool.blocks[index]? = some block) (valid : block.valid = true)
    (level : block.level = cache.layout.depth) (inRange : cache.layout.contains address = true)
    (tagged : cache.layout.blockOf address = block.tag) :
    ∃ walk walked, cache.search address = .ok (walk, walked) ∧
      (walk = .hit index ↔ cache.Attached index) := by
  have linked : cache.trie.Linked := sound.linked
  have isNode := (node_of_block found).trans (Block.node?_eq_some_iff.mpr ⟨valid, rfl⟩)
  obtain ⟨⟨walk, walked⟩, searched, _, ends⟩ :=
    (search_outcome sound tidy address).exists_ok fun _ outside => by simp [inRange] at outside
  refine ⟨walk, walked, searched, ?_, fun attached => ?_⟩
  · rintro rfl
    exact attached_of_route linked ends
  · obtain ⟨slots, route⟩ := attached.route linked found valid
    have path : slots = cache.view.path block.tag := sound.placed _ _ _ route isNode level
    rw [path, ← tagged] at route
    cases walk with
    | hit other => exact congrArg Walk.hit (Option.some.inj (Trie.Route.functional ends route))
    | miss anchor =>
      obtain ⟨_, level_lt, above, free⟩ := ends
      exact absurd route (View.not_route_of_free level_lt above free index)

theorem reachesAttached_of_sound (sound : cache.view.Sound) (tidy : cache.Tidy)
    (inSpace : cache.view.InSpace) : cache.ReachesAttached where
  hit_iff := by
    intro index block found valid level
    have holds : cache.view.copies index = some _ :=
      (Pool.look_of_block found _).trans (Block.copy?_eq_some_iff.mpr ⟨valid, level, rfl⟩)
    obtain ⟨address, inRange, tagged⟩ := inSpace holds
    obtain ⟨base, base_eq, same⟩ := sound.founded.regular.blockAddress_eq address
    change cache.layout.blockOf address = block.tag at tagged
    change cache.layout.blockOf base = cache.layout.blockOf address at same
    have inRange' : cache.layout.contains base = true := by
      refine (sound.founded.covers base).mpr ?_
      change cache.layout.slot (cache.layout.blockOf base) 1 < _
      rw [same]
      exact (sound.founded.covers address).mp inRange
    refine ⟨base, ?_, inRange', search_eq_hit_iff sound tidy found valid level inRange' ?_⟩
    · rw [← tagged]
      exact base_eq
    · rw [same, tagged]
  attached := by
    intro address index walked searched
    obtain ⟨_, ends⟩ := (search_outcome sound tidy address).of_eq_ok searched
    exact attached_of_route sound.linked ends

theorem Vacant.reachesAttached (vacant : cache.Vacant) : cache.ReachesAttached where
  hit_iff := by
    intro index block found valid
    have isNode := (node_of_block found).trans (Block.node?_eq_some_iff.mpr ⟨valid, rfl⟩)
    exact absurd ((vacant.blank.node index).symm.trans isNode) nofun
  attached := fun searched => nomatch (vacant.search_eq searched).1

/-- Whatever operations a fresh cache carries out, walks reach the attached leaves and no
others. -/
theorem reachesAttached_of_runAll {config : Config} {commands : List Command}
    {replies : List Reply} (made : ofConfig config = .ok cache)
    (ran : cache.runAll commands = .ok (replies, after)) : after.ReachesAttached := by
  have ready := ready_of_ofConfig made
  cases ready.runAll ran with
  | sound tidy sound =>
    have inSpace := ready.inSpace_of_runAll (blank_of_ofConfig made).inSpace ran
    exact reachesAttached_of_sound sound tidy inSpace
  | vacant vacant => exact vacant.reachesAttached

/-- The third block put in takes the place of the table above the first one.  The leaf of
that one still has a parent, and is cut off. -/
theorem reachesAttached_after_cut : ∃ cache after block walked,
    ofConfig { Config.tiny with levels := 3 } = .ok cache ∧
      cache.runAll [.insert 0x01 1, .insert 0x10 2, .insert 0x20 3] =
        .ok ([.index 2, .index 5, .index 0], after) ∧
      after.pool.blocks[2]? = some block ∧ block.valid = true ∧ block.parentValid = true ∧
      after.search 0x00 = .ok (.miss none, walked) ∧ after.ReachesAttached := by
  have answers : (do
      let cache ← ofConfig { Config.tiny with levels := 3 }
      let result ← cache.runAll [.insert 0x01 1, .insert 0x10 2, .insert 0x20 3]
      let block ← result.2.pool.get 2
      let walked ← result.2.search 0x00
      return (result.1, block.valid, block.parentValid, walked.1)) =
        .ok ([.index 2, .index 5, .index 0], true, true, .miss none) := by decide +kernel
  obtain ⟨cache, made, answers⟩ := bind_eq_ok_iff.mp answers
  obtain ⟨⟨replies, after⟩, ran, answers⟩ := bind_eq_ok_iff.mp answers
  obtain ⟨block, found, answers⟩ := bind_eq_ok_iff.mp answers
  obtain ⟨⟨walk, walked⟩, searched, answers⟩ := bind_eq_ok_iff.mp answers
  simp only [pure_eq_ok, Except.ok.injEq, Prod.mk.injEq] at answers
  obtain ⟨rfl, valid, parentValid, rfl⟩ := answers
  exact ⟨cache, after, block, walked, made, ran, Pool.get_eq_ok_iff.mp found, valid, parentValid,
    searched, reachesAttached_of_runAll made ran⟩

end Cache

end TrieCache
