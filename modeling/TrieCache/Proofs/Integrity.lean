import TrieCache.Cache.Integrity
import TrieCache.Proofs.Fresh

/-!
# Integrity of every run

The cross-check passes on every cache that a run can reach.  Each of its passes claims the
blocks that the links of its owners lead to.  Since no two links lead to one block, no
block is claimed twice, and since every attached block has an owner, none is missed.
-/

namespace TrieCache

namespace TopIndex

variable {top : TopIndex} {count : Nat} {others : List (Nat × Nat)}

theorem validBelow_succ (top : TopIndex) (count : Nat) (others : List (Nat × Nat)) :
    top.validBelow (count + 1) others = top.validBelow count
      ((top.entries[count]?.bind Link.leads?).toList.map (count, ·) ++ others) := by
  rw [validBelow]
  cases found : top.entries[count]? with
  | none => rfl
  | some entry =>
    rcases entry with ⟨valid, target⟩
    cases valid <;> rfl

theorem mem_validBelow_iff {slot target : Nat} :
    (slot, target) ∈ top.validBelow count others ↔
      (slot, target) ∈ others ∨
        (slot < count ∧ top.entries[slot]?.bind Link.leads? = some target) := by
  induction count generalizing others with
  | zero => simp [validBelow]
  | succ count ih =>
    have last : slot < count + 1 ↔ slot = count ∨ slot < count := by omega
    rw [validBelow_succ, ih, last, List.mem_append, List.mem_map]
    constructor
    · rintro ((⟨_, leads, here⟩ | there) | ⟨below, leads⟩)
      · cases here
        exact .inr ⟨.inl rfl, Option.mem_toList.mp leads⟩
      · exact .inl there
      · exact .inr ⟨.inr below, leads⟩
    · rintro (there | ⟨rfl | below, leads⟩)
      · exact .inl (.inr there)
      · exact .inl (.inl ⟨target, Option.mem_toList.mpr leads, rfl⟩)
      · exact .inr ⟨below, leads⟩

theorem sorted_validBelow (sorted : others.Pairwise fun first second => first.1 < second.1)
    (above : ∀ other ∈ others, count ≤ other.1) :
    (top.validBelow count others).Pairwise fun first second => first.1 < second.1 := by
  induction count generalizing others with
  | zero => exact sorted
  | succ count ih =>
    rw [validBelow_succ]
    cases leads : top.entries[count]?.bind Link.leads? with
    | none => exact ih sorted fun other isOther => Nat.le_of_succ_le (above other isOther)
    | some target =>
      refine ih (List.pairwise_cons.mpr ⟨above, sorted⟩) fun other isOther => ?_
      rcases List.mem_cons.mp isOther with rfl | there
      · exact Nat.le_refl _
      · exact Nat.le_of_succ_le (above other there)

end TopIndex

namespace Cache

variable {cache : Cache}

/-- What the cross-check relies on. -/
structure Intact (cache : Cache) : Prop where
  tidy : cache.Tidy
  linked : cache.trie.Linked
  tagged {tag index : Nat} : cache.fastPath.lookup tag = some index →
    ∃ node, cache.trie.node index = some node ∧ node.level = cache.layout.depth ∧ node.tag = tag
  topEntries : cache.config.topEntries = .ok cache.top.size

theorem Ready.intact (ready : cache.Ready) : cache.Intact := by
  cases ready with
  | sound tidy sound => exact ⟨tidy, sound.linked, sound.tagged, sound.founded.topEntries⟩
  | vacant vacant =>
    refine ⟨vacant.tidy, vacant.blank.linked, fun {tag index} leads => ?_, vacant.topEntries⟩
    have absent : cache.fastPath.lookup tag = none := vacant.blank.shortcut tag
    rw [absent] at leads
    cases leads

section Passes

theorem lift_get_eq_pure {index : Nat} {block : Block}
    (found : cache.pool.blocks[index]? = some block) :
    (liftM (cache.pool.get index) : Inspection Block) = pure block := by
  rw [Pool.get_eq_ok_iff.mpr found]
  rfl

theorem ensure_eq_pure {condition : Bool} (holds : condition = true) (flaw : Flaw) :
    Inspection.ensure condition flaw = pure () := by
  rw [Inspection.ensure, if_pos holds]

theorem claim_eq_pure {owned : Owned} {index : Nat} (fresh : owned.contains index = false) :
    claim owned index = pure (owned.insert index) := by
  rw [claim, ensure_eq_pure (by rw [fresh]; rfl), pure_bind]

theorem contains_claimed {owned : Owned} {index other : Nat} :
    (owned.insert index).contains other = true ↔ index = other ∨ owned.contains other = true := by
  simp [Std.TreeSet.contains_insert]

theorem inspectTop_eq (linked : cache.trie.Linked) {entries : List (Nat × Nat)} {owned : Owned}
    (links : ∀ {slot index : Nat}, (slot, index) ∈ entries → cache.trie.link none slot = some index)
    (sorted : entries.Pairwise fun first second => first.1 < second.1)
    (fresh : ∀ {slot index : Nat}, (slot, index) ∈ entries → owned.contains index = false) :
    ∃ after, cache.inspectTop owned entries = pure after ∧
      ∀ index, after.contains index = true ↔
        owned.contains index = true ∨ ∃ slot, (slot, index) ∈ entries := by
  induction entries generalizing owned with
  | nil => exact ⟨owned, rfl, fun index => by simp⟩
  | cons entry rest ih =>
    obtain ⟨slot, index⟩ := entry
    obtain ⟨isFirst, sorted⟩ := List.pairwise_cons.mp sorted
    obtain ⟨node, isNode, attached, level, parent⟩ := linked.target (links List.mem_cons_self)
    obtain ⟨block, found, valid, rfl⟩ := block_of_node isNode
    dsimp only at attached level parent
    have fresh' : ∀ {slot' index' : Nat}, (slot', index') ∈ rest →
        (owned.insert index).contains index' = false := by
      intro slot' index' isRest
      rw [Bool.eq_false_iff, Ne, contains_claimed]
      rintro (rfl | taken)
      · have same := linked.link_injective (links List.mem_cons_self)
          (links (List.mem_cons_of_mem _ isRest))
        exact absurd (isFirst _ isRest) (by simp [same.2])
      · rw [fresh (List.mem_cons_of_mem _ isRest)] at taken
        cases taken
    obtain ⟨after, passed, contains⟩ :=
      ih (fun isRest => links (List.mem_cons_of_mem _ isRest)) sorted fresh'
    refine ⟨after, ?_, fun other => ?_⟩
    · rw [inspectTop, lift_get_eq_pure found, pure_bind,
        ensure_eq_pure (by simp [valid, attached, level, parent]), pure_bind,
        claim_eq_pure (fresh List.mem_cons_self), pure_bind, passed]
    · rw [contains, contains_claimed]
      simp only [List.mem_cons, Prod.mk.injEq, exists_or, exists_and_right, exists_eq, true_and,
        eq_comm (a := index)]
      tauto

theorem inspectChildren_eq (linked : cache.trie.Linked) {parent : Nat} {above : Node}
    (isAbove : cache.trie.node parent = some above) {children : List Nat} {owned : Owned}
    (links : ∀ child ∈ children, ∃ slot, cache.trie.link (some parent) slot = some child)
    (nodup : children.Nodup) (fresh : ∀ child ∈ children, owned.contains child = false) :
    ∃ after, cache.inspectChildren parent above.level owned children = pure after ∧
      ∀ index, after.contains index = true ↔ owned.contains index = true ∨ index ∈ children := by
  induction children generalizing owned with
  | nil => exact ⟨owned, rfl, fun index => by simp⟩
  | cons child rest ih =>
    obtain ⟨isFirst, nodup⟩ := List.nodup_cons.mp nodup
    obtain ⟨slot, leads⟩ := links child List.mem_cons_self
    obtain ⟨node, isNode, attached, named, above', isAbove', level⟩ := linked.target leads
    cases isAbove.symm.trans isAbove'
    obtain ⟨block, found, valid, rfl⟩ := block_of_node isNode
    dsimp only at attached named level
    have fresh' : ∀ other ∈ rest, (owned.insert child).contains other = false := by
      intro other isRest
      rw [Bool.eq_false_iff, Ne, contains_claimed]
      rintro (rfl | taken)
      · exact isFirst isRest
      · rw [fresh other (List.mem_cons_of_mem _ isRest)] at taken
        cases taken
    obtain ⟨after, passed, contains⟩ :=
      ih (fun other isRest => links other (List.mem_cons_of_mem _ isRest)) nodup fresh'
    refine ⟨after, ?_, fun other => ?_⟩
    · rw [inspectChildren, lift_get_eq_pure found, pure_bind,
        ensure_eq_pure (by simp [valid, attached, level, named]), pure_bind,
        claim_eq_pure (fresh child List.mem_cons_self), pure_bind, passed]
    · rw [contains, contains_claimed, List.mem_cons, eq_comm (a := child)]
      tauto

theorem inspectBlocks_eq (intact : cache.Intact) {indices : List Nat} {owned : Owned}
    (inside : ∀ index ∈ indices, index < cache.pool.capacity) (nodup : indices.Nodup)
    (fresh : ∀ {owner slot child : Nat}, owner ∈ indices →
      cache.trie.link (some owner) slot = some child → owned.contains child = false) :
    ∃ after, cache.inspectBlocks owned indices = pure after ∧
      ∀ child, after.contains child = true ↔ owned.contains child = true ∨
        ∃ owner ∈ indices, ∃ slot, cache.trie.link (some owner) slot = some child := by
  have linked := intact.linked
  induction indices generalizing owned with
  | nil => exact ⟨owned, rfl, fun child => by simp⟩
  | cons index rest ih =>
    obtain ⟨isFirst, nodup⟩ := List.nodup_cons.mp nodup
    obtain ⟨block, found⟩ := Pool.exists_block (inside index List.mem_cons_self)
    have bounded := decide_eq_true (intact.tidy.bounded index block found)
    have inside' : ∀ other ∈ rest, other < cache.pool.capacity :=
      fun other isRest => inside other (List.mem_cons_of_mem _ isRest)
    cases valid : block.valid with
    | false =>
      have nothing : ∀ slot child, cache.trie.link (some index) slot ≠ some child := by
        intro slot child leads
        obtain ⟨node, isNode, _⟩ := Trie.link_some_eq_some_iff.mp leads
        rw [node_of_block found, Block.node?, valid] at isNode
        cases isNode
      obtain ⟨after, passed, contains⟩ :=
        ih inside' nodup fun isRest leads => fresh (List.mem_cons_of_mem _ isRest) leads
      refine ⟨after, ?_, fun child => ?_⟩
      · rw [inspectBlocks, lift_get_eq_pure found, pure_bind, ensure_eq_pure bounded, pure_bind,
          valid]
        exact passed
      · simp [contains, nothing]
    | true =>
      have isNode := (node_of_block found).trans (Block.node?_eq_some_iff.mpr ⟨valid, rfl⟩)
      have child_iff : ∀ {slot child : Nat}, cache.trie.link (some index) slot = some child ↔
          block.child? slot = some child := by
        intro slot child
        rw [Trie.link, isNode]
        rfl
      have links : ∀ child, child ∈ block.children ↔
          ∃ slot, cache.trie.link (some index) slot = some child := by
        simp only [Block.mem_children_iff, child_iff, implies_true]
      have children_nodup : block.children.Nodup := Block.nodup_children fun one other =>
        linked.single (child_iff.mpr one) (child_iff.mpr other)
      have children_fresh : ∀ child ∈ block.children, owned.contains child = false := by
        intro child isChild
        obtain ⟨slot, leads⟩ := (links child).mp isChild
        exact fresh List.mem_cons_self leads
      obtain ⟨middle, claimed, contains_middle⟩ := inspectChildren_eq linked isNode
        (fun child => (links child).mp) children_nodup children_fresh
      have fresh' : ∀ {owner slot child : Nat}, owner ∈ rest →
          cache.trie.link (some owner) slot = some child → middle.contains child = false := by
        intro owner slot child isRest leads
        rw [Bool.eq_false_iff, Ne, contains_middle, links]
        rintro (taken | ⟨slot', leads'⟩)
        · rw [fresh (List.mem_cons_of_mem _ isRest) leads] at taken
          cases taken
        · have same := (linked.link_injective leads leads').1
          cases same
          exact isFirst isRest
      obtain ⟨after, passed, contains⟩ := ih inside' nodup fresh'
      refine ⟨after, ?_, fun child => ?_⟩
      · rw [inspectBlocks, lift_get_eq_pure found, pure_bind, ensure_eq_pure bounded, pure_bind,
          valid]
        exact (congrArg (· >>= fun owned => cache.inspectBlocks owned rest) claimed).trans passed
      · rw [contains, contains_middle, links]
        simp only [List.mem_cons, exists_eq_or_imp]
        tauto

theorem inspectOwners_eq {owned : Owned} {indices : List Nat}
    (inside : ∀ index ∈ indices, index < cache.pool.capacity)
    (known : ∀ {index : Nat} {node : Node}, cache.trie.node index = some node →
      node.attached = true → owned.contains index = true) :
    cache.inspectOwners owned indices = pure () := by
  induction indices with
  | nil => rfl
  | cons index rest ih =>
    obtain ⟨block, found⟩ := Pool.exists_block (inside index List.mem_cons_self)
    have owner : (!(block.valid && block.parentValid) || owned.contains index) = true := by
      cases valid : block.valid <;> cases attached : block.parentValid <;> try rfl
      have isNode := (node_of_block found).trans (Block.node?_eq_some_iff.mpr ⟨valid, rfl⟩)
      exact known isNode attached
    rw [inspectOwners, lift_get_eq_pure found, pure_bind, ensure_eq_pure owner, pure_bind,
      ih fun other isRest => inside other (List.mem_cons_of_mem _ isRest)]

theorem inspectFastPath_eq (tidy : cache.Tidy) {entries : List (Nat × Nat)}
    (tagged : ∀ {tag index : Nat}, (tag, index) ∈ entries → ∃ node,
      cache.trie.node index = some node ∧ node.level = cache.layout.depth ∧ node.tag = tag) :
    cache.inspectFastPath entries = pure () := by
  induction entries with
  | nil => rfl
  | cons entry rest ih =>
    obtain ⟨tag, index⟩ := entry
    obtain ⟨node, isNode, level, named⟩ := tagged List.mem_cons_self
    obtain ⟨block, found, valid, rfl⟩ := block_of_node isNode
    dsimp only at level named
    obtain ⟨bytes, payload, _⟩ := tidy.data_of_leaf found valid level
    rw [inspectFastPath, lift_get_eq_pure found, pure_bind,
      ensure_eq_pure (by simp [valid, level, named, Block.bytes?, payload]), pure_bind,
      ih fun isRest => tagged (List.mem_cons_of_mem _ isRest)]

end Passes

theorem Intact.checkStructure (intact : cache.Intact) :
    cache.checkStructure = .ok (.ok ()) := by
  have linked := intact.linked
  have topLinks : ∀ {slot index : Nat}, (slot, index) ∈ cache.top.validEntries ↔
      cache.trie.link none slot = some index := by
    intro slot index
    rw [TopIndex.validEntries, TopIndex.mem_validBelow_iff]
    change _ ↔ cache.top.entries[slot]?.bind Link.leads? = some index
    constructor
    · rintro (there | ⟨_, leads⟩)
      · cases there
      · exact leads
    · intro leads
      obtain ⟨entry, found, _⟩ := Option.bind_eq_some_iff.mp leads
      obtain ⟨slot_lt, _⟩ := Array.getElem?_eq_some_iff.mp found
      exact .inr ⟨slot_lt, leads⟩
  obtain ⟨top, inspectedTop, contains_top⟩ := inspectTop_eq linked topLinks.mp
    (TopIndex.sorted_validBelow .nil (by simp)) fun _ => Std.TreeSet.contains_emptyc
  have inside : ∀ index ∈ List.range cache.pool.capacity, index < cache.pool.capacity :=
    fun index => List.mem_range.mp
  have fresh : ∀ {owner slot child : Nat}, owner ∈ List.range cache.pool.capacity →
      cache.trie.link (some owner) slot = some child → top.contains child = false := by
    intro owner slot child _ leads
    rw [Bool.eq_false_iff, Ne, contains_top]
    rintro (taken | ⟨slot', isEntry⟩)
    · rw [Std.TreeSet.contains_emptyc] at taken
      cases taken
    · exact absurd (linked.link_injective leads (topLinks.mp isEntry)).1 (by simp)
  obtain ⟨all, inspectedBlocks, contains_all⟩ :=
    inspectBlocks_eq intact inside List.nodup_range fresh
  have known : ∀ {index : Nat} {node : Node}, cache.trie.node index = some node →
      node.attached = true → all.contains index = true := by
    intro index node isNode attached
    obtain ⟨owner, slot, leads⟩ := linked.owned isNode attached
    rw [contains_all, contains_top]
    cases owner with
    | none => exact .inl (.inr ⟨slot, topLinks.mpr leads⟩)
    | some owner =>
      obtain ⟨above, isAbove, _⟩ := Trie.link_some_eq_some_iff.mp leads
      obtain ⟨block, found, _⟩ := block_of_node isAbove
      exact .inr ⟨owner, List.mem_range.mpr (Pool.lt_capacity_of_block found), slot, leads⟩
  have expected : (liftM cache.config.topEntries : Inspection Nat) = pure cache.top.size := by
    rw [intact.topEntries]
    rfl
  have passed : cache.inspect = pure () := by
    rw [inspect, expected, pure_bind, ensure_eq_pure (by simp), pure_bind, inspectedTop, pure_bind,
      inspectedBlocks, pure_bind, inspectOwners_eq inside known, pure_bind,
      ensure_eq_pure (decide_eq_true intact.tidy.recorded.size_le), pure_bind,
      inspectFastPath_eq intact.tidy fun isEntry => intact.tagged (FastPath.mem_toList_iff.mp isEntry)]
  rw [Cache.checkStructure, passed]
  rfl

/-- A slot of the top index, or of a built table, leads to a block. -/
def Owns (cache : Cache) : (owner : Option Nat) → (slot index : Nat) → Prop
  | none, slot, index => cache.top.entries[slot]? = some { valid := true, target := index }
  | some table, slot, index => ∃ block, cache.pool.blocks[table]? = some block ∧
    block.valid = true ∧ block.links[slot]? = some { valid := true, target := index }

/-- Top index, pool and fast path agree. -/
structure Integrity (cache : Cache) : Prop where
  /-- A top entry leads to an attached block of the first level that names its slot. -/
  topEntry {slot index : Nat} : cache.Owns none slot index →
    ∃ block, cache.pool.blocks[index]? = some block ∧ block.valid = true ∧
      block.parentValid = true ∧ block.level = 1 ∧ block.parent = slot
  /-- A link of a table, be it attached or not, leads to an attached block of the next level
  that names the table. -/
  childLink {table slot index : Nat} : cache.Owns (some table) slot index →
    ∃ above block, cache.pool.blocks[table]? = some above ∧
      cache.pool.blocks[index]? = some block ∧ block.valid = true ∧ block.parentValid = true ∧
      block.level = above.level + 1 ∧ block.parent = table
  oneOwner {first second : Option Nat} {firstSlot secondSlot index : Nat} :
    cache.Owns first firstSlot index → cache.Owns second secondSlot index →
      first = second ∧ firstSlot = secondSlot
  owned {index : Nat} {block : Block} : cache.pool.blocks[index]? = some block →
    block.valid = true → block.parentValid = true → ∃ owner slot, cache.Owns owner slot index
  reference {index : Nat} {block : Block} : cache.pool.blocks[index]? = some block →
    block.reference ≤ cache.config.maxReference.toNat
  fastPathSize : cache.fastPath.size ≤ cache.fastPath.capacity
  fastPathEntry {tag index : Nat} : cache.fastPath.lookup tag = some index →
    ∃ block bytes, cache.pool.blocks[index]? = some block ∧ block.valid = true ∧
      block.level = cache.layout.depth ∧ block.tag = tag ∧ block.payload = .data bytes

theorem owns_iff_link {owner : Option Nat} {slot index : Nat} :
    cache.Owns owner slot index ↔ cache.trie.link owner slot = some index := by
  cases owner with
  | none =>
    change _ ↔ cache.top.entries[slot]?.bind Link.leads? = some index
    rw [Owns]
    cases cache.top.entries[slot]? with
    | none => simp
    | some entry =>
      rcases entry with ⟨valid, target⟩
      cases valid <;> simp [Link.leads?]
  | some table =>
    rw [Trie.link_some_eq_some_iff]
    constructor
    · rintro ⟨block, found, valid, leads⟩
      exact ⟨_, (node_of_block found).trans (Block.node?_eq_some_iff.mpr ⟨valid, rfl⟩),
        Block.child?_eq_some_iff.mpr leads⟩
    · rintro ⟨node, isNode, leads⟩
      obtain ⟨block, found, valid, rfl⟩ := block_of_node isNode
      exact ⟨block, found, valid, Block.child?_eq_some_iff.mp leads⟩

theorem Intact.integrity (intact : cache.Intact) : cache.Integrity where
  topEntry := by
    intro slot index owns
    obtain ⟨node, isNode, attached, level, parent⟩ :=
      intact.linked.target (owns_iff_link.mp owns)
    obtain ⟨block, found, valid, rfl⟩ := block_of_node isNode
    exact ⟨block, found, valid, attached, level, parent⟩
  childLink := by
    intro table slot index owns
    obtain ⟨node, isNode, attached, parent, above, isAbove, level⟩ :=
      intact.linked.target (owns_iff_link.mp owns)
    obtain ⟨block, found, valid, rfl⟩ := block_of_node isNode
    obtain ⟨block', found', _, rfl⟩ := block_of_node isAbove
    exact ⟨block', block, found', found, valid, attached, level, parent⟩
  oneOwner := fun one other =>
    intact.linked.link_injective (owns_iff_link.mp one) (owns_iff_link.mp other)
  owned := by
    intro index block found valid attached
    have isNode := (node_of_block found).trans (Block.node?_eq_some_iff.mpr ⟨valid, rfl⟩)
    obtain ⟨owner, slot, leads⟩ := intact.linked.owned isNode attached
    exact ⟨owner, slot, owns_iff_link.mpr leads⟩
  reference := fun found => intact.tidy.bounded _ _ found
  fastPathSize := intact.tidy.recorded.size_le
  fastPathEntry := by
    intro tag index leads
    obtain ⟨node, isNode, level, named⟩ := intact.tagged leads
    obtain ⟨block, found, valid, rfl⟩ := block_of_node isNode
    obtain ⟨bytes, payload, _⟩ := intact.tidy.data_of_leaf found valid level
    exact ⟨block, bytes, found, valid, level, named, payload⟩

/-- Whatever operations a fresh cache carries out, the cross-check passes afterwards. -/
theorem checkStructure_of_runAll {config : Config} {after : Cache} {commands : List Command}
    {replies : List Reply} (made : ofConfig config = .ok cache)
    (ran : cache.runAll commands = .ok (replies, after)) :
    after.checkStructure = .ok (.ok ()) ∧ after.Integrity := by
  have intact := ((ready_of_ofConfig made).runAll ran).intact
  exact ⟨intact.checkStructure, intact.integrity⟩

theorem checkStructure_after_evictions : ∃ cache replies after,
    ofConfig .tiny = .ok cache ∧
      cache.runAll [.fill 0x01 #[1, 2, 3, 4], .write 0x01 7, .insert 0x08 3, .insert 0x10 3,
        .insert 0x18 3, .flush, .insert 0x20 1, .retire 0x01, .drain, .read 0x08] =
          .ok (replies, after) ∧
      after.checkStructure = .ok (.ok ()) ∧ after.Integrity := by
  have answers : (ofConfig .tiny >>= (·.runAll [.fill 0x01 #[1, 2, 3, 4], .write 0x01 7,
      .insert 0x08 3, .insert 0x10 3, .insert 0x18 3, .flush, .insert 0x20 1, .retire 0x01, .drain,
      .read 0x08])).map (fun result => result.1.length) = .ok 10 := by decide +kernel
  obtain ⟨⟨replies, after⟩, ran, _⟩ := exists_eq_ok_of_map answers
  obtain ⟨cache, made, ran⟩ := bind_eq_ok_iff.mp ran
  exact ⟨cache, replies, after, made, ran, checkStructure_of_runAll made ran⟩

end Cache

end TrieCache
