import TrieCache.Proofs.Clearing

/-!
# Cutting the links to a block

Cutting a block means clearing every valid link that leads to it, wherever it is.  In a linked
cache there is at most one, and it is where the block says, so what is unlinked is what cutting
clears.  Unlike the view, which shows where the links lead, this accounts for every link and
for the target that a cleared one keeps.
-/

namespace TrieCache

namespace Link

/-- The same link, cleared if it leads to a block. -/
def cut (index : Nat) (link : Link) : Link :=
  if link.valid ∧ link.target = index then { link with valid := false } else link

variable {index slot : Nat} {link : Link} {links : Array Link}

theorem cut_eq_self (elsewhere : link.leads? ≠ some index) : link.cut index = link :=
  if_neg fun leads => elsewhere (leads?_eq_some_iff.mpr leads)

theorem cut_eq_cleared (leads : link.leads? = some index) :
    link.cut index = { valid := false, target := index } := by
  obtain ⟨valid, rfl⟩ := leads?_eq_some_iff.mp leads
  exact if_pos ⟨valid, rfl⟩

theorem leads?_cut (index : Nat) (link : Link) :
    (link.cut index).leads? = link.leads?.filter (· != index) := by
  by_cases leads : link.leads? = some index
  · rw [cut_eq_cleared leads, leads]
    simp [leads?, Option.filter]
  · rw [cut_eq_self leads]
    exact (Trie.filter_ne_eq_self leads).symm

theorem map_cut_eq_self (elsewhere : ∀ slot : Nat, links[slot]?.bind leads? ≠ some index) :
    links.map (cut index) = links := by
  apply Array.ext_getElem?
  intro slot
  rw [Array.getElem?_map]
  cases found : links[slot]? with
  | none => rfl
  | some link =>
    refine congrArg some (cut_eq_self fun leads => elsewhere slot ?_)
    rw [found, Option.bind_some, leads]

theorem map_cut_eq_set (leads : links[slot]?.bind leads? = some index)
    (single : ∀ other, links[other]?.bind leads? = some index → other = slot) :
    links.map (cut index) = links.setIfInBounds slot { valid := false, target := index } := by
  obtain ⟨link, found, here⟩ := Option.bind_eq_some_iff.mp leads
  have slot_lt : slot < links.size := (Array.getElem?_eq_some_iff.mp found).1
  apply Array.ext_getElem?
  intro other
  rw [Array.getElem?_map, Array.getElem?_setIfInBounds]
  by_cases same : slot = other
  · subst same
    rw [found, Option.map_some, cut_eq_cleared here, if_pos rfl, if_pos slot_lt]
  · rw [if_neg same]
    cases isLink : links[other]? with
    | none => rfl
    | some link' =>
      have elsewhere : link'.leads? ≠ some index := by
        intro there
        refine same (single other ?_).symm
        rw [isLink, Option.bind_some, there]
      rw [Option.map_some, cut_eq_self elsewhere]

end Link

namespace Payload

def cut (index : Nat) : Payload → Payload
  | .table links => .table (links.map (Link.cut index))
  | payload => payload

end Payload

namespace Block

/-- The same block, without links to another. -/
def cut (index : Nat) (block : Block) : Block :=
  { block with payload := block.payload.cut index }

def withLinks (links : Array Link) (block : Block) : Block :=
  match block.payload with
  | .table _ => { block with payload := .table links }
  | _ => block

variable {index : Nat} {block : Block}

theorem child?_eq_bind (block : Block) (slot : Nat) :
    block.child? slot = block.links[slot]?.bind Link.leads? := by
  rw [child?]
  cases block.links[slot]? with
  | none => rfl
  | some link => rfl

theorem links_cut (index : Nat) (block : Block) :
    (block.cut index).links = block.links.map (Link.cut index) := by
  cases payload : block.payload <;> simp [cut, links, payload, Payload.cut]

theorem child?_cut (index : Nat) (block : Block) (slot : Nat) :
    (block.cut index).child? slot = (block.child? slot).filter (· != index) := by
  rw [child?_eq_bind, child?_eq_bind, links_cut, Array.getElem?_map]
  cases block.links[slot]? with
  | none => rfl
  | some link => exact Link.leads?_cut index link

/-- Cutting changes the links of a block and nothing else. -/
theorem cut_eq_withLinks (index : Nat) (block : Block) :
    block.cut index = block.withLinks (block.links.map (Link.cut index)) := by
  rcases block with ⟨_, _, _, _, _, _, _, _, payload⟩
  cases payload <;> rfl

theorem setLink_eq_withLinks (slot : Nat) (link : Link) (block : Block) :
    block.setLink slot link = block.withLinks (block.links.setIfInBounds slot link) := by
  rcases block with ⟨_, _, _, _, _, _, _, _, payload⟩
  cases payload <;> rfl

theorem withLinks_self (block : Block) : block.withLinks block.links = block := by
  rcases block with ⟨_, _, _, _, _, _, _, _, payload⟩
  cases payload <;> rfl

theorem cut_eq_self (elsewhere : ∀ slot, block.child? slot ≠ some index) :
    block.cut index = block := by
  simp only [child?_eq_bind] at elsewhere
  rw [cut_eq_withLinks, Link.map_cut_eq_self elsewhere, withLinks_self]

/-- Where one slot at most leads to a child, cutting the child is dropping it. -/
theorem cut_eq_dropChild (single : ∀ first second, block.child? first = some index →
    block.child? second = some index → first = second) : block.cut index = block.dropChild index := by
  rcases dropChild_eq index block with ⟨slot, leads, _, dropped⟩ | ⟨unlinked, same⟩
  · simp only [child?_eq_bind] at leads single
    have cleared := Link.map_cut_eq_set leads fun other leads' => single _ _ leads' leads
    rw [dropped, cut_eq_withLinks, cleared, setLink_eq_withLinks]
  · rw [same, cut_eq_self unlinked]

end Block

namespace Pool

variable {pool : Pool}

/-- The same pool without links to a block. -/
def cut (index : Nat) (pool : Pool) : Pool :=
  { pool with blocks := pool.blocks.map (Block.cut index) }

theorem blocks_cut (index other : Nat) (pool : Pool) :
    (pool.cut index).blocks[other]? = pool.blocks[other]?.map (Block.cut index) :=
  Array.getElem?_map

theorem ext_blocks {first second : Pool} (hand : first.hand = second.hand)
    (blocks : ∀ index : Nat, first.blocks[index]? = second.blocks[index]?) : first = second := by
  rcases first with ⟨_, _⟩
  cases hand
  exact congrArg (fun blocks => ({ blocks, hand := second.hand } : Pool)) (Array.ext_getElem? blocks)

end Pool

namespace Cache

variable {cache after : Cache} {index : Nat} {block : Block}

/-- The same cache without links to a block. -/
def cut (index : Nat) (cache : Cache) : Cache :=
  { cache with
    top := { entries := cache.top.entries.map (Link.cut index) }
    pool := cache.pool.cut index }

theorem frame_cut (index : Nat) (cache : Cache) : (cache.cut index).frame = cache.frame := by
  simp [frame, cut, TopIndex.size, Pool.capacity, Pool.cut]

/-- The links of the pool are those of the trie, for what was not built has none. -/
theorem leads_eq_link (tidy : cache.Tidy) (owner : Option Nat) (slot : Nat) :
    cache.leads owner slot = cache.trie.link owner slot := by
  cases owner with
  | none => rfl
  | some table =>
    change cache.pool.look _ table = (cache.pool.look Block.node? table).bind _
    cases found : cache.pool.blocks[table]? with
    | none => simp [Pool.look, found]
    | some block =>
      rw [Pool.look_of_block found, Pool.look_of_block found]
      cases tidy.shaped _ _ found with
      | unbuilt invalid _ payload _ =>
        simp [Block.node?, invalid, Block.child?, Block.links, payload]
      | table valid _ _ _ _ _ _ => simp [Block.node?, valid]
      | leaf valid _ _ _ _ => simp [Block.node?, valid]

/-- After cutting a block nothing leads to it, and all else leads where it did. -/
theorem leads_cut (index : Nat) (cache : Cache) (owner : Option Nat) (slot : Nat) :
    (cache.cut index).leads owner slot = (cache.leads owner slot).filter (· != index) := by
  cases owner with
  | none =>
    change (Array.map _ _)[slot]?.bind _ = (cache.top.entries[slot]?.bind _).filter _
    rw [Array.getElem?_map]
    cases cache.top.entries[slot]? with
    | none => rfl
    | some link => exact Link.leads?_cut index link
  | some table =>
    change (cache.pool.cut index).look _ table = (cache.pool.look _ table).filter _
    rw [Pool.look, Pool.look, Pool.blocks_cut]
    cases cache.pool.blocks[table]? with
    | none => rfl
    | some block => exact Block.child?_cut index block slot

theorem pool_cut_eq_self (elsewhere : ∀ table slot, cache.leads (some table) slot ≠ some index) :
    cache.pool.cut index = cache.pool := by
  refine Pool.ext_blocks rfl fun table => ?_
  rw [Pool.blocks_cut]
  cases found : cache.pool.blocks[table]? with
  | none => rfl
  | some block =>
    refine congrArg some (Block.cut_eq_self fun slot leads => elsewhere table slot ?_)
    exact (Pool.look_of_block found _).trans leads

/-- Where one table only leads to a block, cutting it is dropping it from that table. -/
theorem pool_cut_eq_modify {parent : Nat}
    (single : ∀ first second, cache.leads (some parent) first = some index →
      cache.leads (some parent) second = some index → first = second)
    (elsewhere : ∀ table slot, table ≠ parent → cache.leads (some table) slot ≠ some index) :
    cache.pool.cut index = cache.pool.modify parent (Block.dropChild index) := by
  refine Pool.ext_blocks rfl fun table => ?_
  rw [Pool.blocks_cut]
  cases found : cache.pool.blocks[table]? with
  | none => simp [Pool.blocks_modify, found]
  | some block =>
    have leads (slot : Nat) : cache.leads (some table) slot = block.child? slot :=
      Pool.look_of_block found _
    by_cases here : table = parent
    · subst here
      simp only [leads] at single
      rw [Pool.blocks_modify_self found, Option.map_some, Block.cut_eq_dropChild single]
    · rw [Pool.blocks_modify_of_ne here, found, Option.map_some, Block.cut_eq_self]
      exact fun slot leads' => elsewhere table slot here ((leads slot).trans leads')

section Unlinking

variable (tidy : cache.Tidy) (linked : cache.trie.Linked)
include tidy linked

theorem leads_injective {first second : Option Nat} {firstSlot secondSlot : Nat}
    (one : cache.leads first firstSlot = some index)
    (other : cache.leads second secondSlot = some index) :
    first = second ∧ firstSlot = secondSlot := by
  rw [leads_eq_link tidy] at one other
  exact linked.link_injective one other

variable (found : cache.pool.blocks[index]? = some block)
include found

theorem attached_of_leads {owner : Option Nat} {slot : Nat}
    (leads : cache.leads owner slot = some index) : block.parentValid = true ∧
      (block.level = 1 ∧ owner = none ∧ slot = block.parent ∨
        block.level ≠ 1 ∧ owner = some block.parent ∧ block.parent ≠ index) := by
  rw [leads_eq_link tidy] at leads
  obtain ⟨node, isNode, attached, hangs⟩ := linked.target leads
  obtain ⟨block', found', _, rfl⟩ := block_of_node isNode
  cases found.symm.trans found'
  refine ⟨attached, ?_⟩
  cases owner with
  | none => exact .inl ⟨hangs.1, rfl, hangs.2.symm⟩
  | some table =>
    obtain ⟨parent, above, isAbove, level⟩ := hangs
    change block.parent = table at parent
    change block.level = above.level + 1 at level
    have level_pos := linked.level_pos isAbove
    refine .inr ⟨by omega, congrArg some parent.symm, fun same => ?_⟩
    rw [← parent, same, isNode, Option.some.injEq] at isAbove
    rw [← isAbove] at level
    change block.level = block.level + 1 at level
    omega

/-- Unlinking an attached block cuts it: the link that its level and its parent name is the
only one. -/
theorem unlink_eq_cut (valid : block.valid = true) (attached : block.parentValid = true) :
    cache.unlink index = .ok (cache.cut index) := by
  have isNode := (node_of_block found).trans (Block.node?_eq_some_iff.mpr ⟨valid, rfl⟩)
  obtain ⟨owner, slot, leads⟩ := linked.owned isNode attached
  rw [← leads_eq_link tidy] at leads
  obtain ⟨_, ⟨level, rfl, rfl⟩ | ⟨level, rfl, _⟩⟩ := attached_of_leads tidy linked found leads
  · obtain ⟨entry, isEntry, here⟩ := Option.bind_eq_some_iff.mp leads
    obtain ⟨isValid, rfl⟩ := Link.leads?_eq_some_iff.mp here
    have single : ∀ other, cache.leads none other = some entry.target → other = block.parent :=
      fun other leads' => (leads_injective tidy linked leads' leads).2
    have cleared := Link.map_cut_eq_set leads single
    have pool : cache.pool.cut entry.target = cache.pool :=
      pool_cut_eq_self fun _ _ leads' =>
        Option.some_ne_none _ (leads_injective tidy linked leads' leads).1
    rw [unlink, Pool.get_eq_ok_iff.mpr found, ok_bind, if_pos level,
      TopIndex.get_eq_ok_iff.mpr isEntry, ok_bind, if_pos ⟨isValid, rfl⟩, cut, pool, cleared]
    rfl
  · have parent_lt : block.parent < cache.pool.capacity := by
      obtain ⟨table, isTable, _⟩ := Pool.look_eq_some_iff.mp leads
      exact Pool.lt_capacity_of_block isTable
    have elsewhere : ∀ other, cache.leads none other ≠ some index :=
      fun other leads' =>
        Option.some_ne_none _ (leads_injective tidy linked leads' leads).1.symm
    have entries : cache.top.entries.map (Link.cut index) = cache.top.entries :=
      Link.map_cut_eq_self elsewhere
    have pool := pool_cut_eq_modify
      (fun first second one other => (leads_injective tidy linked one other).2)
      (fun table slot distinct leads' => distinct
        (Option.some.inj (leads_injective tidy linked leads' leads).1))
    rw [unlink, Pool.get_eq_ok_iff.mpr found, ok_bind, if_neg level,
      updateBlock_eq_ok parent_lt, cut, entries, pool]

end Unlinking

theorem cut_eq_self (elsewhere : ∀ owner slot, cache.leads owner slot ≠ some index) :
    cache.cut index = cache := by
  have entries : cache.top.entries.map (Link.cut index) = cache.top.entries :=
    Link.map_cut_eq_self (elsewhere none)
  rw [cut, entries, pool_cut_eq_self fun table => elsewhere (some table)]

end Cache

end TrieCache
