import Mathlib.Data.List.Nodup
import TrieCache.Proofs.Consistency
import TrieCache.Proofs.Integrity

/-!
# What a passed cross-check says

The cross-check asks nothing of how a cache came about.  It looks at every link once and
notes the block at its end, which must be new and name the owner of the link.  So whatever
cache passes it has a forest below its top index and its orphans: the links that lead upwards
lose a level at each step, so they end, and a walk gains one, so it visits no block twice.
-/

namespace TrieCache

namespace Inspection

variable {α β : Type}

theorem bind_eq_pure_iff {step : Inspection α} {next : α → Inspection β} {result : β} :
    step >>= next = pure result ↔ ∃ value, step = pure value ∧ next value = pure result := by
  constructor
  · intro passed
    rcases step with fault | flaw | value
    · cases passed
    · cases passed
    · exact ⟨value, rfl, passed⟩
  · rintro ⟨value, rfl, passed⟩
    rw [pure_bind, passed]

theorem ensure_eq_pure_iff {condition : Bool} {flaw : Flaw} {value : Unit} :
    ensure condition flaw = pure value ↔ condition = true := by
  cases condition with
  | false => exact iff_of_false nofun nofun
  | true => exact iff_of_true rfl rfl

theorem lift_eq_pure_iff {step : Checked α} {value : α} :
    (liftM step : Inspection α) = pure value ↔ step = .ok value := by
  cases step with
  | error fault => exact iff_of_false nofun nofun
  | ok found =>
    constructor
    · intro same
      cases same
      rfl
    · rintro ⟨⟩
      rfl

theorem get_eq_pure_iff {pool : Pool} {index : Nat} {block : Block} :
    (liftM (pool.get index) : Inspection Block) = pure block ↔ pool.blocks[index]? = some block := by
  rw [lift_eq_pure_iff, Pool.get_eq_ok_iff]

end Inspection

namespace Block

/-- Where no child is listed twice, it hangs in one slot only. -/
theorem slot_unique_of_nodup {block : Block} (nodup : block.children.Nodup)
    {first second child : Nat}
    (one : block.links[first]? = some { valid := true, target := child })
    (other : block.links[second]? = some { valid := true, target := child }) : first = second := by
  rw [children, List.Nodup, List.pairwise_map, List.pairwise_filter,
    List.pairwise_iff_getElem] at nodup
  have apart : ∀ {early late : Nat}, early < late →
      block.links[early]? = some { valid := true, target := child } →
        block.links[late]? ≠ some { valid := true, target := child } := by
    intro early late before isEarly isLate
    obtain ⟨early_lt, atEarly⟩ := Array.getElem?_eq_some_iff.mp isEarly
    obtain ⟨late_lt, atLate⟩ := Array.getElem?_eq_some_iff.mp isLate
    have distinct := nodup early late (by simpa using early_lt) (by simpa using late_lt) before
    simp [atEarly, atLate] at distinct
  rcases Nat.lt_trichotomy first second with before | same | behind
  · exact absurd other (apart before one)
  · exact same
  · exact absurd one (apart behind other)

end Block

namespace Cache

variable {cache : Cache} {owned middle after : Owned} {index : Nat} {targets : List Nat}

section Claims

/-- The ends of some links were claimed in turn, each for the first time. -/
structure Claimed (owned : Owned) (targets : List Nat) (after : Owned) : Prop where
  nodup : targets.Nodup
  fresh {index : Nat} : index ∈ targets → owned.contains index = false
  contains_iff {index : Nat} :
    after.contains index = true ↔ owned.contains index = true ∨ index ∈ targets

theorem Claimed.nil (owned : Owned) : Claimed owned [] owned where
  nodup := List.nodup_nil
  fresh := nofun
  contains_iff := by simp

theorem claim_eq_pure_iff :
    claim owned index = pure after ↔ owned.contains index = false ∧ owned.insert index = after := by
  simp only [claim, Inspection.bind_eq_pure_iff, Inspection.ensure_eq_pure_iff]
  constructor
  · rintro ⟨_, isFresh, same⟩
    cases same
    exact ⟨by simpa using isFresh, rfl⟩
  · rintro ⟨isFresh, rfl⟩
    exact ⟨(), by simp [isFresh], rfl⟩

theorem Claimed.append {others : List Nat} (first : Claimed owned targets middle)
    (second : Claimed middle others after) : Claimed owned (targets ++ others) after where
  nodup := by
    refine List.nodup_append.mpr ⟨first.nodup, second.nodup, ?_⟩
    rintro index isFirst _ isSecond rfl
    have taken := first.contains_iff.mpr (.inr isFirst)
    rw [second.fresh isSecond] at taken
    cases taken
  fresh := by
    intro index isTarget
    rcases List.mem_append.mp isTarget with isFirst | isSecond
    · exact first.fresh isFirst
    · rw [Bool.eq_false_iff]
      intro taken
      have still := first.contains_iff.mpr (.inl taken)
      rw [second.fresh isSecond] at still
      cases still
  contains_iff := by
    intro index
    rw [second.contains_iff, first.contains_iff, List.mem_append, or_assoc]

theorem Claimed.cons (claims : claim owned index = pure middle)
    (rest : Claimed middle targets after) : Claimed owned (index :: targets) after := by
  obtain ⟨isFresh, rfl⟩ := claim_eq_pure_iff.mp claims
  have one : Claimed owned [index] (owned.insert index) := by
    refine ⟨List.pairwise_singleton _ _, ?_, ?_⟩
    · intro other isOther
      rw [List.mem_singleton.mp isOther]
      exact isFresh
    · intro other
      rw [contains_claimed, List.mem_singleton, eq_comm, or_comm]
  exact one.append rest

end Claims

section Passes

/-- The children of the block in a slot, which only a built table has. -/
def childrenOf (cache : Cache) (index : Nat) : List Nat :=
  match cache.pool.blocks[index]? with
  | some block => if block.valid then block.children else []
  | none => []

theorem mem_childrenOf_iff {table child : Nat} :
    child ∈ cache.childrenOf table ↔ ∃ slot, cache.Owns (some table) slot child := by
  simp only [Owns, childrenOf]
  cases found : cache.pool.blocks[table]? with
  | none => simp
  | some block =>
    cases valid : block.valid with
    | false => simp [valid]
    | true => simp [valid, Block.mem_children_iff, Block.child?_eq_some_iff]

theorem claimed_of_inspectTop {entries : List (Nat × Nat)}
    (passed : cache.inspectTop owned entries = pure after) :
    Claimed owned (entries.map Prod.snd) after ∧ ∀ slot index, (slot, index) ∈ entries →
      ∃ block, cache.pool.blocks[index]? = some block ∧ block.valid = true ∧
        block.parentValid = true ∧ block.level = 1 ∧ block.parent = slot := by
  induction entries generalizing owned with
  | nil =>
    cases passed
    exact ⟨Claimed.nil _, nofun⟩
  | cons entry rest ih =>
    simp only [inspectTop, Inspection.bind_eq_pure_iff, Inspection.get_eq_pure_iff,
      Inspection.ensure_eq_pure_iff, Bool.and_eq_true, beq_iff_eq] at passed
    obtain ⟨block, found, _, ⟨⟨⟨valid, attached⟩, level⟩, parent⟩, middle, claims, passed⟩ := passed
    obtain ⟨claimed, belong⟩ := ih passed
    refine ⟨.cons claims claimed, ?_⟩
    intro slot index isEntry
    rcases List.mem_cons.mp isEntry with rfl | isRest
    · exact ⟨block, found, valid, attached, level, parent⟩
    · exact belong slot index isRest

theorem claimed_of_inspectChildren {parent level : Nat} {children : List Nat}
    (passed : cache.inspectChildren parent level owned children = pure after) :
    Claimed owned children after ∧ ∀ child ∈ children,
      ∃ block, cache.pool.blocks[child]? = some block ∧ block.valid = true ∧
        block.parentValid = true ∧ block.level = level + 1 ∧ block.parent = parent := by
  induction children generalizing owned with
  | nil =>
    cases passed
    exact ⟨Claimed.nil _, nofun⟩
  | cons child rest ih =>
    simp only [inspectChildren, Inspection.bind_eq_pure_iff, Inspection.get_eq_pure_iff,
      Inspection.ensure_eq_pure_iff, Bool.and_eq_true, beq_iff_eq] at passed
    obtain ⟨block, found, _, ⟨⟨⟨valid, attached⟩, deeper⟩, named⟩, middle, claims, passed⟩ := passed
    obtain ⟨claimed, belong⟩ := ih passed
    refine ⟨.cons claims claimed, ?_⟩
    intro other isOther
    rcases List.mem_cons.mp isOther with rfl | isRest
    · exact ⟨block, found, valid, attached, deeper, named⟩
    · exact belong other isRest

/-- A link of a table leads to an attached block of the next level that names the table. -/
def LinksBelong (cache : Cache) (table : Nat) : Prop :=
  ∀ child ∈ cache.childrenOf table, ∃ above block, cache.pool.blocks[table]? = some above ∧
    cache.pool.blocks[child]? = some block ∧ block.valid = true ∧ block.parentValid = true ∧
      block.level = above.level + 1 ∧ block.parent = table

theorem claimed_of_inspectBlocks {indices : List Nat}
    (passed : cache.inspectBlocks owned indices = pure after) :
    Claimed owned (indices.flatMap cache.childrenOf) after ∧ ∀ index ∈ indices,
      cache.LinksBelong index ∧ ∃ block, cache.pool.blocks[index]? = some block ∧
        block.reference ≤ cache.maxReference := by
  induction indices generalizing owned with
  | nil =>
    cases passed
    exact ⟨Claimed.nil _, nofun⟩
  | cons index rest ih =>
    simp only [inspectBlocks, Inspection.bind_eq_pure_iff, Inspection.get_eq_pure_iff,
      Inspection.ensure_eq_pure_iff, decide_eq_true_eq] at passed
    obtain ⟨block, found, _, bounded, passed⟩ := passed
    have children : cache.childrenOf index = if block.valid then block.children else [] := by
      rw [childrenOf, found]
    -- the links of a table are claimed before those of the blocks behind it
    obtain ⟨middle, claimed, belong, passed⟩ : ∃ middle,
        Claimed owned (cache.childrenOf index) middle ∧ cache.LinksBelong index ∧
          cache.inspectBlocks middle rest = pure after := by
      split at passed
      next valid =>
        obtain ⟨middle, claims, passed⟩ := Inspection.bind_eq_pure_iff.mp passed
        obtain ⟨claimed, belong⟩ := claimed_of_inspectChildren claims
        rw [LinksBelong, children, if_pos valid]
        refine ⟨middle, claimed, ?_, passed⟩
        intro child isChild
        obtain ⟨below, found', hangs⟩ := belong child isChild
        exact ⟨block, below, found, found', hangs⟩
      next unbuilt =>
        rw [LinksBelong, children, if_neg unbuilt]
        exact ⟨owned, Claimed.nil _, nofun, passed⟩
    obtain ⟨claimed', sound⟩ := ih passed
    refine ⟨claimed.append claimed', ?_⟩
    intro other isOther
    rcases List.mem_cons.mp isOther with rfl | isRest
    · exact ⟨belong, block, found, bounded⟩
    · exact sound other isRest

theorem contains_of_inspectOwners {indices : List Nat}
    (passed : cache.inspectOwners owned indices = pure ()) :
    ∀ index ∈ indices, ∃ block, cache.pool.blocks[index]? = some block ∧
      (block.valid = true → block.parentValid = true → owned.contains index = true) := by
  induction indices with
  | nil => nofun
  | cons index rest ih =>
    simp only [inspectOwners, Inspection.bind_eq_pure_iff, Inspection.get_eq_pure_iff,
      Inspection.ensure_eq_pure_iff] at passed
    obtain ⟨block, found, _, known, passed⟩ := passed
    intro other isOther
    rcases List.mem_cons.mp isOther with rfl | isRest
    · refine ⟨block, found, ?_⟩
      intro valid attached
      simpa [valid, attached] using known
    · exact ih passed other isRest

theorem leaf_of_inspectFastPath {entries : List (Nat × Nat)}
    (passed : cache.inspectFastPath entries = pure ()) :
    ∀ tag index, (tag, index) ∈ entries → ∃ block bytes, cache.pool.blocks[index]? = some block ∧
      block.valid = true ∧ block.level = cache.layout.depth ∧ block.tag = tag ∧
        block.payload = .data bytes := by
  induction entries with
  | nil => nofun
  | cons entry rest ih =>
    simp only [inspectFastPath, Inspection.bind_eq_pure_iff, Inspection.get_eq_pure_iff,
      Inspection.ensure_eq_pure_iff, Bool.and_eq_true, beq_iff_eq] at passed
    obtain ⟨block, found, _, ⟨⟨⟨valid, level⟩, tagged⟩, holds⟩, passed⟩ := passed
    intro tag index isEntry
    rcases List.mem_cons.mp isEntry with rfl | isRest
    · cases payload : block.payload with
      | data bytes => exact ⟨block, bytes, found, valid, level, tagged, payload⟩
      | empty => simp [Block.bytes?, payload] at holds
      | table links => simp [Block.bytes?, payload] at holds
    · exact ih passed tag index isRest

end Passes

section Links

theorem mem_validEntries_iff {slot : Nat} :
    (slot, index) ∈ cache.top.validEntries ↔ cache.Owns none slot index := by
  rw [owns_iff_link, TopIndex.validEntries, TopIndex.mem_validBelow_iff]
  change _ ↔ cache.top.entries[slot]?.bind Link.leads? = some index
  constructor
  · rintro (nothing | ⟨_, leads⟩)
    · cases nothing
    · exact leads
  · intro leads
    obtain ⟨entry, found, _⟩ := Option.bind_eq_some_iff.mp leads
    obtain ⟨slot_lt, _⟩ := Array.getElem?_eq_some_iff.mp found
    exact .inr ⟨slot_lt, leads⟩

/-- The passes over the links have claimed every block that a link leads to. -/
structure Inspected (cache : Cache) (top all : Owned) : Prop where
  claimedTop : Claimed {} (cache.top.validEntries.map Prod.snd) top
  topEntry {slot index : Nat} : cache.Owns none slot index →
    ∃ block, cache.pool.blocks[index]? = some block ∧ block.valid = true ∧
      block.parentValid = true ∧ block.level = 1 ∧ block.parent = slot
  claimedChildren : Claimed top ((List.range cache.pool.capacity).flatMap cache.childrenOf) all
  childLink {table slot index : Nat} : cache.Owns (some table) slot index →
    ∃ above block, cache.pool.blocks[table]? = some above ∧
      cache.pool.blocks[index]? = some block ∧ block.valid = true ∧ block.parentValid = true ∧
      block.level = above.level + 1 ∧ block.parent = table

theorem table_mem_range {table slot : Nat} (owns : cache.Owns (some table) slot index) :
    table ∈ List.range cache.pool.capacity := by
  obtain ⟨above, found, _⟩ := owns
  exact List.mem_range.mpr (Pool.lt_capacity_of_block found)

namespace Inspected

variable {top all : Owned} (inspected : cache.Inspected top all)
include inspected

/-- A table of level zero has children of the first level, so the levels alone do not tell a
child from the target of a top entry. -/
theorem not_owns_of_topEntry {table slot slot' : Nat} (entry : cache.Owns none slot index) :
    ¬ cache.Owns (some table) slot' index := by
  intro owns
  have taken := inspected.claimedTop.contains_iff.mpr
    (.inr (List.mem_map.mpr ⟨_, mem_validEntries_iff.mpr entry, rfl⟩))
  have isChild := List.mem_flatMap.mpr
    ⟨table, table_mem_range owns, mem_childrenOf_iff.mpr ⟨slot', owns⟩⟩
  rw [inspected.claimedChildren.fresh isChild] at taken
  cases taken

theorem slot_eq_of_owns {table slot slot' : Nat} (one : cache.Owns (some table) slot index)
    (other : cache.Owns (some table) slot' index) : slot = slot' := by
  have nodup :=
    (List.nodup_flatMap.mp inspected.claimedChildren.nodup).1 table (table_mem_range one)
  obtain ⟨above, isTable, valid, leads⟩ := one
  obtain ⟨above', isTable', _, leads'⟩ := other
  cases isTable.symm.trans isTable'
  simp only [childrenOf, isTable, valid, if_true] at nodup
  exact Block.slot_unique_of_nodup nodup leads leads'

theorem owner_unique {first second : Option Nat} {firstSlot secondSlot : Nat}
    (one : cache.Owns first firstSlot index) (other : cache.Owns second secondSlot index) :
    first = second ∧ firstSlot = secondSlot := by
  cases first with
  | none =>
    cases second with
    | none =>
      obtain ⟨block, found, _, _, _, parent⟩ := inspected.topEntry one
      obtain ⟨block', found', _, _, _, parent'⟩ := inspected.topEntry other
      cases found.symm.trans found'
      exact ⟨rfl, parent.symm.trans parent'⟩
    | some table => exact absurd other (inspected.not_owns_of_topEntry one)
  | some table =>
    cases second with
    | none => exact absurd one (inspected.not_owns_of_topEntry other)
    | some table' =>
      obtain ⟨_, block, _, found, _, _, _, named⟩ := inspected.childLink one
      obtain ⟨_, block', _, found', _, _, _, named'⟩ := inspected.childLink other
      cases found.symm.trans found'
      obtain rfl : table = table' := named.symm.trans named'
      exact ⟨rfl, inspected.slot_eq_of_owns one other⟩

theorem exists_owner (claimed : all.contains index = true) :
    ∃ owner slot, cache.Owns owner slot index := by
  rcases inspected.claimedChildren.contains_iff.mp claimed with isTop | isChild
  · rcases inspected.claimedTop.contains_iff.mp isTop with nothing | isTarget
    · rw [Std.TreeSet.contains_emptyc] at nothing
      cases nothing
    · obtain ⟨⟨slot, _⟩, isEntry, rfl⟩ := List.mem_map.mp isTarget
      exact ⟨none, slot, mem_validEntries_iff.mp isEntry⟩
  · obtain ⟨table, _, isChild⟩ := List.mem_flatMap.mp isChild
    obtain ⟨slot, owns⟩ := mem_childrenOf_iff.mp isChild
    exact ⟨some table, slot, owns⟩

end Inspected

/-- Whatever cache passes the cross-check, what it looks at is in order. -/
theorem integrity_of_checkStructure (passed : cache.checkStructure = .ok (.ok ())) :
    cache.Integrity := by
  have passed : cache.inspect = pure () := passed
  simp only [inspect, Inspection.bind_eq_pure_iff, Inspection.ensure_eq_pure_iff,
    decide_eq_true_eq] at passed
  obtain ⟨_, _, _, _, top, inspectedTop, all, inspectedBlocks, _, inspectedOwners, _, size_le,
    inspectedFastPath⟩ := passed
  obtain ⟨claimedTop, entries⟩ := claimed_of_inspectTop inspectedTop
  obtain ⟨claimedChildren, blocks⟩ := claimed_of_inspectBlocks inspectedBlocks
  have known := contains_of_inspectOwners inspectedOwners
  have inspected : cache.Inspected top all := {
    claimedTop
    claimedChildren
    topEntry := fun owns => entries _ _ (mem_validEntries_iff.mpr owns)
    childLink := fun owns =>
      (blocks _ (table_mem_range owns)).1 _ (mem_childrenOf_iff.mpr ⟨_, owns⟩) }
  refine ⟨inspected.topEntry, inspected.childLink, inspected.owner_unique, ?_, ?_, size_le, ?_⟩
  · intro index block found valid attached
    obtain ⟨block', found', claimed⟩ :=
      known index (List.mem_range.mpr (Pool.lt_capacity_of_block found))
    cases found.symm.trans found'
    exact inspected.exists_owner (claimed valid attached)
  · intro index block found
    obtain ⟨_, block', found', bounded⟩ :=
      blocks index (List.mem_range.mpr (Pool.lt_capacity_of_block found))
    cases found.symm.trans found'
    exact bounded
  · intro tag index leads
    exact leaf_of_inspectFastPath inspectedFastPath tag index (FastPath.mem_toList_iff.mpr leads)

end Links

section Climbing

/-- From a block upwards, this many links lead back to an owner; the top index is written
`none`. -/
inductive Climbs (cache : Cache) : (index steps : Nat) → (owner : Option Nat) → Prop
  | start (index : Nat) : Climbs cache index 0 (some index)
  | top {index slot : Nat} : cache.Owns none slot index → Climbs cache index 1 none
  | step {index table slot steps : Nat} {owner : Option Nat} :
    cache.Owns (some table) slot index → Climbs cache table steps owner →
      Climbs cache index (steps + 1) owner

namespace Integrity

variable (integrity : cache.Integrity) {block above : Block} {table steps : Nat}
  {owner other : Option Nat}
include integrity

theorem level_of_climbs (climbs : cache.Climbs index steps (some table))
    (found : cache.pool.blocks[index]? = some block)
    (isAbove : cache.pool.blocks[table]? = some above) : above.level + steps = block.level := by
  generalize reached : some table = owner at climbs
  induction climbs generalizing block with
  | start =>
    cases reached
    cases found.symm.trans isAbove
    rfl
  | top => cases reached
  | step owns _ ih =>
    obtain ⟨next, block', isNext, found', _, _, deeper, _⟩ := integrity.childLink owns
    cases found.symm.trans found'
    have rest := ih isNext reached
    omega

theorem climbs_functional (climbs : cache.Climbs index steps owner)
    (climbs' : cache.Climbs index steps other) : owner = other := by
  induction climbs with
  | start =>
    cases climbs'
    rfl
  | top owns =>
    cases climbs' with
    | top => rfl
    | step owns' => cases (integrity.oneOwner owns owns').1
  | step owns upper ih =>
    cases climbs' with
    | top owns' => cases (integrity.oneOwner owns owns').1
    | step owns' upper' =>
      cases (integrity.oneOwner owns owns').1
      exact ih upper'

/-- A climb from a built block ends at the top index or at an orphan, at the latest when it
has no level left to lose. -/
theorem exists_climb (found : cache.pool.blocks[index]? = some block) (valid : block.valid = true) :
    ∃ steps owner, steps ≤ block.level ∧ cache.Climbs index steps owner ∧
      ∀ table, owner = some table →
        ∃ orphan, cache.pool.blocks[table]? = some orphan ∧ orphan.isOrphaned = true := by
  induction level : block.level using Nat.strong_induction_on generalizing index block with
  | _ level ih =>
    cases attached : block.parentValid with
    | false =>
      refine ⟨0, some index, Nat.zero_le _, .start index, ?_⟩
      rintro _ ⟨⟩
      exact ⟨block, found, by simp [Block.isOrphaned, valid, attached]⟩
    | true =>
      obtain ⟨owner, slot, owns⟩ := integrity.owned found valid attached
      cases owner with
      | none =>
        obtain ⟨block', found', _, _, isFirst, _⟩ := integrity.topEntry owns
        cases found.symm.trans found'
        exact ⟨1, none, by omega, .top owns, nofun⟩
      | some table =>
        obtain ⟨above, block', isAbove, found', _, _, deeper, _⟩ := integrity.childLink owns
        cases found.symm.trans found'
        obtain ⟨above', isAbove', valid', _⟩ := id owns
        cases isAbove.symm.trans isAbove'
        obtain ⟨steps, owner, steps_le, climbs, ends⟩ :=
          ih above.level (by omega) isAbove valid' rfl
        exact ⟨steps + 1, owner, by omega, .step owns climbs, ends⟩

end Integrity

end Climbing

section Walks

variable {address : Address} {level steps : Nat} {walk : Walk} {result : Cache}

/-- Every block below the first of a walk is attached, one level deeper than the one before. -/
theorem Integrity.level_of_onward (integrity : cache.Integrity) {block : Block}
    (found : cache.pool.blocks[index]? = some block) (valid : block.valid = true) {place other : Nat}
    (isPlace : (cache.onward address index level steps)[place]? = some other) :
    ∃ block', cache.pool.blocks[other]? = some block' ∧ block'.valid = true ∧
      block'.parentValid = true ∧ block'.level = block.level + place + 1 := by
  induction steps generalizing index level block place with
  | zero => simp [onward] at isPlace
  | succ steps ih =>
    rw [onward] at isPlace
    split at isPlace
    next child isNext =>
      obtain ⟨selector, _, isNext⟩ := Option.bind_eq_some_iff.mp isNext
      obtain ⟨block', found', isChild⟩ := Option.bind_eq_some_iff.mp isNext
      cases found.symm.trans found'
      obtain ⟨_, below, isAbove, isBelow, valid', attached, deeper, _⟩ :=
        integrity.childLink ⟨block, found, valid, Block.child?_eq_some_iff.mp isChild⟩
      cases found.symm.trans isAbove
      cases place with
      | zero =>
        cases isPlace
        exact ⟨below, isBelow, valid', attached, deeper⟩
      | succ place =>
        obtain ⟨last, isLast, valid'', attached', further⟩ := ih isBelow valid' isPlace
        exact ⟨last, isLast, valid'', attached', by omega⟩
    next => simp at isPlace

/-- A walk visits attached blocks only, and counts their levels. -/
theorem Integrity.level_of_visits (integrity : cache.Integrity) {place : Nat}
    (isPlace : (cache.visits address)[place]? = some index) :
    ∃ block, cache.pool.blocks[index]? = some block ∧ block.valid = true ∧
      block.parentValid = true ∧ block.level = place + 1 := by
  rw [visits] at isPlace
  split at isPlace
  next first isFirst =>
    obtain ⟨slot, _, isFirst⟩ := Option.bind_eq_some_iff.mp isFirst
    have owns : cache.Owns none slot first := owns_iff_link.mpr isFirst
    obtain ⟨block, found, valid, attached, level, _⟩ := integrity.topEntry owns
    cases place with
    | zero =>
      cases isPlace
      exact ⟨block, found, valid, attached, level⟩
    | succ place =>
      obtain ⟨last, isLast, valid', attached', further⟩ :=
        integrity.level_of_onward found valid isPlace
      exact ⟨last, isLast, valid', attached', by omega⟩
  next => simp at isPlace

theorem Integrity.nodup_visits (integrity : cache.Integrity) (address : Address) :
    (cache.visits address).Nodup := by
  refine List.nodup_iff_getElem?_ne_getElem?.mpr ?_
  intro early late before inside same
  have isLate := List.getElem?_eq_getElem inside
  obtain ⟨block, found, _, _, level⟩ := integrity.level_of_visits isLate
  obtain ⟨block', found', _, _, level'⟩ := integrity.level_of_visits (same.trans isLate)
  cases found.symm.trans found'
  omega

end Walks

section Verification

/-- A forest of blocks below top index and orphans, which no walk leaves, with the leaves of
the fast path on it. -/
structure Verified (cache : Cache) : Prop where
  /-- One link at most leads to a block. -/
  oneOwner {first second : Option Nat} {firstSlot secondSlot index : Nat} :
    cache.Owns first firstSlot index → cache.Owns second secondSlot index →
      first = second ∧ firstSlot = secondSlot
  /-- Exactly one link leads to an attached block. -/
  owned {index : Nat} {block : Block} : cache.pool.blocks[index]? = some block →
    block.valid = true → block.parentValid = true →
      ∃! link : Option Nat × Nat, cache.Owns link.1 link.2 index
  /-- The table that a link belongs to is of a lower level than the block it leads to. -/
  level_lt {table slot index : Nat} : cache.Owns (some table) slot index →
    ∃ above block, cache.pool.blocks[table]? = some above ∧
      cache.pool.blocks[index]? = some block ∧ above.level < block.level
  /-- From owner to owner one comes to the top index or to an orphan, in no more steps than
  the block has levels. -/
  climbs {index : Nat} {block : Block} : cache.pool.blocks[index]? = some block →
    block.valid = true → ∃ steps owner, steps ≤ block.level ∧ cache.Climbs index steps owner ∧
      ∀ table, owner = some table →
        ∃ orphan, cache.pool.blocks[table]? = some orphan ∧ orphan.isOrphaned = true
  oneClimb {index steps : Nat} {owner other : Option Nat} :
    cache.Climbs index steps owner → cache.Climbs index steps other → owner = other
  /-- No block is above itself. -/
  acyclic {index steps : Nat} : cache.Climbs index steps (some index) → steps = 0
  /-- A search goes along the blocks of its walk to the last of them. -/
  searched {address : Address} {walk : Walk} {after : Cache} :
    cache.search address = .ok (walk, after) →
      walk.anchor = (cache.visits address).getLast? ∧
        after = cache.marked (cache.visits address).tail
  /-- A walk visits attached blocks only, and none of them twice. -/
  visited (address : Address) : (cache.visits address).Nodup ∧
    ∀ index ∈ cache.visits address, ∃ block, cache.pool.blocks[index]? = some block ∧
      block.valid = true ∧ block.parentValid = true
  fastPathEntry {tag index : Nat} : cache.fastPath.lookup tag = some index →
    ∃ block bytes, cache.pool.blocks[index]? = some block ∧ block.valid = true ∧
      block.level = cache.layout.depth ∧ block.tag = tag ∧ block.payload = .data bytes

theorem Integrity.eq_zero_of_climbs_self (integrity : cache.Integrity) {steps : Nat}
    (climbs : cache.Climbs index steps (some index)) : steps = 0 := by
  cases climbs with
  | start => rfl
  | step owns upper =>
    obtain ⟨_, block, _, found, _⟩ := integrity.childLink owns
    have level := integrity.level_of_climbs (.step owns upper) found found
    omega

theorem Integrity.verified (integrity : cache.Integrity) : cache.Verified where
  oneOwner := integrity.oneOwner
  owned := by
    intro index block found valid attached
    obtain ⟨owner, slot, owns⟩ := integrity.owned found valid attached
    refine ⟨(owner, slot), owns, ?_⟩
    rintro ⟨other, slot'⟩ owns'
    obtain ⟨rfl, rfl⟩ := integrity.oneOwner owns' owns
    rfl
  level_lt := by
    intro table slot index owns
    obtain ⟨above, block, isAbove, found, _, _, deeper, _⟩ := integrity.childLink owns
    exact ⟨above, block, isAbove, found, by omega⟩
  climbs := integrity.exists_climb
  oneClimb := integrity.climbs_functional
  acyclic := integrity.eq_zero_of_climbs_self
  searched := visits_of_search
  visited := by
    intro address
    refine ⟨integrity.nodup_visits address, ?_⟩
    intro index isVisited
    obtain ⟨place, isPlace⟩ := List.mem_iff_getElem?.mp isVisited
    obtain ⟨block, found, valid, attached, _⟩ := integrity.level_of_visits isPlace
    exact ⟨block, found, valid, attached⟩
  fastPathEntry := integrity.fastPathEntry

/-- The cross-check tells the truth of every cache, be it one that a run can reach or not. -/
theorem verified_of_checkStructure (passed : cache.checkStructure = .ok (.ok ())) :
    cache.Verified := by
  apply Integrity.verified
  exact integrity_of_checkStructure passed

/-- A pool of half its size, with two tables of one leaf each.  The first is an orphan, and the
fast path still leads to its leaf. -/
def uprooted : Cache where
  config := .tiny
  layout := { depth := 2, blockBits := 2, branchBits := 1, spanBits := 3, limit := 256 }
  pool := {
    blocks := #[
      { valid := true, level := 1, payload := .table #[{ valid := true, target := 2 }, {}] },
      { valid := true, parentValid := true, level := 1, parent := 5,
        payload := .table #[{}, { valid := true, target := 3 }] },
      { valid := true, parentValid := true, level := 2, tag := 7, payload := .data #[1, 2, 3, 4] },
      { valid := true, parentValid := true, level := 2, tag := 11, parent := 1,
        payload := .data #[5, 6, 7, 8] }] }
  top := { entries := (Array.replicate 32 {}).set 5 { valid := true, target := 1 } }
  fastPath := { capacity := 1, entries := .insert {} 7 { target := 2, sequence := 0 } }

theorem verified_uprooted : uprooted.checkStructure = .ok (.ok ()) ∧ uprooted.Verified := by
  have passed : uprooted.checkStructure = .ok (.ok ()) := by decide +kernel
  exact ⟨passed, verified_of_checkStructure passed⟩

end Verification

end Cache

end TrieCache
