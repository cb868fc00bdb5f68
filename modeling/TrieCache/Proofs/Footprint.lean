import Mathlib.Algebra.BigOperators.Ring.Finset
import Mathlib.Algebra.Order.BigOperators.Group.Finset
import Mathlib.Order.Interval.Finset.Nat
import TrieCache.Proofs.Geometry

/-!
# The blocks that a set of addresses needs

Blocks whose addresses begin with the same top index and selectors share the tables of these
levels.  So a set of addresses needs one block for every prefix of one of them, counted level
by level, and a further address needs those of its prefixes that are new.
-/

namespace TrieCache.Layout

/-- The prefix of an address down to a level: its top index, and its selectors from the
second level on. -/
def way (layout : Layout) (address : Address) (level : Nat) : Checked (List Nat) := do
  let top ← layout.topIndex address
  let selectors ← layout.selectorsFrom address 2 (level - 1)
  return top :: selectors

/-- The number of distinct prefixes of addresses, over all levels. -/
def blocksNeeded (layout : Layout) (addresses : Finset Address) : Nat :=
  ∑ level ∈ Finset.Icc 1 layout.depth, (addresses.image (layout.way · level)).card

def footprint (layout : Layout) (tags : Finset Nat) : Nat :=
  ∑ level ∈ Finset.Icc 1 layout.depth, (tags.image (layout.slots · level)).card

section Prefixes

variable {layout : Layout}

theorem slots_eq_map (layout : Layout) (tag level : Nat) :
    layout.slots tag level = ((List.range' 1 level).map (layout.slot tag)).reverse := by
  induction level with
  | zero => rfl
  | succ level ih =>
    rw [slots, ih, List.range'_concat, List.map_append, List.reverse_append, Nat.one_mul,
      Nat.add_comm 1 level]
    rfl

theorem Regular.selectorsFrom_eq (regular : layout.Regular) (address : Address)
    {level count : Nat} (below : 2 ≤ level) (count_le : level + count ≤ layout.depth + 1) :
    layout.selectorsFrom address level count =
      .ok ((List.range' level count).map (layout.slot (layout.blockOf address))) := by
  induction count generalizing level with
  | zero => rfl
  | succ count ih =>
    rw [selectorsFrom, regular.selector_eq address below (by omega), ok_bind,
      ih (by omega) (by omega)]
    rfl

/-- The slots on the way to a block are the prefix of its address. -/
theorem Regular.way_eq (regular : layout.Regular) (address : Address) {level : Nat}
    (level_pos : 1 ≤ level) (level_le : level ≤ layout.depth) :
    layout.way address level = .ok (layout.slots (layout.blockOf address) level).reverse := by
  obtain ⟨below, rfl⟩ : ∃ below, level = below + 1 := ⟨level - 1, by omega⟩
  rw [way, regular.topIndex_eq, ok_bind, Nat.add_sub_cancel,
    regular.selectorsFrom_eq address le_rfl (by omega), slots_eq_map, List.reverse_reverse]
  rfl

theorem Regular.blocksNeeded_eq (regular : layout.Regular) (addresses : Finset Address) :
    layout.blocksNeeded addresses = layout.footprint (addresses.image layout.blockOf) := by
  refine Finset.sum_congr rfl fun level inside => ?_
  obtain ⟨level_pos, level_le⟩ := Finset.mem_Icc.mp inside
  have ways : addresses.image (layout.way · level) =
      ((addresses.image layout.blockOf).image (layout.slots · level)).image
        fun slots => (.ok slots.reverse : Checked (List Nat)) := by
    rw [Finset.image_image, Finset.image_image]
    exact Finset.image_congr fun address _ => regular.way_eq address level_pos level_le
  rw [ways, Finset.card_image_of_injective]
  intro first second same
  exact List.reverse_injective (Except.ok.inj same)

/-- Addresses have as many tags as there are blocks that they belong to. -/
theorem Regular.card_image_tag (regular : layout.Regular) (addresses : Finset Address) :
    (addresses.image layout.tag).card = (addresses.image layout.blockOf).card := by
  have tags : addresses.image layout.tag =
      (addresses.image layout.blockOf).image fun tag => (.ok tag : Checked Nat) := by
    rw [Finset.image_image]
    exact Finset.image_congr fun address _ => regular.tag_eq address
  rw [tags, Finset.card_image_of_injective _ fun _ _ same => Except.ok.inj same]

end Prefixes

section Counting

variable {layout : Layout} {tags more : Finset Nat} {tag shared : Nat}

theorem footprint_mono (subset : tags ⊆ more) : layout.footprint tags ≤ layout.footprint more :=
  Finset.sum_le_sum fun _ _ => Finset.card_le_card (Finset.image_subset_image subset)

/-- A further block needs the levels that it does not share. -/
theorem footprint_insert
    (old : ∀ level, 1 ≤ level → level ≤ shared →
      layout.slots tag level ∈ tags.image (layout.slots · level))
    (new : ∀ level, shared < level → level ≤ layout.depth →
      layout.slots tag level ∉ tags.image (layout.slots · level)) :
    layout.footprint (insert tag tags) = layout.footprint tags + (layout.depth - shared) := by
  have step : ∀ level ∈ Finset.Icc 1 layout.depth,
      ((insert tag tags).image (layout.slots · level)).card =
        (tags.image (layout.slots · level)).card + if shared < level then 1 else 0 := by
    intro level inside
    obtain ⟨level_pos, level_le⟩ := Finset.mem_Icc.mp inside
    rw [Finset.image_insert]
    split
    next isNew => exact Finset.card_insert_of_notMem (new level isNew level_le)
    next isOld =>
      rw [Finset.insert_eq_of_mem (old level level_pos (Nat.le_of_not_lt isOld)), Nat.add_zero]
  have levels : (Finset.Icc 1 layout.depth).filter (shared < ·) = Finset.Ioc shared layout.depth := by
    ext level
    simp only [Finset.mem_filter, Finset.mem_Icc, Finset.mem_Ioc]
    omega
  rw [footprint, Finset.sum_congr rfl step, Finset.sum_add_distrib, ← Finset.card_filter, levels,
    Nat.card_Ioc]
  rfl

end Counting

end TrieCache.Layout
