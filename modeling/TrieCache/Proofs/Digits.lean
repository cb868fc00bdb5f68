import TrieCache.Proofs.Footprint

/-!
# Addresses as numerals

The top index, the selectors and the offset of an address are digits of mixed radix: the
selectors count the child slots of a table, the offset the bytes of a block, and the top
index the entries of the top.  Where the layout of an accepted configuration answers at all,
the digits denote the address, the digits before the offset denote its tag, and every choice
of digits within their ranges is that of exactly one address.
-/

namespace TrieCache

/-- The number that a leading digit and the digits after it denote in a base. -/
def numeral (base leading : Nat) (digits : List Nat) : Nat :=
  digits.foldl (fun number digit => number * base + digit) leading

section Numerals

variable {base leading other : Nat} {digits others : List Nat}

theorem numeral_concat (base leading : Nat) (digits : List Nat) (last : Nat) :
    numeral base leading (digits ++ [last]) = numeral base leading digits * base + last := by
  rw [numeral, List.foldl_concat]
  rfl

theorem numeral_lt (small : ∀ digit ∈ digits, digit < base) :
    numeral base leading digits < (leading + 1) * base ^ digits.length := by
  induction digits using List.reverseRecOn with
  | nil => simp [numeral]
  | append_singleton digits last ih =>
    have upper := ih fun digit member => small digit (List.mem_append_left _ member)
    have last_lt := small last (List.mem_append_right _ (List.mem_singleton_self last))
    rw [numeral_concat, List.length_append, List.length_singleton]
    calc numeral base leading digits * base + last
        < (numeral base leading digits + 1) * base := by rw [Nat.succ_mul]; omega
      _ ≤ (leading + 1) * base ^ digits.length * base := Nat.mul_le_mul_right _ upper
      _ = (leading + 1) * base ^ (digits.length + 1) := by rw [pow_succ, Nat.mul_assoc]

/-- A number is denoted by one choice of a given count of digits after the leading one. -/
theorem numeral_injective (length_eq : digits.length = others.length)
    (small : ∀ digit ∈ digits, digit < base) (small' : ∀ digit ∈ others, digit < base)
    (same : numeral base leading digits = numeral base other others) :
    leading = other ∧ digits = others := by
  induction digits using List.reverseRecOn generalizing others with
  | nil =>
    obtain rfl := List.length_eq_zero_iff.mp length_eq.symm
    exact ⟨same, rfl⟩
  | append_singleton digits last ih =>
    obtain rfl | ⟨others, last', rfl⟩ := others.eq_nil_or_concat
    · simp at length_eq
    rw [List.concat_eq_append] at length_eq small' same ⊢
    have last_lt := small last (List.mem_append_right _ (List.mem_singleton_self last))
    have last_lt' := small' last' (List.mem_append_right _ (List.mem_singleton_self last'))
    rw [numeral_concat, numeral_concat] at same
    have lasts : last = last' := by
      simpa [Nat.mul_add_mod', Nat.mod_eq_of_lt, last_lt, last_lt'] using congrArg (· % base) same
    subst lasts
    have rest : numeral base leading digits = numeral base other others :=
      Nat.eq_of_mul_eq_mul_right (by omega) (Nat.add_right_cancel same)
    obtain ⟨leadings, rfl⟩ := ih (by simpa using length_eq)
      (fun digit member => small digit (List.mem_append_left _ member))
      (fun digit member => small' digit (List.mem_append_left _ member)) rest
    exact ⟨leadings, rfl⟩

end Numerals

namespace Layout

variable {layout : Layout}

/-- The slots down to a level denote what the levels below leave of the tag. -/
theorem numeral_slots (layout : Layout) (tag : Nat) {count : Nat} (shallow : count < layout.depth) :
    numeral layout.fanout (layout.slot tag 1) ((List.range' 2 count).map (layout.slot tag)) =
      tag / layout.fanout ^ (layout.depth - (count + 1)) := by
  induction count with
  | zero => simp [numeral, slot]
  | succ count ih =>
    have below : layout.depth - (count + 1) = layout.depth - (count + 1 + 1) + 1 := by omega
    rw [List.range'_concat, List.map_append, List.map_singleton, numeral_concat, ih (by omega),
      slot, if_neg (by omega), below, pow_succ, ← Nat.div_div_eq_div_mul, Nat.one_mul,
      show 2 + count = count + 1 + 1 by omega, Nat.div_add_mod']

/-- The selectors of all levels below the first are there only if each of them is. -/
theorem selector_of_selectorsFrom {address : Address} {level count : Nat} {selectors : List Nat}
    (found : layout.selectorsFrom address level count = .ok selectors) {deeper : Nat}
    (le : level ≤ deeper) (lt : deeper < level + count) :
    ∃ child, layout.selector address deeper = .ok child := by
  induction count generalizing level selectors with
  | zero => omega
  | succ count ih =>
    obtain ⟨first, first_eq, rest⟩ := bind_eq_ok_iff.mp found
    obtain ⟨rest, rest_eq, -⟩ := bind_eq_ok_iff.mp rest
    rcases Nat.eq_or_lt_of_le le with rfl | lower
    · exact ⟨first, first_eq⟩
    · exact ih rest_eq lower (by omega)

/-- The digits of an address. -/
structure Digits where
  top : Nat
  selectors : List Nat
  offset : Nat
  deriving DecidableEq, Repr

def Fields.digits (fields : Fields) : Digits :=
  { top := fields.top, selectors := fields.selectors, offset := fields.offset }

namespace Digits

/-- The block that digits lead to. -/
def tag (config : Config) (digits : Digits) : Nat :=
  numeral config.branching digits.top digits.selectors

/-- The address that digits denote. -/
def number (config : Config) (digits : Digits) : Nat :=
  digits.tag config * config.blockSize.toNat + digits.offset

/-- Every digit lies below the count of what it chooses from. -/
structure Within (config : Config) (entries : Nat) (digits : Digits) : Prop where
  top_lt : digits.top < entries
  length_eq : digits.selectors.length + 1 = config.levels.toNat
  selectors_lt : ∀ selector ∈ digits.selectors, selector < config.branching
  offset_lt : digits.offset < config.blockSize.toNat

end Digits

/-- The fields of an address are its digits, its block and the first address of the block. -/
structure Cut (config : Config) (entries : Nat) (address : Address) (fields : Fields) : Prop where
  contained : fields.contained = true
  within : fields.digits.Within config entries
  tag_eq : fields.digits.tag config = fields.tag
  number_eq : fields.digits.number config = address.toNat
  base_eq : fields.base + fields.offset = address.toNat

theorem split_eq_ok_iff {address : Address} {fields : Fields} :
    layout.split address = .ok fields ↔
      layout.selectors address = .ok fields.selectors ∧ layout.topIndex address = .ok fields.top ∧
        layout.tag address = .ok fields.tag ∧ layout.offset address = .ok fields.offset ∧
        layout.blockAddress fields.tag = .ok fields.base ∧
        fields.contained = layout.contains address := by
  simp only [split, bind_eq_ok_iff, pure_eq_ok, Except.ok.injEq]
  constructor
  · rintro ⟨selectors, selectors_eq, top, top_eq, tag, tag_eq, offset, offset_eq, base, base_eq, rfl⟩
    exact ⟨selectors_eq, top_eq, tag_eq, offset_eq, base_eq, rfl⟩
  · rintro ⟨selectors_eq, top_eq, tag_eq, offset_eq, base_eq, contained_eq⟩
    exact ⟨_, selectors_eq, _, top_eq, _, tag_eq, _, offset_eq, _, base_eq, by rw [← contained_eq]⟩

namespace Regular

variable (regular : layout.Regular)
include regular

theorem split_eq (address : Address) :
    layout.split address = .ok {
      contained := layout.contains address
      top := layout.slot (layout.blockOf address) 1
      selectors := (List.range' 2 (layout.depth - 1)).map (layout.slot (layout.blockOf address))
      tag := layout.blockOf address
      offset := layout.placeOf address
      base := layout.blockOf address * layout.blockBytes } := by
  have bound := regular.blockBits_lt
  have small : layout.blockOf address * layout.blockBytes < 2 ^ 64 :=
    (Nat.div_mul_le_self _ _).trans_lt address.toNat_lt
  rw [split_eq_ok_iff]
  refine ⟨?_, regular.topIndex_eq address, regular.tag_eq address, regular.offset_eq address,
    Word.shiftLeft_eq_ok_iff.mpr ⟨by omega, (Nat.mod_eq_of_lt small).symm⟩, rfl⟩
  have depth_pos := regular.depth_pos
  exact regular.selectorsFrom_eq address le_rfl (by omega)

theorem numeral_eq (tag : Nat) :
    numeral layout.fanout (layout.slot tag 1)
      ((List.range' 2 (layout.depth - 1)).map (layout.slot tag)) = tag := by
  have depth_pos := regular.depth_pos
  rw [layout.numeral_slots tag (by omega), show layout.depth - (layout.depth - 1 + 1) = 0 by omega,
    pow_zero, Nat.div_one]

theorem slots_of_numeral {top : Nat} {selectors : List Nat}
    (length_eq : selectors.length + 1 = layout.depth)
    (small : ∀ selector ∈ selectors, selector < layout.fanout) :
    layout.slot (numeral layout.fanout top selectors) 1 = top ∧
      (List.range' 2 (layout.depth - 1)).map
        (layout.slot (numeral layout.fanout top selectors)) = selectors := by
  have same := regular.numeral_eq (numeral layout.fanout top selectors)
  refine numeral_injective ?_ ?_ small same
  · rw [List.length_map, List.length_range']
    omega
  · intro digit member
    obtain ⟨level, inside, rfl⟩ := List.mem_map.mp member
    rw [List.mem_range'_1] at inside
    exact slot_lt (by omega) _

end Regular

/-- A layout that answers for some address fits the address into its word. -/
theorem regular_of_split {config : Config} {capacity spanBits : Nat} {address : Address}
    {fields : Fields} (accepted : config.Accepted capacity spanBits)
    (made : ofConfig config = .ok layout) (split : layout.split address = .ok fields) :
    layout.Regular := by
  obtain ⟨selectors_eq, top_eq, -⟩ := split_eq_ok_iff.mp split
  have layout_eq := (ofConfig_eq_ok_iff accepted).mp made
  have depth_eq : layout.depth = config.levels.toNat := by rw [layout_eq]
  have width : layout.spanBits = spanBits := by rw [layout_eq]
  refine regular_of_ofConfig accepted made (width ▸ (Word.shiftRight_eq_ok_iff.mp top_eq).1) ?_
  -- The selector of level `2 ^ 32` is among those of a layout as deep, and it has no value.
  by_contra deep
  have listed : 2 ≤ 2 ^ 32 ∧ 2 ^ 32 < 2 + (layout.depth - 1) := ⟨by decide, by omega⟩
  obtain ⟨child, child_eq⟩ := selector_of_selectorsFrom selectors_eq listed.1 listed.2
  have tables : Word.sub (2 ^ 32 % 2 ^ 32) 1 = .error .subtractOverflow := rfl
  rw [selector, if_pos ⟨by decide, by omega⟩, tables] at child_eq
  cases child_eq

/-- The digits of two addresses before the offset agree exactly when their blocks do. -/
theorem Cut.tag_eq_iff {config : Config} {entries : Nat} {first second : Address}
    {fields fields' : Fields} (cut : Cut config entries first fields)
    (cut' : Cut config entries second fields') :
    (fields.top = fields'.top ∧ fields.selectors = fields'.selectors) ↔
      fields.tag = fields'.tag := by
  have length_eq := cut.within.length_eq
  have length_eq' := cut'.within.length_eq
  rw [← cut.tag_eq, ← cut'.tag_eq]
  constructor
  · rintro ⟨top_eq, selectors_eq⟩
    rw [Digits.tag, Digits.tag, Fields.digits, Fields.digits, top_eq, selectors_eq]
  · exact numeral_injective (by omega) cut.within.selectors_lt cut'.within.selectors_lt

end Layout

namespace Config

/-- The layout of a configuration decomposes addresses exactly. -/
structure MixedRadix (config : Config) (layout : Layout) (span entries : Nat) : Prop where
  span_eq : config.topSpan = .ok span
  entries_eq : config.topEntries = .ok entries
  branching_eq : layout.branching = .ok config.branching
  blockSize_eq : layout.blockSize = .ok config.blockSize.toNat
  covers : entries * span = 2 ^ config.addressBits.toNat
  contains_iff (address : Address) :
    layout.contains address = true ↔ address.toNat < 2 ^ config.addressBits.toNat
  cut (address : Address) : layout.contains address = true →
    ∃ fields, layout.split address = .ok fields ∧ Layout.Cut config entries address fields
  tag_iff {first second : Address} {fields fields' : Layout.Fields} :
    layout.contains first = true → layout.contains second = true →
    layout.split first = .ok fields → layout.split second = .ok fields' →
    ((fields.top = fields'.top ∧ fields.selectors = fields'.selectors) ↔ fields.tag = fields'.tag)
  unique (digits : Layout.Digits) : digits.Within config entries →
    ∃! address, layout.contains address = true ∧
      ∃ fields, layout.split address = .ok fields ∧ fields.digits = digits

namespace Accepted

variable {config : Config} {layout : Layout} {capacity spanBits : Nat}
  (accepted : config.Accepted capacity spanBits) (made : Layout.ofConfig config = .ok layout)
include accepted made

theorem depth_eq_levels : layout.depth = config.levels.toNat := by
  rw [(Layout.ofConfig_eq_ok_iff accepted).mp made]

theorem fanout_eq : layout.fanout = config.branching := by
  rw [accepted.branching_eq, Layout.fanout, (Layout.ofConfig_eq_ok_iff accepted).mp made]

theorem blockBytes_eq : layout.blockBytes = config.blockSize.toNat := by
  rw [accepted.blockSize_eq, Layout.blockBytes, (Layout.ofConfig_eq_ok_iff accepted).mp made]

variable (regular : layout.Regular)
include regular

theorem cut_of_contains {address : Address} (inside : layout.contains address = true) :
    ∃ fields, layout.split address = .ok fields ∧
      Layout.Cut config (2 ^ (config.addressBits.toNat - spanBits)) address fields := by
  have depth_pos := regular.depth_pos
  have depth_eq := accepted.depth_eq_levels made
  have fanout_eq := accepted.fanout_eq made
  have bytes_eq := accepted.blockBytes_eq made
  have whole := Nat.div_add_mod' address.toNat layout.blockBytes
  refine ⟨_, regular.split_eq address, ?_⟩
  have tag_eq := fanout_eq ▸ regular.numeral_eq (layout.blockOf address)
  exact {
    contained := inside
    within := {
      top_lt := (Layout.contains_iff_slot_lt accepted made regular address).mp inside
      length_eq := by
        rw [Layout.Fields.digits, List.length_map, List.length_range']
        omega
      selectors_lt := by
        intro selector member
        obtain ⟨level, within, rfl⟩ := List.mem_map.mp member
        rw [List.mem_range'_1] at within
        exact fanout_eq ▸ Layout.slot_lt (by omega) _
      offset_lt := bytes_eq ▸ layout.placeOf_lt address }
    tag_eq
    number_eq := by
      rw [Layout.Digits.number, ← bytes_eq]
      exact (congrArg (· * layout.blockBytes + layout.placeOf address) tag_eq).trans whole
    base_eq := whole }

/-- Digits within their ranges denote an address of the address space. -/
theorem number_lt {digits : Layout.Digits}
    (within : digits.Within config (2 ^ (config.addressBits.toNat - spanBits))) :
    digits.number config < 2 ^ config.addressBits.toNat := by
  have tag_lt : digits.tag config < _ := numeral_lt within.selectors_lt
  have depth_eq := accepted.depth_eq_levels made
  have length_eq := within.length_eq
  have tables : digits.selectors.length = layout.depth - 1 := by omega
  have width : layout.spanBits = spanBits := by
    rw [(Layout.ofConfig_eq_ok_iff accepted).mp made]
  have span_eq : layout.fanout ^ (layout.depth - 1) * layout.blockBytes = 2 ^ spanBits := by
    rw [Layout.fanout, Layout.blockBytes, ← pow_mul, ← pow_add, ← width, regular.spanBits_eq,
      Nat.add_comm]
  rw [tables, ← accepted.fanout_eq made] at tag_lt
  calc digits.number config
      < (digits.tag config + 1) * config.blockSize.toNat := by
        rw [Layout.Digits.number, Nat.succ_mul]
        exact Nat.add_lt_add_left within.offset_lt _
    _ ≤ (digits.top + 1) * layout.fanout ^ (layout.depth - 1) * layout.blockBytes := by
        rw [accepted.blockBytes_eq made]
        exact Nat.mul_le_mul_right _ (Nat.succ_le_of_lt tag_lt)
    _ = (digits.top + 1) * 2 ^ spanBits := by rw [Nat.mul_assoc, span_eq]
    _ ≤ 2 ^ (config.addressBits.toNat - spanBits) * 2 ^ spanBits :=
        Nat.mul_le_mul_right _ within.top_lt
    _ = 2 ^ config.addressBits.toNat := by
        rw [← pow_add, Nat.sub_add_cancel accepted.spanBits_le]

theorem existsUnique_of_within {digits : Layout.Digits}
    (within : digits.Within config (2 ^ (config.addressBits.toNat - spanBits))) :
    ∃! address, layout.contains address = true ∧
      ∃ fields, layout.split address = .ok fields ∧ fields.digits = digits := by
  have number_lt := accepted.number_lt made regular within
  have narrow : 2 ^ config.addressBits.toNat ≤ 2 ^ 64 :=
    Nat.pow_le_pow_right (by omega) accepted.addressBits_le
  have depth_eq := accepted.depth_eq_levels made
  have fanout_eq := accepted.fanout_eq made
  have bytes_eq := accepted.blockBytes_eq made
  have place_lt : digits.offset < layout.blockBytes := bytes_eq ▸ within.offset_lt
  have toNat_eq : (UInt64.ofNat (digits.number config)).toNat = digits.number config :=
    Nat.mod_eq_of_lt (number_lt.trans_le narrow)
  have block_eq : layout.blockOf (UInt64.ofNat (digits.number config)) = digits.tag config := by
    rw [Layout.blockOf, toNat_eq, Layout.Digits.number, ← bytes_eq, Nat.mul_comm,
      Nat.mul_add_div layout.blockBytes_pos, Nat.div_eq_of_lt place_lt, Nat.add_zero]
  have place_eq : layout.placeOf (UInt64.ofNat (digits.number config)) = digits.offset := by
    rw [Layout.placeOf, toNat_eq, Layout.Digits.number, ← bytes_eq, Nat.mul_add_mod',
      Nat.mod_eq_of_lt place_lt]
  have tag_eq : digits.tag config = numeral layout.fanout digits.top digits.selectors := by
    rw [Layout.Digits.tag, fanout_eq]
  obtain ⟨top_eq, selectors_eq⟩ : layout.slot (numeral layout.fanout digits.top digits.selectors) 1 =
      digits.top ∧ _ :=
    regular.slots_of_numeral (within.length_eq.trans depth_eq.symm) (fanout_eq ▸ within.selectors_lt)
  refine ⟨UInt64.ofNat (digits.number config), ⟨?_, _, regular.split_eq _, ?_⟩, ?_⟩
  · rwa [Layout.contains_iff_lt accepted made, toNat_eq]
  · rw [Layout.Fields.digits, block_eq, place_eq, tag_eq, top_eq, selectors_eq]
  · rintro address ⟨inside, fields, split_eq, rfl⟩
    obtain ⟨fields', split_eq', cut⟩ := accepted.cut_of_contains made regular inside
    obtain rfl := Except.ok.inj (split_eq.symm.trans split_eq')
    exact UInt64.toNat_inj.mp (by rw [toNat_eq, cut.number_eq])

theorem mixedRadix :
    config.MixedRadix layout (2 ^ spanBits) (2 ^ (config.addressBits.toNat - spanBits)) := by
  have width : layout.spanBits = spanBits := by
    rw [(Layout.ofConfig_eq_ok_iff accepted).mp made]
  have narrow := width ▸ regular.spanBits_lt
  exact {
    span_eq := by
      rw [topSpan, accepted.spanBits_eq, ok_bind]
      refine Word.shiftLeft_eq_ok_iff.mpr ⟨narrow, ?_⟩
      rw [one_mul, Nat.mod_eq_of_lt (Nat.pow_lt_pow_right (by omega) narrow)]
    entries_eq := accepted.topEntries_eq
    branching_eq := accepted.fanout_eq made ▸ regular.branching_eq
    blockSize_eq := accepted.blockBytes_eq made ▸ regular.blockSize_eq
    covers := by rw [← pow_add, Nat.sub_add_cancel accepted.spanBits_le]
    contains_iff := Layout.contains_iff_lt accepted made
    cut := fun _ inside => accepted.cut_of_contains made regular inside
    tag_iff := by
      intro first second fields fields' inside inside' split_eq split_eq'
      obtain ⟨_, split, cut⟩ := accepted.cut_of_contains made regular inside
      obtain ⟨_, split', cut'⟩ := accepted.cut_of_contains made regular inside'
      obtain rfl := Except.ok.inj (split_eq.symm.trans split)
      obtain rfl := Except.ok.inj (split_eq'.symm.trans split')
      exact cut.tag_eq_iff cut'
    unique := fun _ within => accepted.existsUnique_of_within made regular within }

end Accepted

/-- Where the layout of an accepted configuration answers for the addresses of its address
space, it decomposes them exactly. -/
theorem mixedRadix_of_split {config : Config} {layout : Layout}
    (valid : config.ensureValid = .ok ()) (made : Layout.ofConfig config = .ok layout)
    (answered : ∀ address, layout.contains address = true →
      ∃ fields, layout.split address = .ok fields) :
    ∃ span entries, config.MixedRadix layout span entries := by
  obtain ⟨capacity, spanBits, accepted⟩ := accepted_of_ensureValid valid
  have origin : layout.contains 0 = true :=
    (Layout.contains_iff_lt accepted made 0).mpr (Nat.two_pow_pos _)
  obtain ⟨fields, split⟩ := answered 0 origin
  have regular := Layout.regular_of_split accepted made split
  exact ⟨_, _, accepted.mixedRadix made regular⟩

/-- The most levels that a 64-bit space has room for: a top of two entries, and sixty-one
selectors of one bit. -/
def tallest : Config :=
  { size := 256, blockSize := 4, levels := 62, addressBits := 64 }

theorem mixedRadix_tallest :
    tallest.ensureValid = .ok () ∧ ∃ layout, Layout.ofConfig tallest = .ok layout ∧
      (∀ address, layout.contains address = true →
        ∃ fields, layout.split address = .ok fields) ∧
      ∃ span entries, tallest.MixedRadix layout span entries := by
  have valid : tallest.ensureValid = .ok () := by decide +kernel
  obtain ⟨capacity, spanBits, accepted⟩ := accepted_of_ensureValid valid
  obtain ⟨layout, made⟩ : ∃ layout, Layout.ofConfig tallest = .ok layout :=
    ⟨_, (Layout.ofConfig_eq_ok_iff accepted).mpr rfl⟩
  have shallow : tallest.levels.toNat < 2 ^ 32 := by decide +kernel
  have width : spanBits = 63 := (accepted.spanBits_eq_mul shallow).trans (by decide +kernel)
  have regular := Layout.regular_of_ofConfig accepted made (by omega) shallow
  have answered : ∀ address, layout.contains address = true →
      ∃ fields, layout.split address = .ok fields :=
    fun address _ => ⟨_, regular.split_eq address⟩
  exact ⟨valid, layout, made, answered, mixedRadix_of_split valid made answered⟩

end Config

end TrieCache
