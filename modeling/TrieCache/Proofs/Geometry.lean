import Mathlib.Algebra.Order.Ring.Nat
import TrieCache.Cache.Basic
import TrieCache.Proofs.Outcome

/-!
# Geometry of the address space

In a regular layout every field of an address is there.  The block that an address
belongs to determines the slots on the way down to it, one for each level, and the
slots in turn determine the block: they are its digits, the first of which is
unbounded.
-/

namespace TrieCache

namespace Word

theorem trailingZeros_two_pow {width exponent : Nat} (fits : exponent < width) :
    trailingZeros width (2 ^ exponent) = exponent := by
  induction exponent generalizing width with
  | zero =>
    cases width with
    | zero => omega
    | succ width => simp [trailingZeros]
  | succ exponent ih =>
    cases width with
    | zero => omega
    | succ width =>
      have even : 2 ^ (exponent + 1) % 2 = 0 := by
        rw [pow_succ]
        omega
      have half : 2 ^ (exponent + 1) / 2 = 2 ^ exponent := by
        rw [pow_succ]
        omega
      rw [trailingZeros, if_neg (by omega), half, ih (by omega)]

theorem eq_two_pow_of_isPowerOfTwo {width value : Nat} (power : isPowerOfTwo width value = true) :
    value = 2 ^ trailingZeros width value := by
  simp only [isPowerOfTwo, Bool.and_eq_true, decide_eq_true_eq] at power
  exact power.2

end Word

namespace Layout

/-- The layouts of the configurations in which every block can be reached: the fields
of an address fit its word, and so do the levels in their 32-bit count. -/
structure Regular (layout : Layout) : Prop where
  depth_pos : 1 ≤ layout.depth
  depth_lt : layout.depth < 2 ^ 32
  blockBits_ge : 2 ≤ layout.blockBits
  blockBits_lt : layout.blockBits < 63
  branchBits_succ : layout.branchBits + 1 = layout.blockBits
  spanBits_eq : layout.spanBits = layout.blockBits + layout.branchBits * (layout.depth - 1)
  spanBits_lt : layout.spanBits < 64

def blockBytes (layout : Layout) : Nat :=
  2 ^ layout.blockBits

def fanout (layout : Layout) : Nat :=
  2 ^ layout.branchBits

/-- The tag of the block that an address belongs to. -/
def blockOf (layout : Layout) (address : Address) : Nat :=
  address.toNat / layout.blockBytes

/-- The place of an address within its block. -/
def placeOf (layout : Layout) (address : Address) : Nat :=
  address.toNat % layout.blockBytes

/-- The slot at a level on the way down to a block: a digit of its tag. -/
def slot (layout : Layout) (tag level : Nat) : Nat :=
  if level = 1 then tag / layout.fanout ^ (layout.depth - 1)
  else tag / layout.fanout ^ (layout.depth - level) % layout.fanout

/-- The slots down to a level on the way to a block, the deepest first. -/
def slots (layout : Layout) (tag : Nat) : (level : Nat) → List Nat
  | 0 => []
  | level + 1 => layout.slot tag (level + 1) :: layout.slots tag level

@[simp]
theorem length_slots (layout : Layout) (tag level : Nat) :
    (layout.slots tag level).length = level := by
  induction level with
  | zero => rfl
  | succ level ih => rw [slots, List.length_cons, ih]

theorem slots_suffix (layout : Layout) (tag : Nat) {level deeper : Nat} (le : level ≤ deeper) :
    layout.slots tag level <:+ layout.slots tag deeper := by
  induction deeper with
  | zero =>
    obtain rfl := Nat.le_zero.mp le
    exact List.suffix_rfl
  | succ deeper ih =>
    rcases Nat.le_succ_iff.mp le with shallower | rfl
    · exact (ih shallower).trans (List.suffix_cons _ _)
    · exact List.suffix_rfl

theorem fanout_pos (layout : Layout) : 0 < layout.fanout :=
  Nat.two_pow_pos _

theorem blockBytes_pos (layout : Layout) : 0 < layout.blockBytes :=
  Nat.two_pow_pos _

theorem placeOf_lt (layout : Layout) (address : Address) :
    layout.placeOf address < layout.blockBytes :=
  Nat.mod_lt _ layout.blockBytes_pos

theorem slot_lt {layout : Layout} {level : Nat} (below : level ≠ 1) (tag : Nat) :
    layout.slot tag level < layout.fanout := by
  rw [slot, if_neg below]
  exact Nat.mod_lt _ layout.fanout_pos

/-- A selector whose bits lie in the word is a digit of the address. -/
theorem selector_eq_mod {layout : Layout} (branching_eq : layout.branching = .ok layout.fanout)
    (address : Address) {level : Nat} (below : 2 ≤ level) (level_le : level ≤ layout.depth)
    (level_lt : level < 2 ^ 32) (inSpan : layout.branchBits * (level - 1) ≤ layout.spanBits)
    (inWord : layout.spanBits - layout.branchBits * (level - 1) < 64 ∧ layout.spanBits < 2 ^ 32) :
    layout.selector address level =
      .ok (address.toNat / 2 ^ (layout.spanBits - layout.branchBits * (level - 1)) %
        layout.fanout) := by
  have tables : Word.sub (level % 2 ^ 32) 1 = .ok (level - 1) := by
    rw [Nat.mod_eq_of_lt level_lt]
    exact Word.sub_eq_ok_iff.mpr ⟨by omega, rfl⟩
  have above : Word.mul 32 layout.branchBits (level - 1) =
      .ok (layout.branchBits * (level - 1)) :=
    Word.mul_eq_ok_iff.mpr ⟨by omega, rfl⟩
  have rest : Word.sub layout.spanBits (layout.branchBits * (level - 1)) =
      .ok (layout.spanBits - layout.branchBits * (level - 1)) :=
    Word.sub_eq_ok_iff.mpr ⟨inSpan, rfl⟩
  rw [selector, if_pos ⟨below, level_le⟩, tables, ok_bind, above, ok_bind, rest, ok_bind,
    Word.shiftRight_eq_ok_iff.mpr ⟨inWord.1, rfl⟩, ok_bind, branching_eq, ok_bind]
  rfl

/-- The slots down to a level are the leading digits of the tag. -/
theorem leading_digits_of_slots_eq {layout : Layout} {first second level : Nat}
    (level_pos : 1 ≤ level) (level_le : level ≤ layout.depth)
    (same : layout.slots first level = layout.slots second level) :
    first / layout.fanout ^ (layout.depth - level) =
      second / layout.fanout ^ (layout.depth - level) := by
  induction level with
  | zero => omega
  | succ level ih =>
    rw [slots, slots, List.cons.injEq] at same
    obtain ⟨digit, above⟩ := same
    by_cases isTop : level = 0
    · subst isTop
      simpa only [slot, zero_add, if_true] using digit
    · have leading := ih (by omega) (by omega) above
      have step : layout.depth - level = layout.depth - (level + 1) + 1 := by omega
      rw [step, pow_succ, ← Nat.div_div_eq_div_mul, ← Nat.div_div_eq_div_mul] at leading
      rw [slot, slot, if_neg (by omega), if_neg (by omega)] at digit
      rw [← Nat.div_add_mod (first / layout.fanout ^ (layout.depth - (level + 1))) layout.fanout,
        ← Nat.div_add_mod (second / layout.fanout ^ (layout.depth - (level + 1))) layout.fanout,
        leading, digit]

namespace Regular

variable {layout : Layout} (regular : layout.Regular)
include regular

theorem slots_injective {first second : Nat}
    (same : layout.slots first layout.depth = layout.slots second layout.depth) :
    first = second := by
  have digits := leading_digits_of_slots_eq regular.depth_pos le_rfl same
  simpa using digits

theorem blockSize_eq : layout.blockSize = .ok layout.blockBytes := by
  have bound := regular.blockBits_lt
  refine Word.shiftLeft_eq_ok_iff.mpr ⟨by omega, ?_⟩
  rw [one_mul, blockBytes, Nat.mod_eq_of_lt (Nat.pow_lt_pow_right (by omega) (by omega))]

theorem branching_eq : layout.branching = .ok layout.fanout := by
  have bound := regular.blockBits_lt
  have half := regular.branchBits_succ
  refine Word.shiftLeft_eq_ok_iff.mpr ⟨by omega, ?_⟩
  rw [one_mul, fanout, Nat.mod_eq_of_lt (Nat.pow_lt_pow_right (by omega) (by omega))]

theorem tag_eq (address : Address) : layout.tag address = .ok (layout.blockOf address) := by
  have bound := regular.blockBits_lt
  exact Word.shiftRight_eq_ok_iff.mpr ⟨by omega, rfl⟩

theorem offset_eq (address : Address) : layout.offset address = .ok (layout.placeOf address) := by
  rw [offset, regular.blockSize_eq]
  rfl

/-- What lies above a level of an address is what lies above it in the tag. -/
theorem above_level (address : Address) {level : Nat} (level_pos : 1 ≤ level)
    (level_le : level ≤ layout.depth) :
    address.toNat / 2 ^ (layout.spanBits - layout.branchBits * (level - 1)) =
      layout.blockOf address / layout.fanout ^ (layout.depth - level) := by
  have split : layout.branchBits * (layout.depth - 1) =
      layout.branchBits * (layout.depth - level) + layout.branchBits * (level - 1) := by
    rw [← Nat.mul_add]
    congr 1
    omega
  have amount : layout.spanBits - layout.branchBits * (level - 1) =
      layout.blockBits + layout.branchBits * (layout.depth - level) := by
    rw [regular.spanBits_eq, split]
    omega
  rw [amount, pow_add, pow_mul, ← Nat.div_div_eq_div_mul]
  rfl

theorem topIndex_eq (address : Address) :
    layout.topIndex address = .ok (layout.slot (layout.blockOf address) 1) := by
  refine Word.shiftRight_eq_ok_iff.mpr ⟨regular.spanBits_lt, ?_⟩
  have above := regular.above_level address le_rfl regular.depth_pos
  rw [Nat.sub_self, Nat.mul_zero, Nat.sub_zero] at above
  rw [slot, if_pos rfl, above]

theorem selector_eq (address : Address) {level : Nat} (below : 2 ≤ level)
    (level_le : level ≤ layout.depth) :
    layout.selector address level = .ok (layout.slot (layout.blockOf address) level) := by
  have depth_lt := regular.depth_lt
  have span_lt := regular.spanBits_lt
  have inSpan : layout.branchBits * (level - 1) ≤ layout.spanBits := by
    have fewer : layout.branchBits * (level - 1) ≤ layout.branchBits * (layout.depth - 1) :=
      Nat.mul_le_mul_left _ (by omega)
    rw [regular.spanBits_eq]
    omega
  rw [selector_eq_mod regular.branching_eq address below level_le (by omega) inSpan (by omega),
    slot, if_neg (by omega), regular.above_level address (by omega) level_le]

end Regular

end Layout

namespace Config

/-- What the checks of a configuration establish, with the sizes they derive. -/
structure Accepted (config : Config) (capacity spanBits : Nat) : Prop where
  blockSize_ge : 4 ≤ config.blockSize.toNat
  blockSize_eq : config.blockSize.toNat = 2 ^ config.blockBits
  levels_pos : 1 ≤ config.levels.toNat
  capacity_eq : config.capacity = .ok capacity
  levels_lt : config.levels.toNat < capacity
  attempts_pos : 0 < config.maxAttempts.toNat
  fastPathSize_pos : 0 < config.fastPathSize.toNat
  maxReference_pos : 0 < config.maxReference.toNat
  addressBits_le : config.addressBits.toNat ≤ 64
  spanBits_eq : config.spanBits = .ok spanBits
  spanBits_le : spanBits ≤ config.addressBits.toNat
  topBits_le : config.addressBits.toNat - spanBits ≤ maxTopBits

theorem accepted_of_ensureValid {config : Config} (valid : config.ensureValid = .ok ()) :
    ∃ capacity spanBits, config.Accepted capacity spanBits := by
  simp only [ensureValid, bind_eq_ok_iff, require_eq_ok_iff, Bool.and_eq_true, decide_eq_true_eq,
    exists_const] at valid
  obtain ⟨⟨blockSize_ge, power⟩, levels_pos, capacity, capacity_eq, levels_lt, attempts_pos,
    fastPathSize_pos, maxReference_pos, addressBits_le, spanBits, spanBits_eq, spanBits_le,
    topBits_le⟩ := valid
  exact ⟨capacity, spanBits, {
    blockSize_ge, levels_pos, capacity_eq, levels_lt, attempts_pos, fastPathSize_pos,
    maxReference_pos, addressBits_le, spanBits_eq, spanBits_le, topBits_le
    blockSize_eq := Word.eq_two_pow_of_isPowerOfTwo power }⟩

/-- The configurations whose layout is regular and whose fast path can count its records. -/
structure Usable (config : Config) : Prop where
  valid : config.ensureValid = .ok ()
  span : ∃ spanBits, config.spanBits = .ok spanBits ∧ spanBits < 64
  levels_lt : config.levels.toNat < 2 ^ 32
  fastPathSize_lt : config.fastPathSize.toNat < 2 ^ 63

namespace Accepted

variable {config : Config} {capacity spanBits : Nat} (accepted : config.Accepted capacity spanBits)
include accepted

theorem capacity_eq_div : capacity = config.size.toNat / config.blockSize.toNat :=
  (Word.div_eq_ok_iff.mp accepted.capacity_eq).2

theorem blockBits_ge : 2 ≤ config.blockBits := by
  have large := accepted.blockSize_ge
  rw [accepted.blockSize_eq] at large
  by_contra small
  have bound : 2 ^ config.blockBits ≤ 2 ^ 1 := Nat.pow_le_pow_right (by omega) (by omega)
  omega

/-- Two blocks fit the cache, so a block is at most half of what a word can count. -/
theorem blockBits_lt : config.blockBits < 63 := by
  have capacity_eq := accepted.capacity_eq_div
  have levels_pos := accepted.levels_pos
  have levels_lt := accepted.levels_lt
  have positive : 0 < config.blockSize.toNat := by
    have large := accepted.blockSize_ge
    omega
  have twice : 2 * config.blockSize.toNat ≤ config.size.toNat :=
    (Nat.le_div_iff_mul_le positive).mp (by omega)
  have bounded := config.size.toNat_lt
  rw [accepted.blockSize_eq] at twice
  by_contra large
  have bound : 2 ^ 63 ≤ 2 ^ config.blockBits := Nat.pow_le_pow_right (by omega) (by omega)
  omega

theorem branchBits_succ : config.branchBits + 1 = config.blockBits := by
  have lower := accepted.blockBits_ge
  have upper := accepted.blockBits_lt
  have half : config.branching = 2 ^ (config.blockBits - 1) := by
    rw [branching, accepted.blockSize_eq]
    obtain ⟨bits, bits_eq⟩ : ∃ bits, config.blockBits = bits + 1 := ⟨config.blockBits - 1, by omega⟩
    rw [bits_eq, pow_succ, Nat.mul_div_cancel _ (by omega), Nat.add_sub_cancel]
  rw [branchBits, half, Word.trailingZeros_two_pow (by omega)]
  omega

theorem branching_eq : config.branching = 2 ^ config.branchBits := by
  rw [branching, accepted.blockSize_eq, ← accepted.branchBits_succ, pow_succ,
    Nat.mul_div_cancel _ (by omega)]

theorem spanBits_eq_mul (levels_lt : config.levels.toNat < 2 ^ 32) :
    spanBits = config.blockBits + config.branchBits * (config.levels.toNat - 1) := by
  have span := accepted.spanBits_eq
  rw [Config.spanBits, Nat.mod_eq_of_lt levels_lt] at span
  simp only [bind_eq_ok_iff, Word.sub_eq_ok_iff, Word.mul_eq_ok_iff, Word.add_eq_ok_iff] at span
  obtain ⟨_, ⟨_, rfl⟩, _, ⟨_, rfl⟩, _, span⟩ := span
  exact span

theorem topEntries_eq :
    config.topEntries = .ok (2 ^ (config.addressBits.toNat - spanBits)) := by
  have few := accepted.topBits_le
  rw [maxTopBits] at few
  have bits : Word.sub config.addressBits.toNat spanBits =
      .ok (config.addressBits.toNat - spanBits) :=
    Word.sub_eq_ok_iff.mpr ⟨accepted.spanBits_le, rfl⟩
  rw [topEntries, accepted.spanBits_eq, ok_bind, bits, ok_bind]
  refine Word.shiftLeft_eq_ok_iff.mpr ⟨by omega, ?_⟩
  rw [one_mul, Nat.mod_eq_of_lt (Nat.pow_lt_pow_right (by omega) (by omega))]

end Accepted

end Config

namespace Layout

variable {config : Config} {layout : Layout} {capacity spanBits : Nat}

theorem ofConfig_eq_ok_iff (accepted : config.Accepted capacity spanBits) :
    ofConfig config = .ok layout ↔
      layout = {
        depth := config.levels.toNat
        blockBits := config.blockBits
        branchBits := config.branchBits
        spanBits
        limit := config.addressLimit } := by
  rw [ofConfig, accepted.spanBits_eq, ok_bind, pure_eq_ok, Except.ok.injEq, eq_comm]

theorem contains_iff_lt (accepted : config.Accepted capacity spanBits)
    (made : ofConfig config = .ok layout) (address : Address) :
    layout.contains address = true ↔ address.toNat < 2 ^ config.addressBits.toNat := by
  have narrow := accepted.addressBits_le
  have bounded := address.toNat_lt
  have limit_eq : layout.limit = config.addressLimit := by
    rw [(ofConfig_eq_ok_iff accepted).mp made]
  rw [contains, limit_eq, Config.addressLimit]
  by_cases below : config.addressBits.toNat < 64
  · have small : 2 ^ config.addressBits.toNat ≤ 2 ^ 63 :=
      Nat.pow_le_pow_right (by omega) (by omega)
    simp only [if_pos below, Word.max64, Bool.or_eq_true, decide_eq_true_eq]
    omega
  · have width : config.addressBits.toNat = 64 := by omega
    rw [if_neg below, width]
    simp only [decide_true, Bool.true_or, true_iff]
    exact bounded

theorem regular_of_ofConfig (accepted : config.Accepted capacity spanBits)
    (made : ofConfig config = .ok layout) (spanBits_lt : spanBits < 64)
    (levels_lt : config.levels.toNat < 2 ^ 32) : layout.Regular := by
  rw [(ofConfig_eq_ok_iff accepted).mp made]
  exact {
    depth_pos := accepted.levels_pos
    depth_lt := levels_lt
    blockBits_ge := accepted.blockBits_ge
    blockBits_lt := accepted.blockBits_lt
    branchBits_succ := accepted.branchBits_succ
    spanBits_eq := accepted.spanBits_eq_mul levels_lt
    spanBits_lt := spanBits_lt }

/-- The address space is what the slots of the top index cover. -/
theorem contains_iff_slot_lt (accepted : config.Accepted capacity spanBits)
    (made : ofConfig config = .ok layout) (regular : layout.Regular) (address : Address) :
    layout.contains address = true ↔
      layout.slot (layout.blockOf address) 1 < 2 ^ (config.addressBits.toNat - spanBits) := by
  have above := regular.above_level address le_rfl regular.depth_pos
  rw [Nat.sub_self, Nat.mul_zero, Nat.sub_zero] at above
  have width : layout.spanBits = spanBits := by
    rw [(ofConfig_eq_ok_iff accepted).mp made]
  have total : 2 ^ config.addressBits.toNat =
      2 ^ (config.addressBits.toNat - spanBits) * 2 ^ spanBits := by
    rw [← pow_add, Nat.sub_add_cancel accepted.spanBits_le]
  rw [contains_iff_lt accepted made, slot, if_pos rfl, ← above, width,
    Nat.div_lt_iff_lt_mul (Nat.two_pow_pos _), total]

end Layout

end TrieCache
