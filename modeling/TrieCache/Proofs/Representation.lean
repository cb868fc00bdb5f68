import TrieCache.Proofs.Geometry

/-!
# What the checks of a configuration leave to the address arithmetic

The checks bound the span of a top entry by the width of an address, and the width of
an address by the word.  An accepted span may therefore be as wide as the word, by which
no word can be shifted, and the levels are counted in 32 bits before they are checked.
An accepted configuration always has its top index, its layout and the block of every
address; the rest of the address arithmetic is there exactly when the span is narrower
than the word and the levels fit their count.
-/

namespace TrieCache

namespace Layout

/-- An address is the first address of its block and a place within the block. -/
def FindsByte (layout : Layout) (blockSize : Nat) (address : Address) : Prop :=
  ∃ tag base place, layout.tag address = .ok tag ∧ layout.blockAddress tag = .ok base ∧
    layout.offset address = .ok place ∧ place < blockSize ∧ base + place = address.toNat

/-- The top index of an address is one of the top entries. -/
def FindsTop (layout : Layout) (entries : Nat) (address : Address) : Prop :=
  ∃ top, layout.topIndex address = .ok top ∧ top < entries

/-- Every selector of an address is one of the child slots of a table. -/
def FindsChildren (layout : Layout) (branching : Nat) (address : Address) : Prop :=
  ∀ level, 2 ≤ level → level ≤ layout.depth →
    ∃ child, layout.selector address level = .ok child ∧ child < branching

theorem findsByte {layout : Layout} (blockBits_lt : layout.blockBits < 64) (address : Address) :
    layout.FindsByte layout.blockBytes address := by
  have bounded := address.toNat_lt
  have size_eq : layout.blockSize = .ok layout.blockBytes := by
    refine Word.shiftLeft_eq_ok_iff.mpr ⟨blockBits_lt, ?_⟩
    rw [one_mul, blockBytes, Nat.mod_eq_of_lt (Nat.pow_lt_pow_right (by omega) blockBits_lt)]
  have whole := Nat.div_add_mod' address.toNat layout.blockBytes
  refine ⟨layout.blockOf address, layout.blockOf address * layout.blockBytes,
    layout.placeOf address, Word.shiftRight_eq_ok_iff.mpr ⟨blockBits_lt, rfl⟩,
    Word.shiftLeft_eq_ok_iff.mpr ⟨blockBits_lt, (Nat.mod_eq_of_lt ?_).symm⟩, ?_,
    layout.placeOf_lt address, whole⟩
  · exact (Nat.div_mul_le_self _ _).trans_lt bounded
  · rw [offset, size_eq]
    rfl

/-- At level `2 ^ 32` the 32-bit count of the levels above wraps to zero, and one less
than that is no count. -/
theorem not_findsChildren_of_deep {layout : Layout} (deep : 2 ^ 32 ≤ layout.depth)
    (branching : Nat) (address : Address) : ¬ layout.FindsChildren branching address := by
  intro found
  obtain ⟨child, child_eq, -⟩ := found (2 ^ 32) (by decide) deep
  have tables : Word.sub (2 ^ 32 % 2 ^ 32) 1 = .error .subtractOverflow := rfl
  rw [selector, if_pos ⟨by decide, deep⟩, tables] at child_eq
  cases child_eq

end Layout

namespace Config

/-- Every step of the address arithmetic has its value, within its range. -/
def Representable (config : Config) : Prop :=
  ∃ span entries layout, config.topSpan = .ok span ∧ config.topEntries = .ok entries ∧
    config.addressLimit ≤ Word.max64 ∧ Layout.ofConfig config = .ok layout ∧
    ∀ address, layout.contains address = true →
      layout.FindsTop entries address ∧ layout.FindsChildren config.branching address ∧
        layout.FindsByte config.blockSize.toNat address

/-- What the address arithmetic of an accepted configuration comes to, step by step. -/
structure Measured (config : Config) (spanBits entries : Nat) (layout : Layout) : Prop where
  spanBits_eq : config.spanBits = .ok spanBits
  topEntries_eq : config.topEntries = .ok entries
  limit_le : config.addressLimit ≤ Word.max64
  layout_eq : Layout.ofConfig config = .ok layout
  depth_eq : layout.depth = config.levels.toNat
  contains_zero : layout.contains 0 = true
  byte (address : Address) : layout.FindsByte config.blockSize.toNat address
  span_iff : (∃ span, config.topSpan = .ok span) ↔ spanBits < 64
  top_iff (address : Address) : layout.contains address = true →
    (layout.FindsTop entries address ↔ spanBits < 64)
  children_iff (address : Address) :
    layout.FindsChildren config.branching address ↔ config.levels.toNat < 2 ^ 32

theorem addressLimit_le (config : Config) : config.addressLimit ≤ Word.max64 := by
  rw [addressLimit, Word.max64]
  split
  next narrow =>
    have below : 2 ^ config.addressBits.toNat < 2 ^ 64 := Nat.pow_lt_pow_right (by omega) narrow
    omega
  next => exact le_rfl

namespace Accepted

variable {config : Config} {capacity spanBits : Nat} (accepted : config.Accepted capacity spanBits)
include accepted

theorem findsTop_iff {layout : Layout} (made : Layout.ofConfig config = .ok layout)
    {address : Address} (inside : layout.contains address = true) :
    layout.FindsTop (2 ^ (config.addressBits.toNat - spanBits)) address ↔ spanBits < 64 := by
  have width : layout.spanBits = spanBits := by
    rw [(Layout.ofConfig_eq_ok_iff accepted).mp made]
  have total : 2 ^ config.addressBits.toNat =
      2 ^ (config.addressBits.toNat - spanBits) * 2 ^ spanBits := by
    rw [← pow_add, Nat.sub_add_cancel accepted.spanBits_le]
  have bounded := (Layout.contains_iff_lt accepted made address).mp inside
  constructor
  · rintro ⟨top, top_eq, -⟩
    exact width ▸ (Word.shiftRight_eq_ok_iff.mp top_eq).1
  · intro narrow
    refine ⟨address.toNat / 2 ^ spanBits, ?_, ?_⟩
    · exact Word.shiftRight_eq_ok_iff.mpr ⟨width ▸ narrow, by rw [width]⟩
    · rw [Nat.div_lt_iff_lt_mul (Nat.two_pow_pos _), ← total]
      exact bounded

theorem findsChildren_iff {layout : Layout} (made : Layout.ofConfig config = .ok layout)
    (address : Address) :
    layout.FindsChildren config.branching address ↔ config.levels.toNat < 2 ^ 32 := by
  have layout_eq := (Layout.ofConfig_eq_ok_iff accepted).mp made
  have depth_eq : layout.depth = config.levels.toNat := by rw [layout_eq]
  have bits_eq : layout.branchBits = config.branchBits := by rw [layout_eq]
  have width : layout.spanBits = spanBits := by rw [layout_eq]
  have blockBits_lt := accepted.blockBits_lt
  have blockBits_ge := accepted.blockBits_ge
  have half := accepted.branchBits_succ
  constructor
  · intro found
    by_contra deep
    exact Layout.not_findsChildren_of_deep (by omega) _ _ found
  · intro shallow level below level_le
    have span_eq := accepted.spanBits_eq_mul shallow
    have span_le := accepted.spanBits_le.trans accepted.addressBits_le
    have branching_eq : layout.branching = .ok layout.fanout := by
      refine Word.shiftLeft_eq_ok_iff.mpr ⟨by omega, ?_⟩
      rw [one_mul, Layout.fanout, Nat.mod_eq_of_lt (Nat.pow_lt_pow_right (by omega) (by omega))]
    have fewer : layout.branchBits * (level - 1) ≤ layout.branchBits * (layout.depth - 1) :=
      Nat.mul_le_mul_left _ (by omega)
    have some : layout.branchBits ≤ layout.branchBits * (level - 1) :=
      Nat.le_mul_of_pos_right _ (by omega)
    rw [bits_eq, depth_eq] at fewer
    refine ⟨_, Layout.selector_eq_mod branching_eq address below level_le (by omega) ?_ ?_, ?_⟩
    · rw [bits_eq, width, span_eq]
      omega
    · rw [width, bits_eq]
      rw [bits_eq] at some
      omega
    · rw [accepted.branching_eq, ← bits_eq]
      exact Nat.mod_lt _ layout.fanout_pos

theorem measured {layout : Layout} (made : Layout.ofConfig config = .ok layout) :
    config.Measured spanBits (2 ^ (config.addressBits.toNat - spanBits)) layout := by
  have layout_eq := (Layout.ofConfig_eq_ok_iff accepted).mp made
  have bits_eq : layout.blockBits = config.blockBits := by rw [layout_eq]
  have blockBits_lt := accepted.blockBits_lt
  have size_eq : layout.blockBytes = config.blockSize.toNat := by
    rw [accepted.blockSize_eq, Layout.blockBytes, bits_eq]
  exact {
    spanBits_eq := accepted.spanBits_eq
    topEntries_eq := accepted.topEntries_eq
    limit_le := config.addressLimit_le
    layout_eq := made
    depth_eq := by rw [layout_eq]
    contains_zero := (Layout.contains_iff_lt accepted made 0).mpr (Nat.two_pow_pos _)
    byte := fun address => size_eq ▸ Layout.findsByte (by omega) address
    span_iff := by
      rw [topSpan, accepted.spanBits_eq, ok_bind]
      constructor
      · rintro ⟨_, span_eq⟩
        exact (Word.shiftLeft_eq_ok_iff.mp span_eq).1
      · intro narrow
        exact ⟨_, Word.shiftLeft_eq_ok_iff.mpr ⟨narrow, rfl⟩⟩
    top_iff := fun _ inside => accepted.findsTop_iff made inside
    children_iff := accepted.findsChildren_iff made }

end Accepted

theorem Measured.representable_iff {config : Config} {spanBits entries : Nat} {layout : Layout}
    (measured : config.Measured spanBits entries layout) :
    config.Representable ↔ spanBits < 64 ∧ config.levels.toNat < 2 ^ 32 := by
  constructor
  · rintro ⟨span, entries', layout', span_eq, -, -, made, fields⟩
    obtain rfl : layout = layout' := Except.ok.inj (measured.layout_eq.symm.trans made)
    obtain ⟨-, children, -⟩ := fields 0 measured.contains_zero
    exact ⟨measured.span_iff.mp ⟨span, span_eq⟩, (measured.children_iff 0).mp children⟩
  · rintro ⟨narrow, shallow⟩
    obtain ⟨span, span_eq⟩ := measured.span_iff.mpr narrow
    exact ⟨span, entries, layout, span_eq, measured.topEntries_eq, measured.limit_le,
      measured.layout_eq, fun address inside =>
        ⟨(measured.top_iff address inside).mpr narrow, (measured.children_iff address).mpr shallow,
          measured.byte address⟩⟩

/-- An accepted configuration has its top index, its layout, the limit of its address space
and the block of every address.  The span of a top entry and the top index of any address
are there when the span is narrower than the word, the selectors when the levels fit their
count, and all of the address arithmetic exactly when both hold. -/
theorem representable_of_ensureValid {config : Config} (valid : config.ensureValid = .ok ()) :
    ∃ spanBits entries layout, config.Measured spanBits entries layout ∧
      (config.Representable ↔ spanBits < 64 ∧ config.levels.toNat < 2 ^ 32) := by
  obtain ⟨capacity, spanBits, accepted⟩ := accepted_of_ensureValid valid
  have measured := accepted.measured ((Layout.ofConfig_eq_ok_iff accepted).mpr rfl)
  exact ⟨_, _, _, measured, measured.representable_iff⟩

/-- The configuration that holds by default is accepted, and its span is narrow. -/
theorem representable_default :
    ({} : Config).ensureValid = .ok () ∧ ∃ spanBits entries layout,
      ({} : Config).Measured spanBits entries layout ∧
        (({} : Config).Representable ↔ spanBits < 64 ∧ ({} : Config).levels.toNat < 2 ^ 32) := by
  have valid : ({} : Config).ensureValid = .ok () := by decide +kernel
  exact ⟨valid, representable_of_ensureValid valid⟩

/-- Sixty-three levels of the smallest blocks: one top entry covers every address of a
64-bit space, and no address has a top index. -/
def wholeSpan : Config :=
  { size := 256, blockSize := 4, levels := 63, addressBits := 64 }

theorem not_representable_of_wholeSpan :
    wholeSpan.ensureValid = .ok () ∧ wholeSpan.topSpan = .error .shiftLeftOverflow ∧
      wholeSpan.topEntries = .ok 1 ∧
      (Layout.ofConfig wholeSpan >>= fun layout => layout.topIndex 0) =
        .error .shiftRightOverflow ∧
      ¬ ∀ config : Config, config.ensureValid = .ok () → config.Representable := by
  have valid : wholeSpan.ensureValid = .ok () := by decide +kernel
  have overflow : wholeSpan.topSpan = .error .shiftLeftOverflow := by decide +kernel
  refine ⟨valid, overflow, by decide +kernel, by decide +kernel, fun all => ?_⟩
  obtain ⟨span, -, -, span_eq, -⟩ := all wholeSpan valid
  rw [overflow] at span_eq
  cases span_eq

/-- Levels beyond what 32 bits count are accepted too. -/
example : ({ size := 17179869192, blockSize := 4, levels := 4294967297, addressBits := 26 } :
    Config).ensureValid = .ok () := by
  decide +kernel

end Config

end TrieCache
