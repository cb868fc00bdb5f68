import TrieCache.Fault

/-!
# Room for lists

A list needs room for all its items at once.  A list of `2 ^ 63` bytes or more is beyond
the reach of a signed word and is a fault, whatever memory there is.  Every shorter list
has its room.  Lists that grow item by item are not checked on the way: where their growth
matters, it is bounded.
-/

namespace TrieCache

/-- Refuse a list of items of so many bytes each that together have no room. -/
def requireRoom (itemBytes count : Nat) : Checked Unit :=
  require (decide (itemBytes * count < 2 ^ (63 : Nat))) .noRoom

theorem requireRoom_eq_ok_iff {itemBytes count : Nat} :
    requireRoom itemBytes count = .ok () ↔ itemBytes * count < 2 ^ (63 : Nat) := by
  simp [requireRoom]

theorem requireRoom_of_crowd {itemBytes count : Nat} (crowd : 2 ^ (63 : Nat) ≤ itemBytes * count) :
    requireRoom itemBytes count = .error .noRoom :=
  if_neg (by simpa using crowd)

/-- A list of copies of an item that takes so many bytes. -/
def allocate {α : Type} (itemBytes count : Nat) (item : α) : Checked (Array α) := do
  requireRoom itemBytes count
  return Array.replicate count item

theorem allocate_eq_ok_iff {α : Type} {itemBytes count : Nat} {item : α} {items : Array α} :
    allocate itemBytes count item = .ok items ↔
      itemBytes * count < 2 ^ (63 : Nat) ∧ items = Array.replicate count item := by
  by_cases room : itemBytes * count < 2 ^ (63 : Nat)
  · have enough := requireRoom_eq_ok_iff.mpr room
    simp only [allocate, enough, bind, Except.bind, pure, Except.pure, Except.ok.injEq]
    exact ⟨fun made => ⟨room, made.symm⟩, fun made => made.2.symm⟩
  · have short := requireRoom_of_crowd (Nat.le_of_not_lt room)
    simp only [allocate, short, bind, Except.bind]
    exact ⟨nofun, fun made => absurd made.1 room⟩

theorem allocate_of_crowd {α : Type} {itemBytes count : Nat}
    (crowd : 2 ^ (63 : Nat) ≤ itemBytes * count) (item : α) :
    allocate itemBytes count item = .error .noRoom := by
  rw [allocate, requireRoom_of_crowd crowd]
  rfl

end TrieCache
