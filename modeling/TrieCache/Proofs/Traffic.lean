import Mathlib.Algebra.Group.Nat.Defs
import TrieCache.Proofs.Outcome
import TrieCache.Traffic

/-!
# Synthetic traffic

As many addresses are drawn as were asked for, all of them from the range, wherever the range
fits the word.  Only the list of them may have no room.
-/

namespace TrieCache.Traffic

variable {traffic : Traffic} (source : Source)

def Covers (traffic : Traffic) (address : Address) : Prop :=
  ∃ offset < traffic.range, address.toNat = traffic.base.toNat + offset

/-- The range ends within the word. -/
def Fits (traffic : Traffic) : Prop :=
  ∀ offset < traffic.range, traffic.base.toNat + offset < 2 ^ 64

theorem range_pos (traffic : Traffic) : 0 < traffic.range := by
  unfold range
  omega

theorem draw_spec (fits : traffic.Fits) (drawn : List Address) (count : Nat)
    (state : source.State) :
    ∃ addresses, traffic.draw source drawn count state = .ok (drawn.reverse ++ addresses) ∧
      addresses.length = count ∧ ∀ address ∈ addresses, traffic.Covers address := by
  induction count generalizing drawn state with
  | zero => exact ⟨[], by rw [draw, List.append_nil], rfl, nofun⟩
  | succ count ih =>
    cases drew : source.below traffic.range state with
    | mk offset state' =>
      have offset_lt : offset < traffic.range := by
        have below := source.below_lt traffic.range_pos state
        rwa [drew] at below
      have sum : Word.add 64 traffic.base.toNat offset = .ok (traffic.base.toNat + offset) :=
        Word.add_eq_ok_iff.mpr ⟨fits offset offset_lt, rfl⟩
      obtain ⟨addresses, draws, length_eq, covers⟩ :=
        ih (UInt64.ofNat (traffic.base.toNat + offset) :: drawn) state'
      refine ⟨UInt64.ofNat (traffic.base.toNat + offset) :: addresses, ?_, ?_, ?_⟩
      · rw [draw, drew]
        dsimp only
        rw [sum, ok_bind, draws, List.reverse_cons, List.append_assoc, List.singleton_append]
      · rw [List.length_cons, length_eq]
      · intro address member
        rcases List.mem_cons.mp member with rfl | member
        · exact ⟨offset, offset_lt, UInt64.toNat_ofNat_of_lt' (fits offset offset_lt)⟩
        · exact covers address member

theorem generate_of_room (fits : traffic.Fits) (room : 8 * traffic.length < 2 ^ 63) :
    ∃ addresses, traffic.generate source = .ok addresses ∧ addresses.length = traffic.length ∧
      ∀ address ∈ addresses, traffic.Covers address := by
  obtain ⟨addresses, draws, length_eq, covers⟩ :=
    draw_spec source fits [] traffic.length (source.ofSeed traffic.seed)
  refine ⟨addresses, ?_, length_eq, covers⟩
  rw [generate, requireRoom_eq_ok_iff.mpr room, ok_bind, draws]
  rfl

theorem generate_of_crowd (crowd : 2 ^ 63 ≤ 8 * traffic.length) :
    traffic.generate source = .error .noRoom := by
  rw [generate, requireRoom_of_crowd crowd, error_bind]

end TrieCache.Traffic
