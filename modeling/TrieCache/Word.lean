import TrieCache.Fault

/-!
# Checked machine words

Arithmetic on numbers that must fit a word of a given width.  Every operation
either has its exact value or is the fault that says why it has none; only a left
shift drops the bits it moves out of the word.
-/

namespace TrieCache.Word

/-- The largest 64-bit word. -/
def max64 : Nat := 2 ^ (64 : Nat) - 1

/-- Sum within `width` bits. -/
def add (width left right : Nat) : Checked Nat :=
  if left + right < 2 ^ width then .ok (left + right) else .error .addOverflow

def sub (left right : Nat) : Checked Nat :=
  if right ≤ left then .ok (left - right) else .error .subtractOverflow

/-- Product within `width` bits. -/
def mul (width left right : Nat) : Checked Nat :=
  if left * right < 2 ^ width then .ok (left * right) else .error .multiplyOverflow

def div (left right : Nat) : Checked Nat :=
  if right = 0 then .error .divideByZero else .ok (left / right)

def rem (left right : Nat) : Checked Nat :=
  if right = 0 then .error .remainderByZero else .ok (left % right)

def shiftLeft (value amount : Nat) : Checked Nat :=
  if amount < 64 then .ok (value * 2 ^ amount % 2 ^ (64 : Nat)) else .error .shiftLeftOverflow

def shiftRight (value amount : Nat) : Checked Nat :=
  if amount < 64 then .ok (value / 2 ^ amount) else .error .shiftRightOverflow

/-- Sum that stays at the largest 64-bit word once it gets there. -/
def saturatingAdd (left right : Nat) : Nat :=
  min (left + right) max64

theorem add_eq_ok_iff {width left right sum : Nat} :
    add width left right = .ok sum ↔ left + right < 2 ^ width ∧ sum = left + right := by
  unfold add
  split
  next fits => simp [fits, eq_comm]
  next fits => simp [fits]

theorem sub_eq_ok_iff {left right difference : Nat} :
    sub left right = .ok difference ↔ right ≤ left ∧ difference = left - right := by
  unfold sub
  split
  next fits => simp [fits, eq_comm]
  next fits => simp [fits]

theorem mul_eq_ok_iff {width left right product : Nat} :
    mul width left right = .ok product ↔
      left * right < 2 ^ width ∧ product = left * right := by
  unfold mul
  split
  next fits => simp [fits, eq_comm]
  next fits => simp [fits]

theorem div_eq_ok_iff {left right quotient : Nat} :
    div left right = .ok quotient ↔ right ≠ 0 ∧ quotient = left / right := by
  unfold div
  split
  next zero => simp [zero]
  next zero => simp [zero, eq_comm]

theorem rem_eq_ok_iff {left right remainder : Nat} :
    rem left right = .ok remainder ↔ right ≠ 0 ∧ remainder = left % right := by
  unfold rem
  split
  next zero => simp [zero]
  next zero => simp [zero, eq_comm]

theorem shiftLeft_eq_ok_iff {value amount shifted : Nat} :
    shiftLeft value amount = .ok shifted ↔
      amount < 64 ∧ shifted = value * 2 ^ amount % 2 ^ (64 : Nat) := by
  unfold shiftLeft
  split
  next fits => simp [fits, eq_comm]
  next fits => simp [fits]

theorem shiftRight_eq_ok_iff {value amount shifted : Nat} :
    shiftRight value amount = .ok shifted ↔ amount < 64 ∧ shifted = value / 2 ^ amount := by
  unfold shiftRight
  split
  next fits => simp [fits, eq_comm]
  next fits => simp [fits]

/-- The number of zero bits below the lowest one bit, at most `width`. -/
def trailingZeros : (width : Nat) → (value : Nat) → Nat
  | 0, _ => 0
  | width + 1, value => if value % 2 = 1 then 0 else trailingZeros width (value / 2) + 1

/-- Whether a number has exactly one bit set within `width` bits. -/
def isPowerOfTwo (width value : Nat) : Bool :=
  decide (value ≠ 0) && decide (value = 2 ^ trailingZeros width value)

end TrieCache.Word
