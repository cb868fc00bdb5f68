import TrieCache.Power

/-!
# Binary fractions of 53 bits

Positive numbers of the form `significand * 2 ^ exponent` with a significand of exactly
53 bits, and the rounding of a quotient of natural numbers to the nearest of them.  Of
two that are equally near, the one with the even significand is taken.
-/

namespace TrieCache

/-- A positive number `significand * 2 ^ exponent`. -/
structure Binary64 where
  significand : Nat
  exponent : Int
  deriving DecidableEq, Repr

/-- A quotient rounded to the nearest natural number, a half to the even one. -/
def roundQuotient (left right : Nat) : Nat :=
  let quotient := left / right
  let twice := 2 * (left % right)
  if right < twice ∨ (right = twice ∧ quotient % 2 = 1) then quotient + 1 else quotient

/-- A quotient of positive numbers divided by a power of two, as a fraction. -/
def unscale (left right : Nat) (exponent : Int) : Nat × Nat :=
  (left * 2 ^ (-exponent).toNat, right * 2 ^ exponent.toNat)

namespace Binary64

/-- Bits of a significand. -/
def precision : Nat := 53

/-- The exponent under which a quotient of positive numbers has 53 bits before the
point. -/
def exponentOf (left right : Nat) : Int :=
  let guess : Int := (left.log2 : Int) - right.log2 - precision
  let (numerator, denominator) := unscale left right guess
  if numerator < denominator * 2 ^ precision then guess else guess + 1

def ofQuotient (left right : Nat) : Binary64 :=
  let exponent := exponentOf left right
  let (numerator, denominator) := unscale left right exponent
  let significand := roundQuotient numerator denominator
  if significand = 2 ^ precision then
    { significand := 2 ^ (precision - 1), exponent := exponent + 1 }
  else
    { significand, exponent }

def ofNat (number : Nat) : Binary64 :=
  ofQuotient number 1

def div (left right : Binary64) : Binary64 :=
  let (numerator, denominator) :=
    unscale left.significand right.significand (right.exponent - left.exponent)
  ofQuotient numerator denominator

end Binary64

end TrieCache
