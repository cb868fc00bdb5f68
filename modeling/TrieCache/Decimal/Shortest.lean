import TrieCache.Decimal.Binary64

/-!
# Shortest decimals

A binary fraction stands for every real number that rounds to it.  It is written as the
decimal with the fewest digits among those, and of several with as few digits as the one
nearest to the fraction itself.

Numbers from a hundred-thousandth up to ten to the sixteenth are written with a point and
at least one digit on each side of it, all others with an exponent.
-/

namespace TrieCache

/-- The number `coefficient * 10 ^ exponent`. -/
structure Decimal where
  coefficient : Nat
  exponent : Int
  deriving DecidableEq, Repr

namespace Decimal

/-- Four times the lower end, the middle and the upper end of the numbers that round to a
binary fraction, in units of its last bit.  The bits are twice as fine below a power of
two. -/
def quarters (value : Binary64) : Nat × Nat × Nat :=
  let middle := 4 * value.significand
  (if value.significand = 2 ^ (Binary64.precision - 1) then middle - 1 else middle - 2,
    middle, middle + 2)

/-- Whether a decimal rounds to a binary fraction, and four times its distance from the
fraction, in units that depend only on the fraction and the exponent of the decimal. -/
def distance? (value : Binary64) (decimal : Decimal) : Option Nat :=
  let (low, middle, high) := quarters value
  let twos := 2 ^ value.exponent.toNat * 10 ^ (-decimal.exponent).toNat
  let tens := 10 ^ decimal.exponent.toNat * 2 ^ (-value.exponent).toNat
  let point := 4 * decimal.coefficient * tens
  let inside :=
    if value.significand % 2 = 0 then low * twos ≤ point ∧ point ≤ high * twos
    else low * twos < point ∧ point < high * twos
  if inside then some (max point (middle * twos) - min point (middle * twos)) else none

/-- A binary fraction divided by a power of ten and rounded down. -/
def floorAt (value : Binary64) (exponent : Int) : Nat :=
  value.significand * 2 ^ value.exponent.toNat * 10 ^ (-exponent).toNat /
    (10 ^ exponent.toNat * 2 ^ (-value.exponent).toNat)

/-- The nearest decimal with an exponent, if one rounds to the binary fraction. -/
def nearest? (value : Binary64) (exponent : Int) : Option Decimal :=
  let below : Decimal := ⟨floorAt value exponent, exponent⟩
  let above : Decimal := ⟨below.coefficient + 1, exponent⟩
  match distance? value below, distance? value above with
  | some left, some right =>
    if left < right ∨ (left = right ∧ below.coefficient % 2 = 0) then some below else some above
  | some _, none => some below
  | none, some _ => some above
  | none, none => none

/-- The nearest decimal with the largest exponent, from a given one down, that has one. -/
def search (value : Binary64) : (exponent : Int) → (steps : Nat) → Decimal
  | exponent, 0 => ⟨floorAt value exponent, exponent⟩
  | exponent, steps + 1 =>
    match nearest? value exponent with
    | some decimal => decimal
    | none => search value (exponent - 1) steps

/-- The shortest decimal of a binary fraction.  The search starts at a power of ten above
the fraction, and seventeen digits are always enough. -/
def shortest (value : Binary64) : Decimal :=
  let bits := value.exponent + Binary64.precision
  let start := if 0 ≤ bits then (bits.toNat / 3 : Int) + 1 else -((-bits).toNat / 4 : Int) + 1
  search value start (bits.natAbs + 20)

def digits (decimal : Decimal) : List Char :=
  Nat.toDigits 10 decimal.coefficient

def text (decimal : Decimal) : String :=
  let digits := decimal.digits
  let zeros := fun count : Int => List.replicate count.toNat '0'
  let point : Int := digits.length + decimal.exponent
  String.ofList <|
    if 0 ≤ decimal.exponent ∧ point ≤ 16 then digits ++ zeros decimal.exponent ++ ['.', '0']
    else if 0 < point ∧ point ≤ 16 then
      digits.take point.toNat ++ '.' :: digits.drop point.toNat
    else if -5 < point ∧ point ≤ 0 then '0' :: '.' :: (zeros (-point) ++ digits)
    else
      let fraction := digits.drop 1
      digits.take 1 ++ (if fraction.isEmpty then [] else '.' :: fraction)
        ++ 'e' :: (toString (point - 1)).toList

def zeroText : String := "0.0"

end Decimal

end TrieCache
