import TrieCache.Text.Hexadecimal
import TrieCache.Toml.Reader
import TrieCache.Toml.Value

/-!
# Numbers

Integers of 64 bits with a sign, in decimal or, without a sign, in hexadecimal, octal or
binary, and floats.  A single underscore may stand between two digits.  A float must not
be too large for a binary fraction of 64 bits, except below zero.
-/

namespace TrieCache.Toml.Reader

/-- Take digits, each of which may have one underscore before it. -/
def digitTail (isDigit : Char → Bool) : List Char → Option (List Char × List Char)
  | [] => some ([], [])
  | ['_'] => none
  | '_' :: digit :: rest =>
    if isDigit digit then
      (digitTail isDigit rest).map fun (digits, rest) => (digit :: digits, rest)
    else none
  | char :: rest =>
    if isDigit char then
      (digitTail isDigit rest).map fun (digits, rest) => (char :: digits, rest)
    else some ([], char :: rest)

def digitRun (isDigit : Char → Bool) : Reader (List Char) := do
  let first ← satisfy isDigit
  return first :: (← digitTail isDigit)

def valueOf (base : Nat) (digits : List Char) : Nat :=
  digits.foldl (fun value digit => base * value + (Hexadecimal.digitValue? digit).getD 0) 0

/-- An integer, if it fits 64 bits with a sign. -/
def integer (negative : Bool) (magnitude : Nat) : Reader Value := do
  ensure (if negative then decide (magnitude ≤ 2 ^ (63 : Nat))
    else decide (magnitude < 2 ^ (63 : Nat)))
  return .integer (if negative then -(magnitude : Int) else magnitude)

/-- Take an integer in another base after its mark. -/
def based (base : Nat) (isDigit : Char → Bool) : Reader Value := do
  integer false (valueOf base (← digitRun isDigit))

def sign : Reader Bool := do
  if ← accept "-" then return true
  else
    let _ ← accept "+"
    return false

/-- Take the digits before a decimal point.  They start with zero only if they are zero. -/
def wholeDigits : Reader (List Char) := do
  if ← accept "0" then return ['0'] else digitRun Char.isDigit

def exponent : Reader (Option Int) := do
  match ← peek with
  | some 'e' | some 'E' =>
    let _ ← next
    let negative ← sign
    let magnitude := valueOf 10 (← digitRun Char.isDigit)
    return some (if negative then -(magnitude : Int) else magnitude)
  | _ => return none

/-- The least number that is nearer to two to the power 1024 than to the largest binary
fraction of 64 bits. -/
def floatLimit : Nat := 2 ^ (1024 : Nat) - 2 ^ (970 : Nat)

/-- Whether `coefficient * 10 ^ exponent` is too large for a float.  Numbers of very many
or very few digits before the point are told by that alone. -/
def overflows (coefficient : Nat) (exponent : Int) : Bool :=
  let digits : Int := (Nat.toDigits 10 coefficient).length + exponent
  if coefficient = 0 ∨ digits < 300 then false
  else if 310 < digits then true
  else decide (floatLimit * 10 ^ (-exponent).toNat ≤ coefficient * 10 ^ exponent.toNat)

def fraction : Reader (Option (List Char)) := do
  if ← accept "." then return some (← digitRun Char.isDigit) else return none

/-- Take what follows the digits before the point of a number. -/
def numberAfter (negative : Bool) (whole : List Char) : Reader Value := do
  let fraction ← fraction
  let power ← exponent
  if fraction.isNone && power.isNone then
    integer negative (valueOf 10 whole)
  else
    let places := fraction.getD []
    let tooLarge := overflows (valueOf 10 (whole ++ places)) (power.getD 0 - places.length)
    ensure (negative || !tooLarge)
    return .float

/-- Take a decimal number, or one of the words for what is no number. -/
def decimal : Reader Value := do
  let negative ← sign
  if ← accept "inf" then return .float
  else if ← accept "nan" then return .float
  else numberAfter negative (← wholeDigits)

def number : Reader Value := do
  if ← accept "0x" then based 16 isHexDigit
  else if ← accept "0o" then based 8 fun char => '0' ≤ char && char ≤ '7'
  else if ← accept "0b" then based 2 fun char => char == '0' || char == '1'
  else decimal

end TrieCache.Toml.Reader
