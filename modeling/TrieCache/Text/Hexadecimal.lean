import TrieCache.Power

/-!
# Hexadecimal numerals

Writing a number with lower-case hexadecimal digits, and reading one back within a
64-bit word.  Reading goes digit by digit from the left and stops at the first
character that is no digit or that makes the value too large, so the reported
problem is always the leftmost one.
-/

namespace TrieCache.Hexadecimal

/-- The digit of a value below sixteen, in lower case. -/
def digitChar (digit : Nat) : Char :=
  if digit < 10 then Char.ofNat (48 + digit) else Char.ofNat (87 + digit)

/-- The digits of a number, most significant first, without leading zeros. -/
def digits (number : Nat) : List Char :=
  if number < 16 then [digitChar number]
  else digits (number / 16) ++ [digitChar (number % 16)]
termination_by number
decreasing_by omega

/-- A number with the conventional `0x` in front. -/
def literal (number : Nat) : String :=
  "0x" ++ String.ofList (digits number)

def byteDigits (byte : UInt8) : List Char :=
  [digitChar (byte.toNat / 16), digitChar (byte.toNat % 16)]

/-- The value of a hexadecimal digit in either case. -/
def digitValue? (char : Char) : Option Nat :=
  let code := char.toNat
  if 48 ≤ code ∧ code ≤ 57 then some (code - 48)
  else if 97 ≤ code ∧ code ≤ 102 then some (code - 87)
  else if 65 ≤ code ∧ code ≤ 70 then some (code - 55)
  else none

/-- Why a text is not the numeral of a 64-bit word. -/
inductive ReadError
  | empty
  /-- A character is not a digit, or a sign stands alone. -/
  | invalidDigit
  | tooLarge
  deriving DecidableEq, Repr

def ReadError.message : ReadError → String
  | .empty => "cannot parse integer from empty string"
  | .invalidDigit => "invalid digit found in string"
  | .tooLarge => "number too large to fit in target type"

/-- Read digits onto the value of the digits before them. -/
def readDigits : Nat → List Char → Except ReadError Nat
  | value, [] => .ok value
  | value, char :: rest =>
    match digitValue? char with
    | none => .error .invalidDigit
    | some digit =>
      if 16 * value + digit < 2 ^ (64 : Nat) then readDigits (16 * value + digit) rest
      else .error .tooLarge

/-- Read a 64-bit word: an optional plus sign, then at least one digit. -/
def read : List Char → Except ReadError Nat
  | [] => .error .empty
  | ['+'] => .error .invalidDigit
  | '+' :: rest => readDigits 0 rest
  | chars => readDigits 0 chars

end TrieCache.Hexadecimal
