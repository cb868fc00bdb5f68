import TrieCache.Toml.Number

/-!
# Dates and times

A date, a time of day, or a date with a time and perhaps an offset from universal time.
The parts have fixed widths and must be in the calendar.
-/

namespace TrieCache.Toml

namespace Reader

/-- Take a number of fixed width that is within bounds. -/
def part (width least greatest : Nat) : Reader Nat := do
  let value := valueOf 10 (← exactly Char.isDigit width)
  ensure (decide (least ≤ value) && decide (value ≤ greatest))
  return value

def daysOf (year month : Nat) : Nat :=
  let leap := year % 4 = 0 ∧ (year % 100 ≠ 0 ∨ year % 400 = 0)
  if month = 2 then (if leap then 29 else 28)
  else if month = 4 ∨ month = 6 ∨ month = 9 ∨ month = 11 then 30
  else 31

def date : Reader Date := do
  let year ← part 4 0 9999
  expect "-"
  let month ← part 2 1 12
  expect "-"
  let day ← part 2 1 (daysOf year month)
  return { year, month, day }

/-- Take the fraction of a second in nanoseconds; further digits are dropped. -/
def nanosecond : Reader Nat := do
  if ← accept "." then
    let digits ← takeWhile Char.isDigit
    ensure (!digits.isEmpty)
    return valueOf 10 ((digits ++ List.replicate 9 '0').take 9)
  else
    return 0

def time : Reader Time := do
  let hour ← part 2 0 23
  expect ":"
  let minute ← part 2 0 59
  expect ":"
  let second ← part 2 0 60
  return { hour, minute, second, nanosecond := ← nanosecond }

def offset : Reader (Option Offset) := do
  match ← peek with
  | some 'Z' | some 'z' =>
    let _ ← next
    return some .zulu
  | some '+' | some '-' =>
    let negative ← sign
    let hour ← part 2 0 23
    expect ":"
    let minute ← part 2 0 59
    return some (.minutes (!negative) (60 * hour + minute))
  | _ => return none

/-- Whether a text starts with digits and a mark. -/
def startsWith (width : Nat) (mark : Char) (input : List Char) : Bool :=
  (input.take width).all Char.isDigit && input[width]? == some mark

/-- Whether a text starts like a time that follows a date. -/
def continuesDate : List Char → Bool
  | delimiter :: rest =>
    (delimiter == 'T' || delimiter == 't' || delimiter == ' ') && startsWith 2 ':' rest
  | [] => false

/-- Take a moment that starts with a date. -/
def dated : Reader Datetime := do
  let date ← date
  if continuesDate (← remaining) then
    let _ ← next
    let time ← time
    return { date, time, offset := ← offset }
  else
    return { date }

def moment : Reader Datetime := do
  if startsWith 4 '-' (← remaining) then
    dated
  else
    return { time := ← time }

def momentOrNumber : Reader Value := do
  let input ← remaining
  if startsWith 4 '-' input || startsWith 2 ':' input then
    return .datetime (← moment)
  else
    number

end Reader

def Datetime.ofText? (text : String) : Option Datetime := do
  let (moment, rest) ← Reader.moment text.toList
  guard rest.isEmpty
  return moment

end TrieCache.Toml
