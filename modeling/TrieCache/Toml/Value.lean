/-!
# TOML values

The values of a TOML document.  A table remembers how it was written, because that
decides which later lines may add to it.
-/

namespace TrieCache.Toml

inductive TableKind
  /-- Written in braces. -/
  | inlined
  /-- Named by a header, or the document itself. -/
  | headed
  /-- Named only as part of the header of another table. -/
  | implied
  /-- Named only as part of a dotted key. -/
  | dotted
  deriving DecidableEq, Repr

structure Date where
  year : Nat
  month : Nat
  day : Nat
  deriving DecidableEq, Repr

structure Time where
  hour : Nat
  minute : Nat
  second : Nat
  nanosecond : Nat := 0
  deriving DecidableEq, Repr

/-- How far a clock is off universal time. -/
inductive Offset
  /-- Universal time itself. -/
  | zulu
  /-- By so many minutes. -/
  | minutes (ahead : Bool) (count : Nat)
  deriving DecidableEq, Repr

/-- A moment, of which parts may be left open. -/
structure Datetime where
  date : Option Date := none
  time : Option Time := none
  offset : Option Offset := none
  deriving DecidableEq, Repr

inductive Value
  | text (text : String)
  | integer (number : Int)
  /-- A float; none of its uses here needs the number. -/
  | float
  | boolean (value : Bool)
  | datetime (moment : Datetime)
  | array (items : List Value)
  | table (kind : TableKind) (entries : List (String × Value))
  /-- Tables that share one header in double brackets. -/
  | series (tables : List (List (String × Value)))
  deriving Repr, Inhabited

/-- The entries of a table, in the order of their first mention; a table that was only
implied counts as mentioned by its own header. -/
abbrev Entries := List (String × Value)

/-- The digits of a number, filled up with zeros to a width. -/
def padded (width number : Nat) : String :=
  let digits := Nat.toDigits 10 number
  String.ofList (List.replicate (width - digits.length) '0' ++ digits)

def Date.text (date : Date) : String :=
  padded 4 date.year ++ "-" ++ padded 2 date.month ++ "-" ++ padded 2 date.day

/-- The fraction of a second, without zeros at its end. -/
def fractionText (nanosecond : Nat) : String :=
  if nanosecond = 0 then ""
  else
    let digits := (padded 9 nanosecond).toList
    "." ++ String.ofList (digits.reverse.dropWhile (· == '0')).reverse

def Time.text (time : Time) : String :=
  padded 2 time.hour ++ ":" ++ padded 2 time.minute ++ ":" ++ padded 2 time.second
    ++ fractionText time.nanosecond

def Offset.text : Offset → String
  | .zulu => "Z"
  | .minutes ahead count =>
    (if ahead || count == 0 then "+" else "-") ++ padded 2 (count / 60) ++ ":"
      ++ padded 2 (count % 60)

def Datetime.text (moment : Datetime) : String :=
  let date := (moment.date.map Date.text).getD ""
  let time := (moment.time.map Time.text).getD ""
  let between := if moment.date.isSome && moment.time.isSome then "T" else ""
  date ++ between ++ time ++ (moment.offset.map Offset.text).getD ""

end TrieCache.Toml
