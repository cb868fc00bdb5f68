import TrieCache.Layout
import TrieCache.Text.Blank
import TrieCache.Text.Hexadecimal

/-!
# Traces

A trace is a text with one address a line: two bytes of any kind, then the address in
hexadecimal.  Blank lines are skipped.  Reading stops at the first line that is not of
this form.  `Trace.print` writes addresses in the form that `Trace.parse` reads.
-/

namespace TrieCache.Trace

/-- Bytes in front of the digits on every line. -/
def leadBytes : Nat := 2

inductive LineError
  /-- The line ends before its digits, or a character straddles their start. -/
  | tooShort (line : List Char)
  /-- The text after the lead is not an address. -/
  | badAddress (digits : List Char) (reason : Hexadecimal.ReadError)
  deriving DecidableEq, Repr

def LineError.messages : LineError → List String
  | .tooShort line => ["trace line '" ++ String.ofList line ++ "' is shorter than its prefix"]
  | .badAddress digits reason =>
    ["bad hex address '" ++ String.ofList digits ++ "'", reason.message]

inductive Error
  /-- A line, counted from one, holds no address. -/
  | line (number : Nat) (error : LineError)
  | notText
  deriving DecidableEq, Repr

def Error.messages : Error → List String
  | .line number error => s!"trace line {number}" :: error.messages
  | .notText => ["stream did not contain valid UTF-8"]

/-- Drop characters that take a number of bytes, if they end exactly there. -/
def dropBytes : (count : Nat) → List Char → Option (List Char)
  | 0, chars => some chars
  | _ + 1, [] => none
  | count + 1, char :: chars =>
    if char.utf8Size ≤ count + 1 then dropBytes (count + 1 - char.utf8Size) chars else none

/-- Read a line that is not blank and was trimmed at its end. -/
def readAddress (line : List Char) : Except LineError Address :=
  match dropBytes leadBytes line with
  | none => .error (.tooShort line)
  | some digits =>
    match Hexadecimal.read (Blank.trim digits) with
    | .ok address => .ok (UInt64.ofNat address)
    | .error reason => .error (.badAddress digits reason)

/-- Read one line; a blank line holds no address. -/
def parseLine (line : List Char) : Except LineError (Option Address) :=
  let line := Blank.trimEnd line
  if line.isEmpty then .ok none else (readAddress line).map some

def lineFeed : UInt8 := 10

def carriageReturn : UInt8 := 13

/-- Drop one carriage return at the end of a line. -/
def dropReturn (line : List UInt8) : List UInt8 :=
  if line.getLast? = some carriageReturn then line.dropLast else line

/-- The lines of a text.  What follows the last line feed is a line if it is not empty. -/
def lines (bytes : List UInt8) : List (List UInt8) :=
  match _ : bytes.dropWhile (· != lineFeed) with
  | [] => if bytes.isEmpty then [] else [bytes]
  | _ :: rest => dropReturn (bytes.takeWhile (· != lineFeed)) :: lines rest
termination_by bytes.length
decreasing_by
  rename_i split
  have shorter : (bytes.dropWhile (· != lineFeed)).length ≤ bytes.length :=
    (List.dropWhile_suffix _).length_le
  rw [split, List.length_cons] at shorter
  omega

def decode (line : List UInt8) : Option (List Char) :=
  (String.fromUTF8? (ByteArray.mk line.toArray)).map String.toList

/-- Read lines, the first of which has the given number, after the addresses found in
the lines before, last one first. -/
def parseLines (number : Nat) (found : List Address) :
    List (List UInt8) → Except Error (List Address)
  | [] => .ok found.reverse
  | line :: rest =>
    match decode line with
    | none => .error .notText
    | some chars =>
      match parseLine chars with
      | .error error => .error (.line number error)
      | .ok none => parseLines (number + 1) found rest
      | .ok (some address) => parseLines (number + 1) (address :: found) rest

def parse (bytes : List UInt8) : Except Error (List Address) :=
  parseLines 1 [] (lines bytes)

def bytesOf (text : String) : List UInt8 :=
  text.toUTF8.data.toList

def printLine (address : Address) : List Char :=
  '0' :: 'x' :: (Hexadecimal.digits address.toNat ++ ['\n'])

def print (addresses : List Address) : String :=
  String.ofList (addresses.flatMap printLine)

end TrieCache.Trace
