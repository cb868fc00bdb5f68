/-!
# Readers

A reader takes something off the front of a text, or fails.  Readers are combined in
sequence; loops go on until a reader for their end succeeds.
-/

namespace TrieCache.Toml

/-- Takes something off the front of a text. -/
abbrev Reader := StateT (List Char) Option

namespace Reader

def remaining : Reader (List Char) := get

def peek : Reader (Option Char) := List.head? <$> remaining

def ensure (condition : Bool) : Reader Unit :=
  if condition then pure () else failure

/-- Take a word if the text starts with it. -/
def accept (word : String) : Reader Bool := do
  let input ← remaining
  if word.toList.isPrefixOf input then
    set (input.drop word.length)
    return true
  else
    return false

def expect (word : String) : Reader Unit := do
  ensure (← accept word)

def next : Reader Char := do
  match ← remaining with
  | char :: rest =>
    set rest
    return char
  | [] => failure

def satisfy (condition : Char → Bool) : Reader Char := do
  let char ← next
  ensure (condition char)
  return char

def takeWhile (condition : Char → Bool) : Reader (List Char) := do
  let input ← remaining
  set (input.dropWhile condition)
  return input.takeWhile condition

/-- Take a given number of characters that satisfy a condition. -/
def exactly (condition : Char → Bool) : (count : Nat) → Reader (List Char)
  | 0 => return []
  | count + 1 => do
    let char ← satisfy condition
    return char :: (← exactly condition count)

/-- Take what a reader takes, or nothing if it fails. -/
def optional {α : Type} (reader : Reader α) : Reader (Option α) := fun input =>
  match reader input with
  | some (value, rest) => some (some value, rest)
  | none => some (none, input)

/-- Read items until `finished` says so, at most a given number of them. -/
def repeatUntil {α : Type} (finished : Reader Bool) (item : Reader α) :
    (limit : Nat) → Reader (List α)
  | 0 => failure
  | limit + 1 => do
    if ← finished then return []
    else
      let first ← item
      return first :: (← repeatUntil finished item limit)

/-- Read items until `finished` says so.  Every item must take at least one character,
so the text bounds their number. -/
def manyUntil {α : Type} (finished : Reader Bool) (item : Reader α) : Reader (List α) := do
  repeatUntil finished item ((← remaining).length + 1)

end Reader

def isSpace (char : Char) : Bool :=
  char == ' ' || char == '\t'

/-- A character that comments may hold: all but control characters, and the tab. -/
def isPrintable (char : Char) : Bool :=
  char == '\t' || (decide (0x20 ≤ char.toNat) && decide (char.toNat ≠ 0x7F))

def isBare (char : Char) : Bool :=
  char.isAlphanum || char == '-' || char == '_'

def isHexDigit (char : Char) : Bool :=
  char.isDigit || ('a' ≤ char && char ≤ 'f') || ('A' ≤ char && char ≤ 'F')

namespace Reader

def spaces : Reader Unit := do
  let _ ← takeWhile isSpace

def newline : Reader Bool := do
  if ← accept "\n" then return true else accept "\r\n"

def comment : Reader Unit := do
  if ← accept "#" then
    let _ ← takeWhile isPrintable

/-- Take the rest of a line, which may hold a comment. -/
def lineEnd : Reader Unit := do
  spaces
  comment
  let ended ← newline
  ensure (ended || (← remaining).isEmpty)

def dropBlank : (inComment : Bool) → List Char → List Char
  | _, [] => []
  | inComment, char :: rest =>
    if inComment && isPrintable char then dropBlank true rest
    else if isSpace char || char == '\n' then dropBlank false rest
    else if char == '\r' && rest.head? == some '\n' then dropBlank false rest
    else if char == '#' then dropBlank true rest
    else char :: rest

def blank : Reader Unit := modify (dropBlank false)

end Reader

end TrieCache.Toml
