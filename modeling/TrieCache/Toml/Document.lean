import TrieCache.Toml.Entries
import TrieCache.Toml.Marked
import TrieCache.Toml.Text

/-!
# Documents

Values, and the lines that put them into the tables of a document.  Values nest only to
a limited depth, and dotted keys have limited length.
-/

namespace TrieCache.Toml

/-- Arrays, tables in braces and dotted keys go less deep than this. -/
def depthLimit : Nat := 80

namespace Reader

def simpleKey : Reader String := do
  match ← peek with
  | some '"' | some '\'' => quotedKey
  | _ =>
    let chars ← takeWhile isBare
    ensure (!chars.isEmpty)
    return String.ofList chars

/-- Take one key and the spaces around it. -/
def spacedKey : Reader String := do
  spaces
  let key ← simpleKey
  spaces
  return key

/-- Take a key of one part or of several with dots between them. -/
def dottedKey : Reader (List String) := do
  let first ← spacedKey
  let rest ← manyUntil (do return !(← accept ".")) spacedKey
  ensure (decide (rest.length + 1 < depthLimit))
  return first :: rest

def keyValue (value : Reader Value) : Reader (List String × Value) := do
  let key ← dottedKey
  expect "="
  spaces
  return (key, ← value)

def separator (close : String) : Reader Unit := do
  ensure ((← accept ",") || close.toList.isPrefixOf (← remaining))

/-- Take an array after its bracket.  A comma may follow the last item. -/
def arrayItems (value : Reader Value) : Reader Value := do
  blank
  return .array <| ← manyUntil (accept "]") do
    let item ← value
    blank
    separator "]"
    blank
    return item

/-- Take a key and its value inside braces, and the comma before the next. -/
def inlineEntry (value : Reader Value) : Reader (List String × Value) := do
  let entry ← keyValue value
  spaces
  if ← accept "," then
    spaces
    ensure ((← peek) != some '\x7d')
  else
    ensure ((← peek) == some '\x7d')
  return entry

/-- Take a table after its brace.  No comma may follow the last key. -/
def inlineTable (value : Reader Value) : Reader Value := do
  spaces
  let entries ← manyUntil (accept "\x7d") (inlineEntry value)
  let table ← entries.foldlM
    (fun (table : Entries) (path, value) => Entries.define value path table) []
  return .table .inlined table

/-- Take a value that holds no other values. -/
def scalar : Reader Value := do
  match ← peek with
  | some '"' | some '\'' => return .text (← text)
  | some 't' =>
    expect "true"
    return .boolean true
  | some 'f' =>
    expect "false"
    return .boolean false
  | _ => momentOrNumber

/-- Take a value that holds others to a depth. -/
def value : (depth : Nat) → Reader Value
  | 0 => scalar
  | depth + 1 => do
    if ← accept "[" then arrayItems (value depth)
    else if ← accept "\x7b" then inlineTable (value depth)
    else scalar

/-- Take the header of a table between its brackets, and the rest of its line. -/
def header (close : String) : Reader (List String) := do
  let path ← dottedKey
  expect close
  lineEnd
  return path

end Reader

inductive Line
  | blank
  | tableHeader (path : List String)
  | seriesHeader (path : List String)
  | entry (path : List String) (value : Value)
  deriving Repr, Inhabited

namespace Reader

def line : Reader Line := do
  if ← newline then
    return .blank
  else if ← accept "[[" then
    return .seriesHeader (← header "]]")
  else if ← accept "[" then
    return .tableHeader (← header "]")
  else if (← peek) == some '#' then
    lineEnd
    return .blank
  else
    let (path, value) ← keyValue (value (depthLimit - 1))
    lineEnd
    return .entry path value

def spacedLine : Reader Line := do
  let line ← line
  spaces
  return line

def lines : Reader (List Line) := do
  let _ ← accept "\ufeff"
  spaces
  manyUntil (do return (← remaining).isEmpty) spacedLine

end Reader

/-- A document, and the header that the next key falls under. -/
structure Document where
  entries : Entries := []
  header : List String := []
  deriving Repr, Inhabited

namespace Document

def add (document : Document) : Line → Option Document
  | .blank => some document
  | .tableHeader path => do
    return { entries := ← document.entries.openTable path, header := path }
  | .seriesHeader path => do
    return { entries := ← document.entries.openSeries path, header := path }
  | .entry path value => do
    let entries ← Entries.defineAt document.header path value document.entries
    return { document with entries }

/-- Read a document.  Every text that is not one gives nothing. -/
def parse (text : String) : Option Entries := do
  let (lines, _) ← Reader.lines text.toList
  let document ← lines.foldlM add {}
  unmarkEntries document.entries

end Document

end TrieCache.Toml
