import TrieCache.Text.Hexadecimal
import TrieCache.Toml.Reader

/-!
# Quoted text

Text stands in double quotes, where a backslash starts an escape, or in single quotes,
where every character stands for itself.  Three quotes in a row enclose text of several
lines.  Up to two quotes may stand in such a text, also right before its end.
-/

namespace TrieCache.Toml.Reader

/-- The character that a one-letter escape stands for. -/
def escape? : Char → Option Char
  | 'b' => some '\x08'
  | 't' => some '\t'
  | 'n' => some '\n'
  | 'f' => some '\x0c'
  | 'r' => some '\r'
  | '"' => some '"'
  | '\\' => some '\\'
  | _ => none

/-- The character with a code point in hexadecimal.  Surrogates are no characters. -/
def scalar? (digits : List Char) : Option Char :=
  let code := digits.foldl (fun value digit =>
    16 * value + (Hexadecimal.digitValue? digit).getD 0) 0
  if code < 0xD800 ∨ (0xDFFF < code ∧ code < 0x110000) then some (Char.ofNat code) else none

def escape : Reader Char := do
  match ← next with
  | 'u' => scalar? (← exactly isHexDigit 4)
  | 'U' => scalar? (← exactly isHexDigit 8)
  | char => escape? char

def basicChar : Reader Char := do
  if ← accept "\\" then escape
  else satisfy fun char => isPrintable char && char != '"'

def literalChar : Reader Char :=
  satisfy fun char => isPrintable char && char != '\''

/-- Take a text of one line after its first quote. -/
def untilQuote (quote : String) (char : Reader Char) : Reader String :=
  String.ofList <$> manyUntil (accept quote) char

def dropLines : List Char → List Char
  | [] => []
  | char :: rest =>
    if isSpace char || char == '\n' || (char == '\r' && rest.head? == some '\n') then
      dropLines rest
    else char :: rest

/-- Take the end of a line and the white space after it, if nothing else is left on the
line. -/
def foldedLine : Reader Unit := do
  spaces
  ensure (← newline)
  modify dropLines

/-- Take a piece of a text of several lines in double quotes.  A backslash at the end of
a line removes the white space up to the next character. -/
def basicPiece : Reader (List Char) := do
  if ← newline then return ['\n']
  else if ← accept "\"" then return ['"']
  else if ← accept "\\" then
    match ← optional foldedLine with
    | some () => return []
    | none => return [← escape]
  else return [← basicChar]

/-- Take a piece of a text of several lines in single quotes. -/
def literalPiece : Reader (List Char) := do
  if ← newline then return ['\n']
  else if ← accept "'" then return ['\'']
  else return [← literalChar]

/-- Take a text of several lines after its first quotes. -/
def untilQuotes (quote : Char) (piece : Reader (List Char)) : Reader String := do
  let _ ← newline
  let ends := do return [quote, quote, quote].isPrefixOf (← remaining)
  let pieces ← manyUntil ends piece
  let quotes ← takeWhile (· == quote)
  ensure (decide (quotes.length ≤ 5))
  return String.ofList (pieces.flatten ++ quotes.drop 3)

def quotedKey : Reader String := do
  if ← accept "\"" then untilQuote "\"" basicChar
  else
    expect "'"
    untilQuote "'" literalChar

def text : Reader String := do
  if ← accept "\"\"\"" then untilQuotes '"' basicPiece
  else if ← accept "'''" then untilQuotes '\'' literalPiece
  else quotedKey

end TrieCache.Toml.Reader
