import TrieCache.Toml.Moment

/-!
# Marked moments

A table inside a document may stand for a moment: its first key is the marker, and the
value of that key is a text that writes the moment.  Whatever follows the marker is dropped
unread.  A marker over anything else than the text of a moment has no meaning, and neither
has a document that holds one.  A marker behind another key is a key like any other, and so
is one in the document itself.
-/

namespace TrieCache.Toml

/-- The key that marks a table as a moment. -/
def momentMarker : String := "$__toml_private_datetime"

mutual

/-- Put moments in the place of the tables that stand for them.  Tables that share a
header become an array. -/
def Value.unmark : Value → Option Value
  | .array items => do return .array (← unmarkItems items)
  | .table kind entries => unmarkTable kind entries
  | .series tables => do return .array (← unmarkSeries tables)
  | value => some value

def unmarkItems : List Value → Option (List Value)
  | [] => some []
  | item :: items => do return (← item.unmark) :: (← unmarkItems items)

/-- Read a table as a moment if its first key is the marker. -/
def unmarkTable (kind : TableKind) : List (String × Value) → Option Value
  | [] => some (.table kind [])
  | (name, value) :: entries =>
    if name == momentMarker then
      match value with
      | .text text => do return .datetime (← Datetime.ofText? text)
      | _ => none
    else do
      return .table kind ((name, ← value.unmark) :: (← unmarkEntries entries))

def unmarkSeries : List (List (String × Value)) → Option (List Value)
  | [] => some []
  | table :: tables => do return (← unmarkTable .headed table) :: (← unmarkSeries tables)

def unmarkEntries : List (String × Value) → Option (List (String × Value))
  | [] => some []
  | (name, value) :: entries => do return (name, ← value.unmark) :: (← unmarkEntries entries)

end

end TrieCache.Toml
