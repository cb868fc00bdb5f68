import TrieCache.Toml.Value

/-!
# Entries of tables

Adding to the tables of a document.  A path of keys leads through tables, which are made
where they are missing.  Nothing may be defined twice, and a table may only be added to
in the way that it was made: by headers or by dotted keys, and never once it was written
in braces.
-/

namespace TrieCache.Toml

inductive Route
  /-- Along the keys of a header. -/
  | header
  /-- Along a dotted key. -/
  | dottedKey
  deriving DecidableEq, Repr

namespace Route

/-- The kind of the tables that a route makes. -/
def creates : Route → TableKind
  | .header => .implied
  | .dottedKey => .dotted

/-- Whether a route may go through a table. -/
def passes : Route → TableKind → Bool
  | .header, kind => kind != .inlined
  | .dottedKey, kind => kind == .implied || kind == .dotted

end Route

namespace Entries

def find? (entries : Entries) (key : String) : Option Value :=
  entries.lookup key

def put (entries : Entries) (key : String) (value : Value) : Entries :=
  if (entries.find? key).isSome then
    entries.map fun (name, old) => if name == key then (name, value) else (name, old)
  else
    entries ++ [(key, value)]

/-- Set the value of a key and move the key to the end. -/
def putLast (entries : Entries) (key : String) (value : Value) : Entries :=
  entries.filter (fun (name, _) => name != key) ++ [(key, value)]

/-- Change the table at the end of a path. -/
def updateAt (route : Route) (change : TableKind → Entries → Option Entries) :
    (path : List String) → TableKind → Entries → Option Entries
  | [], kind, entries => change kind entries
  | key :: path, _, entries =>
    match entries.find? key with
    | none => do
      let inner ← updateAt route change path route.creates []
      return entries.put key (.table route.creates inner)
    | some (.table kind inner) => do
      guard (route.passes kind)
      let inner ← updateAt route change path kind inner
      return entries.put key (.table kind inner)
    | some (.series tables) => do
      let last ← tables.getLast?
      let last ← updateAt route change path .headed last
      return entries.put key (.series (tables.dropLast ++ [last]))
    | some _ => none

/-- Add a key with its value.  A dotted key ends in a table that dotted keys made. -/
def define (value : Value) (path : List String) (entries : Entries) : Option Entries := do
  let key ← path.getLast?
  let tables := path.dropLast
  updateAt .dottedKey
    (fun kind entries => do
      guard (tables.isEmpty || kind == .dotted)
      guard (entries.find? key).isNone
      return entries.put key value)
    tables .headed entries

/-- Add a table that a header names.  One that was only implied so far moves to the end. -/
def openTable (path : List String) (entries : Entries) : Option Entries := do
  let key ← path.getLast?
  updateAt .header
    (fun _ entries =>
      match entries.find? key with
      | none => some (entries.putLast key (.table .headed []))
      | some (.table .implied inner) => some (entries.putLast key (.table .headed inner))
      | some _ => none)
    path.dropLast .headed entries

/-- Add one more table to the series that a header in double brackets names. -/
def openSeries (path : List String) (entries : Entries) : Option Entries := do
  let key ← path.getLast?
  updateAt .header
    (fun _ entries =>
      match entries.find? key with
      | none => some (entries.put key (.series [[]]))
      | some (.series tables) => some (entries.put key (.series (tables ++ [[]])))
      | some _ => none)
    path.dropLast .headed entries

/-- Add a key with its value to the table that the last header named. -/
def defineAt (header : List String) (path : List String) (value : Value) (entries : Entries) :
    Option Entries :=
  updateAt .header (fun _ => define value path) header .headed entries

end Entries

end TrieCache.Toml
