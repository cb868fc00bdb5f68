import TrieCache.Config
import TrieCache.Toml.Document

/-!
# Settings

The settings of a run: what to replay and how to report it, and the configuration of the
cache.  They are read from two sections of a TOML document.

A section is a table of named fields or an array of fields in a fixed order.  Fields that
are not given keep their defaults.  A field of the wrong type or out of range, a section
of another shape and an array with too many items make the section malformed; unknown
names in a table do not.
-/

namespace TrieCache

inductive LogFilter
  | warn
  | info
  | debug
  deriving DecidableEq, Repr

/-- What to replay, and how to report it. -/
structure RunSettings where
  trace : Option String := none
  logLevel : UInt64 := 0
  /-- The byte that a miss inserts when there is no store. -/
  fillValue : UInt8 := 42
  summary : Option String := none
  /-- Check the structure of the cache after every address. -/
  verify : Bool := false
  deriving DecidableEq, Repr

/-- How much a run logs at its level. -/
def RunSettings.filter (settings : RunSettings) : LogFilter :=
  if settings.logLevel = 0 then .warn
  else if settings.logLevel = 1 then .info
  else .debug

structure Settings where
  run : RunSettings := {}
  cache : Config := {}
  deriving DecidableEq, Repr

namespace Settings

open Toml (Value)

def natural? (limit : Nat) : Value → Option Nat
  | .integer number =>
    if 0 ≤ number ∧ number.toNat < limit then some number.toNat else none
  | _ => none

def word64? (value : Value) : Option UInt64 :=
  (natural? (2 ^ (64 : Nat)) value).map UInt64.ofNat

def word32? (value : Value) : Option UInt32 :=
  (natural? (2 ^ (32 : Nat)) value).map UInt32.ofNat

def byte? (value : Value) : Option UInt8 :=
  (natural? (2 ^ (8 : Nat)) value).map UInt8.ofNat

def boolean? : Value → Option Bool
  | .boolean value => some value
  | _ => none

/-- The name of a file.  A moment counts as the text it is written with. -/
def path? : Value → Option String
  | .text text => some text
  | .datetime moment => some moment.text
  | _ => none

structure Field (σ : Type) where
  name : String
  /-- Set the field to a value of the right type. -/
  assign : Value → σ → Option σ

def runFields : List (Field RunSettings) :=
  [⟨"trace", fun value run => do return { run with trace := some (← path? value) }⟩,
    ⟨"log_level", fun value run => do return { run with logLevel := ← word64? value }⟩,
    ⟨"fill_value", fun value run => do return { run with fillValue := ← byte? value }⟩,
    ⟨"stats_json", fun value run => do return { run with summary := some (← path? value) }⟩,
    ⟨"verify", fun value run => do return { run with verify := ← boolean? value }⟩]

def cacheFields : List (Field Config) :=
  [⟨"size", fun value cache => do return { cache with size := ← word64? value }⟩,
    ⟨"block_size", fun value cache => do return { cache with blockSize := ← word64? value }⟩,
    ⟨"num_bth", fun value cache => do return { cache with levels := ← word64? value }⟩,
    ⟨"addr_bits", fun value cache => do return { cache with addressBits := ← word32? value }⟩,
    ⟨"tlb_size", fun value cache => do return { cache with fastPathSize := ← word64? value }⟩,
    ⟨"mna", fun value cache => do return { cache with maxAttempts := ← word64? value }⟩,
    ⟨"max_reference", fun value cache => do return { cache with maxReference := ← byte? value }⟩]

variable {σ : Type}

/-- Set a field by its name; other names set nothing. -/
def assignNamed (fields : List (Field σ)) (settings : σ) (entry : String × Value) : Option σ :=
  match fields.find? fun field => field.name == entry.1 with
  | some field => field.assign entry.2 settings
  | none => some settings

def assignInOrder (settings : σ) : List (Field σ) → List Value → Option σ
  | _, [] => some settings
  | field :: fields, value :: values => do
    assignInOrder (← field.assign value settings) fields values
  | [], _ :: _ => none

def assignSection (fields : List (Field σ)) (settings : σ) : Value → Option σ
  | .table _ entries => entries.foldlM (assignNamed fields) settings
  | .array items => assignInOrder settings fields items
  | _ => none

/-- Read a section of a document.  Without it all settings stay. -/
def readSection (fields : List (Field σ)) (settings : σ) (name : String)
    (document : Toml.Entries) : Checked σ :=
  match document.find? name with
  | none => .ok settings
  | some value =>
    match assignSection fields settings value with
    | some settings => .ok settings
    | none => .error .malformedSection

/-- Read settings; a text that is not TOML has none. -/
def parse (text : String) : Checked (Option Settings) :=
  match Toml.Document.parse text with
  | none => .ok none
  | some document => do
    let run ← readSection runFields {} "sim" document
    let cache ← readSection cacheFields {} "cache" document
    return some { run, cache }

end Settings

end TrieCache
