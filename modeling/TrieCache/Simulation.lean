import TrieCache.Settings.Override
import TrieCache.Store.Memory
import TrieCache.Summary
import TrieCache.Traffic

/-!
# Simulation

A whole run from the command line: read the settings, get the addresses from a trace or
from a random generator, replay them on a fresh cache, print the report and perhaps write
a summary.  The run works over any monad that can read and write files.
-/

namespace TrieCache

inductive FileError
  | notFound
  /-- The file is a directory, which can be opened but not read. -/
  | directory
  | other (reason : String)
  deriving DecidableEq, Repr

def FileError.message : FileError → String
  | .notFound => "No such file or directory (os error 2)"
  | .directory => "Is a directory (os error 21)"
  | .other reason => reason

structure Files (m : Type → Type) where
  read : (path : String) → m (Except FileError (List UInt8))
  /-- Write a file; the result says whether it was written. -/
  write : (path text : String) → m Bool

inductive Ending
  | finished
  /-- With an error, described by messages, outermost first. -/
  | failed (messages : List String)
  | faulted (fault : Fault)
  /-- Before it started, on account of the command line. -/
  | refused (error : OptionError)
  deriving DecidableEq, Repr

namespace Ending

def code : Ending → Nat
  | .finished => 0
  | .failed _ => 1
  | .faulted _ => 101
  | .refused .help | .refused .version => 0
  | .refused _ => 2

/-- What a run prints that ends without a report. -/
def output : Ending → String
  | .refused .help => Options.usage
  | .refused .version => Options.versionLine
  | _ => ""

end Ending

structure Outcome where
  output : String
  ending : Ending
  deriving DecidableEq, Repr

namespace Simulation

/-- The answer of a step that may fail with messages, outermost first. -/
abbrev Answer (α : Type) := Except (List String) α

/-- The random addresses of a run.  By default they cover four times the cache, and never
more than the address space. -/
def traffic (options : Options) (config : Config) (length : UInt64) : Checked Traffic := do
  let usual ← Word.mul 64 4 config.size.toNat
  let wanted := (options.footprint.map UInt64.toNat).getD usual
  return {
    length := length.toNat
    footprint := UInt64.ofNat (min wanted config.addressLimit)
    seed := options.seed }

/-- Replay addresses on a fresh cache with a memory behind it, and publish all changes. -/
def replayBacked (settings : Settings) (cache : Cache) (addresses : List Address) :
    Checked (Answer (Report × Stats)) := do
  let memory : Memory := { blockSize := settings.cache.blockSize.toNat }
  let backed ← BackedCache.ofCache cache memory
  let (reply, backed) ← backed.replay settings.run.verify addresses
  match reply with
  | .error error => return .error error.messages
  | .ok report =>
    let (reply, backed) ← backed.flush
    match reply with
    | .error error => return .error [error.message]
    | .ok _ => return .ok (report, backed.cache.stats)

def replaySeeded (settings : Settings) (cache : Cache) (addresses : List Address) :
    Checked (Answer (Report × Stats)) := do
  let (reply, cache) ← cache.replay settings.run.fillValue settings.run.verify addresses
  match reply with
  | .error error => return .error error.messages
  | .ok report => return .ok (report, cache.stats)

def simulate (options : Options) (settings : Settings) (addresses : List Address) :
    Checked (Answer (Report × Stats)) := do
  let cache ← Cache.ofConfig settings.cache
  if options.backed then replayBacked settings cache addresses
  else replaySeeded settings cache addresses

variable {m : Type → Type} [Monad m]

/-- A run up to its report, which may end early. -/
abbrev Run (m : Type → Type) := ExceptT Ending m

/-- Go on with a value, or end at a fault. -/
def orFault {α : Type} : Checked α → Run m α
  | .ok value => pure value
  | .error fault => throw (.faulted fault)

/-- Go on with a value, or end at a fault or a failure. -/
def orEnd {α : Type} (answer : Checked (Answer α)) : Run m α := do
  match ← orFault answer with
  | .ok value => pure value
  | .error messages => throw (.failed messages)

def settingsText (files : Files m) : Option String → Run m String
  | none => pure ""
  | some path => do
    let context := s!"failed to read config file {path}"
    match ← files.read path with
    | .error error => throw (.failed [context, error.message])
    | .ok bytes =>
      match String.fromUTF8? (ByteArray.mk bytes.toArray) with
      | some text => return text
      | none => throw (.failed (context :: Trace.Error.messages .notText))

def traceAddresses (files : Files m) (path : String) : Run m (List Address) := do
  match ← files.read path with
  | .error .directory => throw (.failed [FileError.directory.message])
  | .error error => throw (.failed [s!"cannot open trace {path}", error.message])
  | .ok bytes =>
    match Trace.parse bytes with
    | .ok addresses => return addresses
    | .error error => throw (.failed error.messages)

def addresses (files : Files m) (options : Options) (settings : Settings)
    (source : Source := .chaCha) : Run m (List Address) := do
  match options.synthetic, settings.run.trace with
  | some length, _ => orFault do (← traffic options settings.cache length).generate source
  | none, some path => traceAddresses files path
  | none, none => throw (.failed ["no trace to replay; set sim.trace, --trace or --synthetic"])

/-- A run up to its report.  The result is the file for the summary and the summary. -/
def report (files : Files m) (arguments : List String) (source : Source := .chaCha) :
    Run m (Option String × Summary) := do
  match Options.parse arguments with
  | .error error => throw (.refused error)
  | .ok options =>
    let text ← settingsText files options.settingsFile
    let settings ← orEnd do return (← Settings.load text options).mapError fun message => [message]
    let addresses ← addresses files options settings source
    let (report, stats) ← orEnd (simulate options settings addresses)
    return (settings.run.summary, { report, stats })

def run (files : Files m) (arguments : List String) (source : Source := .chaCha) :
    m Outcome := do
  match ← (report files arguments source).run with
  | .error ending => return { output := ending.output, ending }
  | .ok (path, summary) =>
    let output := summary.report.text ++ "\n"
    match path with
    | none => return { output, ending := .finished }
    | some path =>
      if ← files.write path summary.text then
        return { output, ending := .finished }
      else
        return { output, ending := .failed [s!"cannot write {path}"] }

end Simulation

end TrieCache
