import TrieCache.Power

/-!
# Command-line options

The arguments of the command line.  An option is `--name value` or `--name=value`, a flag
is `--name`, and one operand, the settings file, may stand anywhere.  After `--` every
argument is an operand.  Nothing may be given twice.

An argument is judged once the next one turns up, so that a problem with the form of an
argument is reported before a problem with the value of the argument in front of it, but
a sound argument is not looked at before the one in front of it was judged.
-/

namespace TrieCache

structure Options where
  settingsFile : Option String := none
  trace : Option String := none
  logLevel : Option UInt64 := none
  size : Option UInt64 := none
  blockSize : Option UInt64 := none
  levels : Option UInt64 := none
  fastPathSize : Option UInt64 := none
  maxAttempts : Option UInt64 := none
  /-- How many random addresses to replay instead of a trace. -/
  synthetic : Option UInt64 := none
  footprint : Option UInt64 := none
  seed : UInt64 := 0
  backed : Bool := false
  summary : Option String := none
  verify : Bool := false
  deriving DecidableEq, Repr

/-- Why the command line does not start a run. -/
inductive OptionError
  /-- An option that does not exist, or an operand too many. -/
  | unknown
  /-- An option at the end of its arguments. -/
  | missingValue
  | emptyValue
  /-- A value that is not a number of 64 bits. -/
  | invalidNumber
  | repeated
  | unneededValue
  /-- The user asks how to use the program. -/
  | help
  /-- The user asks for the version of the program. -/
  | version
  deriving DecidableEq, Repr

def OptionError.message : OptionError → String
  | .unknown => "unexpected argument"
  | .missingValue => "an option lacks its value"
  | .emptyValue => "a file name is empty"
  | .invalidNumber => "a value is not a number"
  | .repeated => "an option is given twice"
  | .unneededValue => "a flag takes no value"
  | .help => "help requested"
  | .version => "version requested"

namespace Options

inductive Effect
  | file (assign : String → Options → Options)
  | number (assign : UInt64 → Options → Options)
  | flag (assign : Options → Options)
  | stop (reason : OptionError)

structure Named where
  name : String
  description : String
  effect : Effect
  letter : Option Char := none

def named : List Named :=
  [{ name := "trace", description := "Override trace file path"
     effect := .file fun path options => { options with trace := some path } },
    { name := "log", description := "Enable log at level (0:warn, 1:info, 2:debug)"
      effect := .number fun value options => { options with logLevel := some value } },
    { name := "size", description := "Override cache size in bytes"
      effect := .number fun value options => { options with size := some value } },
    { name := "block-size", description := "Override block size in bytes"
      effect := .number fun value options => { options with blockSize := some value } },
    { name := "num-bth", description := "Override number of BTH levels"
      effect := .number fun value options => { options with levels := some value } },
    { name := "tlb-size", description := "Override fast-path table capacity"
      effect := .number fun value options => { options with fastPathSize := some value } },
    { name := "mna", description := "Override maximum replacement attempts"
      effect := .number fun value options => { options with maxAttempts := some value } },
    { name := "synthetic", description := "Replay N random addresses instead of a trace file"
      effect := .number fun value options => { options with synthetic := some value } },
    { name := "footprint"
      description := "Bytes covered by --synthetic addresses (default: 4x cache size)"
      effect := .number fun value options => { options with footprint := some value } },
    { name := "seed", description := "Seed for --synthetic [default: 0]"
      effect := .number fun value options => { options with seed := value } },
    { name := "backed"
      description := "Serve misses from a backing memory instead of pre-seeding"
      effect := .flag fun options => { options with backed := true } },
    { name := "stats-json", description := "Write run statistics as JSON"
      effect := .file fun path options => { options with summary := some path } },
    { name := "verify", description := "Check cache structure after every access"
      effect := .flag fun options => { options with verify := true } },
    { name := "help", description := "Print help", effect := .stop .help, letter := some 'h' },
    { name := "version", description := "Print version", effect := .stop .version
      letter := some 'V' }]

/-- The value of decimal digits, if there are only digits. -/
def decimal? (digits : List Char) : Option Nat :=
  if digits.all Char.isDigit then
    some (digits.foldl (fun value digit => 10 * value + (digit.toNat - 48)) 0)
  else none

/-- A number of 64 bits; a plus sign may stand before its digits. -/
def number? (text : String) : Option UInt64 := do
  let digits := match text.toList with
    | '+' :: digits => digits
    | digits => digits
  guard (!digits.isEmpty)
  let value ← decimal? digits
  guard (decide (value < 2 ^ (64 : Nat)))
  return UInt64.ofNat value

inductive Pending
  /-- A named argument, with its value once that turned up. -/
  | named (argument : Named) (value : Option String)
  | operand (path : String)

/-- What is known after some of the arguments. -/
structure Progress where
  options : Options := {}
  given : List String := []
  pending : Option Pending := none
  hasOperand : Bool := false
  onlyOperands : Bool := false

namespace Progress

def give (progress : Progress) (name : String) : Except OptionError Progress :=
  if progress.given.contains name then .error .repeated
  else .ok { progress with given := name :: progress.given }

def assign (progress : Progress) (argument : Named) (value : String) :
    Except OptionError Progress := do
  let progress ← progress.give argument.name
  match argument.effect with
  | .file set =>
    if value.isEmpty then throw .emptyValue
    return { progress with options := set value progress.options }
  | .number set =>
    match number? value with
    | some value => return { progress with options := set value progress.options }
    | none => throw .invalidNumber
  | .flag _ | .stop _ => throw .unneededValue

/-- Judge the argument that waits, if there is one. -/
def settle (progress : Progress) : Except OptionError Progress :=
  let settled := { progress with pending := none }
  match progress.pending with
  | none => .ok settled
  | some (.named _ none) => .error .missingValue
  | some (.named argument (some value)) => settled.assign argument value
  | some (.operand path) =>
    if path.isEmpty then .error .emptyValue
    else .ok { settled with options := { settled.options with settingsFile := some path } }

/-- Take a named argument, perhaps with a value of its own. -/
def takeNamed (progress : Progress) (argument : Named) (attached : Option String) :
    Except OptionError Progress := do
  match argument.effect, attached with
  | .flag _, some _ | .stop _, some _ => throw .unneededValue
  | .flag set, none =>
    let progress ← (← progress.settle).give argument.name
    return { progress with options := set progress.options }
  | .stop reason, none =>
    let _ ← progress.settle
    throw reason
  | _, some value => (← progress.settle).assign argument value
  | _, none => return { ← progress.settle with pending := some (.named argument none) }

def takeOperand (progress : Progress) (path : String) : Except OptionError Progress := do
  if progress.hasOperand then throw .unknown
  return { ← progress.settle with pending := some (.operand path), hasOperand := true }

/-- Take an argument that is the value of an option or an operand. -/
def takePlain (progress : Progress) (text : String) : Except OptionError Progress :=
  match progress.pending with
  | some (.named argument none) =>
    .ok { progress with pending := some (.named argument (some text)) }
  | _ => progress.takeOperand text

end Progress

inductive Form
  | terminator
  | long (name : String) (attached : Option String)
  | short (letter : Char)
  | plain

/-- The form of an argument before `--`.  A dash on its own is plain. -/
def Form.of (argument : String) : Form :=
  match argument.toList with
  | ['-', '-'] => .terminator
  | '-' :: '-' :: rest =>
    let name := rest.takeWhile (· != '=')
    .long (String.ofList name)
      (if name.length < rest.length then some (String.ofList (rest.drop (name.length + 1)))
        else none)
  | '-' :: letter :: _ => .short letter
  | _ => .plain

def take (progress : Progress) (argument : String) : Except OptionError Progress :=
  if progress.onlyOperands then progress.takeOperand argument
  else
    match Form.of argument with
    | .terminator => .ok { progress with onlyOperands := true }
    | .long name attached =>
      match named.find? fun argument => argument.name == name with
      | some argument => progress.takeNamed argument attached
      | none => .error .unknown
    | .short letter =>
      match named.find? fun argument => argument.letter == some letter with
      | some argument => progress.takeNamed argument none
      | none => .error .unknown
    | .plain => progress.takePlain argument

def parse (arguments : List String) : Except OptionError Options := do
  let progress ← (← arguments.foldlM take {}).settle
  return progress.options

def Named.form (argument : Named) : String :=
  let letter := match argument.letter with
    | some letter => String.ofList ['-', letter, ',', ' ']
    | none => "    "
  let value := match argument.effect with
    | .file _ | .number _ =>
      let name := argument.name.toList.map fun char => if char == '-' then '_' else char.toUpper
      " <" ++ String.ofList name ++ ">"
    | .flag _ | .stop _ => ""
  letter ++ "--" ++ argument.name ++ value

def usage : String :=
  let width := (named.map fun argument => argument.form.length).foldl max 0
  let lines := named.map fun argument =>
    let form := argument.form
    "  " ++ form ++ String.ofList (List.replicate (width + 2 - form.length) ' ')
      ++ argument.description ++ "\n"
  "Usage: dbrc [OPTIONS] [CONFIG_PATH]\n\nArguments:\n  [CONFIG_PATH]  Path to config.toml\n\n"
    ++ "Options:\n" ++ String.join lines

def versionLine : String := "dbrc 0.1.0\n"

end Options

end TrieCache
