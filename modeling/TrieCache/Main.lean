import TrieCache.Simulation

/-!
# The program

Runs a simulation on the files of the machine.
-/

namespace TrieCache

def machineFiles : Files IO where
  read path := do
    try
      return .ok (← IO.FS.readBinFile path).data.toList
    catch
      | .noFileOrDirectory .. => return .error .notFound
      | .inappropriateType .. => return .error .directory
      | error => return .error (.other (toString error))
  write path text := do
    try
      IO.FS.writeFile path text
      return true
    catch _ => return false

def Ending.notice : Ending → Option String
  | .finished | .refused .help | .refused .version => none
  | .failed messages => some ("Error: " ++ "\n\nCaused by:\n    ".intercalate messages)
  | .faulted fault => some fault.message
  | .refused error => some ("error: " ++ error.message)

end TrieCache

/-- Run the program with the arguments of the command line. -/
def main (arguments : List String) : IO UInt32 := do
  let outcome ← TrieCache.Simulation.run TrieCache.machineFiles arguments
  IO.print outcome.output
  match outcome.ending.notice with
  | some notice => IO.eprintln notice
  | none => pure ()
  return UInt32.ofNat outcome.ending.code
