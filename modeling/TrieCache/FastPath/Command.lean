import TrieCache.FastPath

/-!
# Commands for a fast path

The operations of a fast-path table as data, so that runs are lists of them.
-/

namespace TrieCache.FastPath

inductive Command
  | insert (tag target : Nat)
  | remove (tag : Nat)
  | lookup (tag : Nat)
  | contains (tag : Nat)
  deriving DecidableEq, Repr

inductive Reply
  | evicted (tag : Option Nat)
  | removed (target : Option Nat)
  | found (target : Option Nat)
  | present (answer : Bool)
  deriving DecidableEq, Repr

def run (table : FastPath) : Command → Checked (Reply × FastPath)
  | .insert tag target => do
    let (evicted, table) ← table.insert tag target
    return (.evicted evicted, table)
  | .remove tag =>
    let (removed, table) := table.remove tag
    .ok (.removed removed, table)
  | .lookup tag => .ok (.found (table.lookup tag), table)
  | .contains tag => .ok (.present (table.contains tag), table)

def runAll (table : FastPath) : List Command → Checked (List Reply × FastPath)
  | [] => .ok ([], table)
  | command :: commands => do
    let (reply, table) ← table.run command
    let (replies, table) ← table.runAll commands
    return (reply :: replies, table)

end TrieCache.FastPath
