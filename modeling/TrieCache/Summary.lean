import TrieCache.Decimal.Shortest
import TrieCache.Replay

/-!
# Run summaries

The report and the statistics of a run as a JSON text, indented by two spaces.
-/

namespace TrieCache

/-- The share of accesses that hit, in decimal; zero before the first access. -/
def Stats.hitRatio (stats : Stats) : String :=
  if stats.accesses = 0 ∨ stats.hits = 0 then Decimal.zeroText
  else (Decimal.shortest (.div (.ofNat stats.hits) (.ofNat stats.accesses))).text

structure Summary where
  report : Report
  stats : Stats
  deriving DecidableEq, Repr

namespace Summary

def field (depth : Nat) (name value : String) : String :=
  String.ofList (List.replicate (2 * depth) ' ') ++ "\"" ++ name ++ "\": " ++ value

def object (depth : Nat) (fields : List (String × String)) : String :=
  "\x7b\n" ++ ",\n".intercalate (fields.map fun (name, value) => field (depth + 1) name value)
    ++ "\n" ++ String.ofList (List.replicate (2 * depth) ' ') ++ "\x7d"

/-- The counters of a report with their names. -/
def reportFields (report : Report) : List (String × Nat) :=
  [("misses", report.misses), ("total", report.total)]

def counters (fields : List (String × Nat)) : String :=
  object 1 (fields.map fun (name, count) => (name, toString count))

def text (summary : Summary) : String :=
  object 0
    [("report", counters (reportFields summary.report)),
      ("hit_ratio", summary.stats.hitRatio),
      ("stats", counters summary.stats.toList)]

end Summary

end TrieCache
