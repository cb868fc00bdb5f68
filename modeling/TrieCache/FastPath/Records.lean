/-!
# Insertion records

A queue of the insertions into a fast-path table, oldest first.  It is kept as two
lists, so that both ends are at hand, together with its length.
-/

namespace TrieCache

/-- One insertion: a tag and the sequence number it was given. -/
structure Record where
  tag : Nat
  sequence : Nat
  deriving DecidableEq, Repr

structure Records where
  /-- The older records, oldest first. -/
  front : List Record := []
  /-- The newer records, newest first. -/
  back : List Record := []
  length : Nat := front.length + back.length
  length_eq : length = front.length + back.length := by rfl

namespace Records

def toList (records : Records) : List Record :=
  records.front ++ records.back.reverse

/-- The queue of a list of records, oldest first. -/
def ofList (records : List Record) : Records :=
  { front := records }

def empty : Records := ofList []

theorem length_toList (records : Records) : records.toList.length = records.length := by
  simp [toList, records.length_eq]

@[simp]
theorem toList_ofList (records : List Record) : (ofList records).toList = records := by
  simp [toList, ofList]

def push (records : Records) (record : Record) : Records :=
  { front := records.front
    back := record :: records.back
    length := records.length + 1
    length_eq := by rw [records.length_eq]; rfl }

@[simp]
theorem toList_push (records : Records) (record : Record) :
    (records.push record).toList = records.toList ++ [record] := by
  simp [toList, push]

def filter (records : Records) (keep : Record → Bool) : Records :=
  ofList (records.toList.filter keep)

@[simp]
theorem toList_filter (records : Records) (keep : Record → Bool) :
    (records.filter keep).toList = records.toList.filter keep := by
  simp [filter]

/-- Take records off the old end up to and including the first that satisfies a
condition. -/
def popUntil (records : Records) (stop : Record → Bool) : Option Record × Records :=
  match records.front.dropWhile fun record => !stop record with
  | record :: front =>
    (some record,
      { front, back := records.back, length := front.length + records.back.length })
  | [] =>
    match records.back.reverse.dropWhile fun record => !stop record with
    | record :: front => (some record, ofList front)
    | [] => (none, empty)

end Records

end TrieCache
