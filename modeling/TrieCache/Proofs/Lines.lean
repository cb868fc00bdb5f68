import Mathlib.Data.List.TakeWhile
import TrieCache.Trace

/-!
# Lines of a byte stream

A byte stream is cut after each of its line feeds, and in one way only.  A line loses its line
feed and one carriage return before it.  What follows the last line feed is a line as it
stands, unless nothing follows.  A line is text if it is the UTF-8 form of some characters,
which are then the only ones.
-/

namespace TrieCache.Trace

/-- The lines that a byte stream is cut into. -/
inductive Splits : (bytes : List UInt8) → (cut : List (List UInt8)) → Prop
  | nil : Splits [] []
  | last {line : List UInt8} : lineFeed ∉ line → line ≠ [] → Splits line [line]
  | returned {line rest : List UInt8} {cut : List (List UInt8)} :
    lineFeed ∉ line → Splits rest cut →
      Splits (line ++ carriageReturn :: lineFeed :: rest) (line :: cut)
  | fed {line rest : List UInt8} {cut : List (List UInt8)} :
    lineFeed ∉ line → line.getLast? ≠ some carriageReturn → Splits rest cut →
      Splits (line ++ lineFeed :: rest) (line :: cut)

variable {bytes line : List UInt8} {cut : List (List UInt8)}

section Cuts

theorem dropReturn_concat (line : List UInt8) : dropReturn (line ++ [carriageReturn]) = line := by
  simp [dropReturn]

theorem lines_nil : lines [] = [] := by
  rw [lines]
  rfl

theorem passed_of_not_mem (unfed : lineFeed ∉ line) : ∀ byte ∈ line, (byte != lineFeed) = true := by
  intro byte member
  rw [bne_iff_ne]
  rintro rfl
  exact unfed member

theorem lines_of_not_mem (unfed : lineFeed ∉ line) (nonempty : line ≠ []) :
    lines line = [line] := by
  have whole : line.dropWhile (· != lineFeed) = [] :=
    List.dropWhile_eq_nil_iff.mpr (passed_of_not_mem unfed)
  rw [lines]
  split
  · simp [nonempty]
  next split => simp [whole] at split

/-- The first line feed ends the first line. -/
theorem lines_append_lineFeed (unfed : lineFeed ∉ line) (rest : List UInt8) :
    lines (line ++ lineFeed :: rest) = dropReturn line :: lines rest := by
  have passed := passed_of_not_mem unfed
  have front : (line ++ lineFeed :: rest).takeWhile (· != lineFeed) = line := by
    simp [List.takeWhile_append_of_pos passed]
  have back : (line ++ lineFeed :: rest).dropWhile (· != lineFeed) = lineFeed :: rest := by
    simp [List.dropWhile_append_of_pos passed]
  rw [lines]
  split
  next split => simp [back] at split
  next split =>
    rw [back] at split
    cases split
    rw [front]

theorem lines_of_splits (splits : Splits bytes cut) : lines bytes = cut := by
  induction splits with
  | nil => exact lines_nil
  | last unfed nonempty => exact lines_of_not_mem unfed nonempty
  | @returned line rest cut unfed _ ih =>
    have unfed' : lineFeed ∉ line ++ [carriageReturn] :=
      List.not_mem_append unfed (by decide)
    have first := lines_append_lineFeed unfed' rest
    rw [List.append_assoc, List.singleton_append] at first
    rw [first, dropReturn_concat, ih]
  | fed unfed unreturned _ ih =>
    rw [lines_append_lineFeed unfed, ih, dropReturn, if_neg unreturned]

theorem splits_lines (bytes : List UInt8) : Splits bytes (lines bytes) := by
  induction size : bytes.length using Nat.strong_induction_on generalizing bytes with
  | _ size ih =>
    by_cases fed : lineFeed ∈ bytes
    · obtain ⟨line, rest, rfl, unfed⟩ := List.eq_append_cons_of_mem fed
      have splits := ih rest.length (by simp at size; omega) rest rfl
      rw [lines_append_lineFeed unfed]
      by_cases returned : line.getLast? = some carriageReturn
      · obtain ⟨front, rfl⟩ := List.getLast?_eq_some_iff.mp returned
        have unfed' : lineFeed ∉ front := fun member => unfed (List.mem_append_left _ member)
        rw [dropReturn_concat, List.append_assoc, List.singleton_append]
        exact .returned unfed' splits
      · rw [dropReturn, if_neg returned]
        exact .fed unfed returned splits
    · by_cases nonempty : bytes = []
      · subst nonempty
        rw [lines_nil]
        exact .nil
      · rw [lines_of_not_mem fed nonempty]
        exact .last fed nonempty

theorem splits_iff : Splits bytes cut ↔ lines bytes = cut := by
  constructor
  · exact lines_of_splits
  · rintro rfl
    exact splits_lines bytes

end Cuts

section Decoding

variable {chars : List Char}

/-- A line is read as the characters that it is the UTF-8 form of. -/
theorem decode_eq_some_iff : decode line = some chars ↔ bytesOf (String.ofList chars) = line := by
  rw [decode, String.fromUTF8?]
  constructor
  · intro read
    split at read
    next valid =>
      simp at read
      subst read
      rw [String.ofList_toList]
      rfl
    next => cases read
  · rintro rfl
    have valid : (ByteArray.mk (bytesOf (String.ofList chars)).toArray).IsValidUTF8 :=
      ⟨chars, rfl⟩
    rw [dif_pos valid]
    change some (String.ofList chars).toList = some chars
    rw [String.toList_ofList]

end Decoding

end TrieCache.Trace
