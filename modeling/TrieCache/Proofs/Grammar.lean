import Mathlib.Data.List.ReduceOption
import TrieCache.Proofs.Hexadecimal
import TrieCache.Proofs.Lines

/-!
# The grammar of traces

A trace is accepted exactly when each of its lines is blank or names an address: two bytes
of any kind that end with a character, then a hexadecimal numeral of a word, with white space
before and behind it.  Otherwise the first line that is neither is reported with its number, or
without one where it is not text at all.
-/

namespace TrieCache.Trace

open Hexadecimal

section Trimming

/-- All of these characters are white space. -/
def Spaces (chars : List Char) : Prop :=
  ∀ char ∈ chars, Blank.isBlank char = true

/-- A text is what a line leaves without the white space at its end. -/
def TrimsEnd (line text : List Char) : Prop :=
  ∃ after, line = text ++ after ∧ Spaces after ∧
    ∀ last, text.getLast? = some last → Blank.isBlank last = false

/-- A text is what a line leaves without the white space at both ends. -/
def Trims (line text : List Char) : Prop :=
  ∃ before after, line = before ++ text ++ after ∧ Spaces before ∧ Spaces after ∧
    (∀ first, text.head? = some first → Blank.isBlank first = false) ∧
      ∀ last, text.getLast? = some last → Blank.isBlank last = false

variable {line text : List Char}

theorem dropWhile_append_of_spaces {before text : List Char} (spaces : Spaces before)
    (solid : ∀ first, text.head? = some first → Blank.isBlank first = false) :
    (before ++ text).dropWhile Blank.isBlank = text := by
  rw [List.dropWhile_append_of_pos spaces]
  cases text with
  | nil => rfl
  | cons first rest => rw [List.dropWhile_cons_of_neg (by simp [solid first rfl])]

theorem trimEnd_append {text after : List Char} (spaces : Spaces after)
    (solid : ∀ last, text.getLast? = some last → Blank.isBlank last = false) :
    Blank.trimEnd (text ++ after) = text := by
  have spaces : Spaces after.reverse := fun char member => spaces char (List.mem_reverse.mp member)
  rw [Blank.trimEnd, List.reverse_append, dropWhile_append_of_spaces spaces ?_, List.reverse_reverse]
  rw [List.head?_reverse]
  exact solid

theorem spaces_takeWhile (chars : List Char) : Spaces (chars.takeWhile Blank.isBlank) :=
  fun _ member => List.mem_takeWhile_imp member

theorem solid_dropWhile (chars : List Char) :
    ∀ first, (chars.dropWhile Blank.isBlank).head? = some first → Blank.isBlank first = false := by
  intro first isFirst
  have solid := List.head?_dropWhile_not Blank.isBlank chars
  rw [isFirst] at solid
  simpa using solid

theorem trimsEnd_trimEnd (line : List Char) : TrimsEnd line (Blank.trimEnd line) := by
  refine ⟨(line.reverse.takeWhile Blank.isBlank).reverse, ?_, ?_, ?_⟩
  · rw [Blank.trimEnd, ← List.reverse_append, List.takeWhile_append_dropWhile, List.reverse_reverse]
  · intro char member
    exact spaces_takeWhile _ char (List.mem_reverse.mp member)
  · rw [Blank.trimEnd, List.getLast?_reverse]
    exact solid_dropWhile _

theorem trimsEnd_iff : TrimsEnd line text ↔ Blank.trimEnd line = text := by
  constructor
  · rintro ⟨after, rfl, spaces, solid⟩
    exact trimEnd_append spaces solid
  · rintro rfl
    exact trimsEnd_trimEnd line

theorem trims_trim (line : List Char) : Trims line (Blank.trim line) := by
  obtain ⟨after, split, spaces, solid⟩ := trimsEnd_trimEnd line
  have parts : (Blank.trimEnd line).takeWhile Blank.isBlank ++ Blank.trim line =
      Blank.trimEnd line :=
    List.takeWhile_append_dropWhile
  refine ⟨(Blank.trimEnd line).takeWhile Blank.isBlank, after, ?_, ?_, spaces, ?_, ?_⟩
  · rw [parts]
    exact split
  · exact spaces_takeWhile _
  · exact solid_dropWhile _
  · intro last isLast
    apply solid last
    rw [← parts, List.getLast?_append, isLast]
    rfl

theorem trims_iff : Trims line text ↔ Blank.trim line = text := by
  constructor
  · rintro ⟨before, after, rfl, spaces, spaces', solid, solid'⟩
    by_cases nothing : text = []
    · subst nothing
      have blank : Spaces (before ++ after) := List.forall_mem_append.mpr ⟨spaces, spaces'⟩
      rw [List.append_nil, ← List.nil_append (before ++ after), Blank.trim,
        trimEnd_append blank (by simp)]
      rfl
    · rw [Blank.trim, trimEnd_append spaces' ?_]
      · exact dropWhile_append_of_spaces spaces solid
      · intro last isLast
        rw [List.getLast?_append_of_ne_nil before nothing] at isLast
        exact solid' last isLast
  · rintro rfl
    exact trims_trim line

end Trimming

section Contents

/-- What a line tells: nothing if it is blank, else the address behind its lead. -/
inductive Tells : (line : List Char) → (content : Option Address) → Prop
  | blank {line : List Char} : Spaces line → Tells line none
  | address {line lead rest text : List Char} {address : Address} :
    TrimsEnd line (lead ++ rest) → (lead.map Char.utf8Size).sum = leadBytes → Trims rest text →
      Denotes text address.toNat → Tells line (some address)

/-- Why a line tells nothing. -/
inductive Offends : (line : List Char) → LineError → Prop
  | tooShort {line text : List Char} :
    ¬ Spaces line → TrimsEnd line text →
      (∀ lead rest, text = lead ++ rest → (lead.map Char.utf8Size).sum ≠ leadBytes) →
        Offends line (.tooShort text)
  | badAddress {line lead rest text : List Char} {reason : ReadError} :
    ¬ Spaces line → TrimsEnd line (lead ++ rest) → (lead.map Char.utf8Size).sum = leadBytes →
      Trims rest text → Faulty text reason → Offends line (.badAddress rest reason)

variable {line : List Char} {content : Option Address} {error : LineError}

theorem dropBytes_eq_some_iff {count : Nat} {chars rest : List Char} :
    dropBytes count chars = some rest ↔
      ∃ lead, chars = lead ++ rest ∧ (lead.map Char.utf8Size).sum = count := by
  fun_induction dropBytes count chars with
  | case1 chars =>
    constructor
    · rintro ⟨⟩
      exact ⟨[], rfl, rfl⟩
    · rintro ⟨lead, rfl, size⟩
      cases lead with
      | nil => rfl
      | cons char lead =>
        have positive := char.utf8Size_pos
        simp at size
        omega
  | case2 count =>
    refine iff_of_false nofun ?_
    rintro ⟨lead, nothing, size⟩
    obtain ⟨rfl, -⟩ := List.append_eq_nil_iff.mp nothing.symm
    cases size
  | case3 count char chars fits ih =>
    rw [ih]
    constructor
    · rintro ⟨lead, rfl, size⟩
      refine ⟨char :: lead, rfl, ?_⟩
      rw [List.map_cons, List.sum_cons, size]
      exact Nat.add_sub_cancel' fits
    · rintro ⟨lead, split, size⟩
      cases lead with
      | nil => cases size
      | cons _ lead =>
        cases split
        rw [List.map_cons, List.sum_cons] at size
        exact ⟨lead, rfl, by omega⟩
  | case4 count char chars exceeds =>
    refine iff_of_false nofun ?_
    rintro ⟨lead, split, size⟩
    cases lead with
    | nil => cases size
    | cons _ lead =>
      cases split
      rw [List.map_cons, List.sum_cons] at size
      omega

theorem dropBytes_eq_none_iff {count : Nat} {chars : List Char} :
    dropBytes count chars = none ↔
      ∀ lead rest, chars = lead ++ rest → (lead.map Char.utf8Size).sum ≠ count := by
  rw [Option.eq_none_iff_forall_ne_some]
  constructor
  · intro short lead rest split size
    exact short rest (dropBytes_eq_some_iff.mpr ⟨lead, split, size⟩)
  · intro short rest drops
    obtain ⟨lead, split, size⟩ := dropBytes_eq_some_iff.mp drops
    exact short lead rest split size

theorem trimEnd_eq_nil_iff : Blank.trimEnd line = [] ↔ Spaces line := by
  rw [Blank.trimEnd, List.reverse_eq_nil_iff, List.dropWhile_eq_nil_iff]
  simp only [List.mem_reverse]
  rfl

theorem parseLine_of_not_spaces (solid : ¬ Spaces line) :
    parseLine line = (readAddress (Blank.trimEnd line)).map some := by
  have nonempty : ¬ (Blank.trimEnd line).isEmpty = true := by
    rw [List.isEmpty_iff, trimEnd_eq_nil_iff]
    exact solid
  rw [parseLine, if_neg nonempty]

theorem parseLine_of_spaces (spaces : Spaces line) : parseLine line = .ok none := by
  rw [parseLine, if_pos (List.isEmpty_iff.mpr (trimEnd_eq_nil_iff.mpr spaces))]

theorem parseLine_of_tells (tells : Tells line content) : parseLine line = .ok content := by
  cases tells with
  | blank spaces => exact parseLine_of_spaces spaces
  | @address lead rest text address trimsEnd size trims denotes =>
    have drops : dropBytes leadBytes (lead ++ rest) = some rest :=
      dropBytes_eq_some_iff.mpr ⟨lead, rfl, size⟩
    have reads := read_eq_ok_iff.mpr ⟨denotes, address.toNat_lt⟩
    have solid : ¬ Spaces line := by
      intro spaces
      rw [← trimEnd_eq_nil_iff, trimsEnd_iff.mp trimsEnd, List.append_eq_nil_iff] at spaces
      rw [spaces.1] at size
      cases size
    rw [parseLine_of_not_spaces solid, trimsEnd_iff.mp trimsEnd, readAddress, drops]
    dsimp only
    rw [trims_iff.mp trims, reads]
    dsimp only
    rw [UInt64.ofNat_toNat]
    rfl

theorem parseLine_of_offends (offends : Offends line error) : parseLine line = .error error := by
  cases offends with
  | tooShort solid trimsEnd short =>
    rw [parseLine_of_not_spaces solid, trimsEnd_iff.mp trimsEnd, readAddress,
      dropBytes_eq_none_iff.mpr short]
    rfl
  | @badAddress lead rest text reason solid trimsEnd size trims faulty =>
    have drops : dropBytes leadBytes (lead ++ rest) = some rest :=
      dropBytes_eq_some_iff.mpr ⟨lead, rfl, size⟩
    rw [parseLine_of_not_spaces solid, trimsEnd_iff.mp trimsEnd, readAddress, drops]
    dsimp only
    rw [trims_iff.mp trims, read_eq_error_iff.mpr faulty]
    rfl

theorem tells_or_offends (line : List Char) :
    (∃ content, Tells line content) ∨ ∃ error, Offends line error := by
  by_cases spaces : Spaces line
  · exact .inl ⟨none, .blank spaces⟩
  have trimsEnd := trimsEnd_trimEnd line
  cases drops : dropBytes leadBytes (Blank.trimEnd line) with
  | none => exact .inr ⟨_, .tooShort spaces trimsEnd (dropBytes_eq_none_iff.mp drops)⟩
  | some rest =>
    obtain ⟨lead, split, size⟩ := dropBytes_eq_some_iff.mp drops
    rw [split] at trimsEnd
    cases reads : read (Blank.trim rest) with
    | error reason =>
      have faulty := read_eq_error_iff.mp reads
      exact .inr ⟨_, .badAddress spaces trimsEnd size (trims_trim rest) faulty⟩
    | ok number =>
      obtain ⟨denotes, fits⟩ := read_eq_ok_iff.mp reads
      have word : (UInt64.ofNat number).toNat = number := UInt64.toNat_ofNat_of_lt' fits
      exact .inl ⟨some (UInt64.ofNat number),
        .address trimsEnd size (trims_trim rest) (word.symm ▸ denotes)⟩

theorem parseLine_eq_ok_iff : parseLine line = .ok content ↔ Tells line content := by
  constructor
  · intro accepted
    rcases tells_or_offends line with ⟨_, tells⟩ | ⟨_, offends⟩
    · rw [parseLine_of_tells tells] at accepted
      cases accepted
      exact tells
    · rw [parseLine_of_offends offends] at accepted
      cases accepted
  · exact parseLine_of_tells

theorem parseLine_eq_error_iff : parseLine line = .error error ↔ Offends line error := by
  constructor
  · intro refused
    rcases tells_or_offends line with ⟨_, tells⟩ | ⟨_, offends⟩
    · rw [parseLine_of_tells tells] at refused
      cases refused
    · rw [parseLine_of_offends offends] at refused
      cases refused
      exact offends
  · exact parseLine_of_offends

end Contents

section Traces

/-- A line of bytes is text and tells something. -/
def Holds (line : List UInt8) (content : Option Address) : Prop :=
  ∃ chars, bytesOf (String.ofList chars) = line ∧ Tells chars content

/-- Why a trace is refused at a line of the given number. -/
inductive Fails (number : Nat) : (line : List UInt8) → Error → Prop
  | notText {line : List UInt8} :
    (∀ chars, bytesOf (String.ofList chars) ≠ line) → Fails number line .notText
  | offends {chars : List Char} {error : LineError} :
    Offends chars error → Fails number (bytesOf (String.ofList chars)) (.line number error)

variable {number : Nat} {addresses : List Address} {bytes line : List UInt8}
  {good rest cut : List (List UInt8)} {content : Option Address} {contents : List (Option Address)}
  {error : Error}

theorem parseLines_of_holds (holds : Holds line content) (number : Nat) (found : List Address)
    (rest : List (List UInt8)) :
    parseLines number found (line :: rest) =
      parseLines (number + 1) (content.toList ++ found) rest := by
  obtain ⟨chars, encodes, tells⟩ := holds
  rw [parseLines, decode_eq_some_iff.mpr encodes]
  dsimp only
  rw [parseLine_eq_ok_iff.mpr tells]
  cases content <;> rfl

theorem parseLines_of_fails (fails : Fails number line error) (found : List Address)
    (rest : List (List UInt8)) : parseLines number found (line :: rest) = .error error := by
  cases fails with
  | notText foreign =>
    have unread : decode line = none := by
      rw [Option.eq_none_iff_forall_ne_some]
      intro chars reads
      exact foreign chars (decode_eq_some_iff.mp reads)
    rw [parseLines, unread]
  | offends offends =>
    rw [parseLines, decode_eq_some_iff.mpr rfl]
    dsimp only
    rw [parseLine_eq_error_iff.mpr offends]

theorem parseLines_append (holds : List.Forall₂ Holds good contents) (number : Nat)
    (found : List Address) (rest : List (List UInt8)) :
    parseLines number found (good ++ rest) =
      parseLines (good.length + number) (contents.reduceOption.reverse ++ found) rest := by
  induction holds generalizing number found with
  | nil => rw [List.length_nil, Nat.zero_add]; rfl
  | @cons line content good contents first _ ih =>
    have number_eq : good.length + (number + 1) = (line :: good).length + number := by
      rw [List.length_cons, Nat.add_assoc, Nat.add_comm 1]
    rw [List.cons_append, parseLines_of_holds first, ih, number_eq]
    cases content with
    | none => rw [List.reduceOption_cons_of_none, Option.toList_none, List.nil_append]
    | some address =>
      rw [List.reduceOption_cons_of_some, List.reverse_cons, Option.toList_some, List.append_assoc]

theorem holds_or_fails (number : Nat) (line : List UInt8) :
    (∃ content, Holds line content) ∨ ∃ error, Fails number line error := by
  cases reads : decode line with
  | none =>
    refine .inr ⟨_, .notText ?_⟩
    intro chars encodes
    rw [decode_eq_some_iff.mpr encodes] at reads
    cases reads
  | some chars =>
    obtain rfl := decode_eq_some_iff.mp reads
    cases answer : parseLine chars with
    | ok content => exact .inl ⟨content, chars, rfl, parseLine_eq_ok_iff.mp answer⟩
    | error error => exact .inr ⟨_, .offends (parseLine_eq_error_iff.mp answer)⟩

/-- Every line tells something, or there is a first one that does not. -/
theorem holds_or_first_fails (number : Nat) (cut : List (List UInt8)) :
    (∃ contents, List.Forall₂ Holds cut contents) ∨ ∃ good bad rest contents error,
      cut = good ++ bad :: rest ∧ List.Forall₂ Holds good contents ∧
        Fails (good.length + number) bad error := by
  induction cut generalizing number with
  | nil => exact .inl ⟨[], .nil⟩
  | cons line cut ih =>
    rcases holds_or_fails number line with ⟨content, holds⟩ | ⟨error, fails⟩
    · rcases ih (number + 1) with ⟨contents, all⟩ | ⟨good, bad, rest, contents, error, rfl, all, fails⟩
      · exact .inl ⟨content :: contents, .cons holds all⟩
      · rw [Nat.add_comm number, ← Nat.add_assoc] at fails
        exact .inr ⟨line :: good, bad, rest, content :: contents, error, rfl, .cons holds all, fails⟩
    · rw [← Nat.zero_add number] at fails
      exact .inr ⟨[], line, cut, [], error, rfl, .nil, fails⟩

theorem parse_of_holds (all : List.Forall₂ Holds (lines bytes) contents) :
    parse bytes = .ok contents.reduceOption := by
  have reads := parseLines_append all 1 [] []
  rw [List.append_nil] at reads
  rw [parse, reads, parseLines, List.append_nil, List.reverse_reverse]

theorem parse_of_fails (split : lines bytes = good ++ line :: rest)
    (all : List.Forall₂ Holds good contents) (fails : Fails (good.length + 1) line error) :
    parse bytes = .error error := by
  rw [parse, split, parseLines_append all, parseLines_of_fails fails]

theorem parse_eq_ok_iff : parse bytes = .ok addresses ↔
    ∃ contents, List.Forall₂ Holds (lines bytes) contents ∧ addresses = contents.reduceOption := by
  constructor
  · intro accepted
    rcases holds_or_first_fails 1 (lines bytes) with
      ⟨contents, all⟩ | ⟨good, bad, rest, contents, error, split, all, fails⟩
    · rw [parse_of_holds all] at accepted
      cases accepted
      exact ⟨contents, all, rfl⟩
    · rw [parse_of_fails split all fails] at accepted
      cases accepted
  · rintro ⟨contents, all, rfl⟩
    exact parse_of_holds all

theorem parse_eq_error_iff : parse bytes = .error error ↔ ∃ good bad rest contents,
    lines bytes = good ++ bad :: rest ∧ List.Forall₂ Holds good contents ∧
      Fails (good.length + 1) bad error := by
  constructor
  · intro refused
    rcases holds_or_first_fails 1 (lines bytes) with
      ⟨contents, all⟩ | ⟨good, bad, rest, contents, reported, split, all, fails⟩
    · rw [parse_of_holds all] at refused
      cases refused
    · rw [parse_of_fails split all fails] at refused
      cases refused
      exact ⟨good, bad, rest, contents, split, all, fails⟩
  · rintro ⟨good, bad, rest, contents, split, all, fails⟩
    exact parse_of_fails split all fails

/-- A byte stream is a trace exactly when all of its lines, cut in the one way there is, are blank
or name an address, and then it is read as these addresses in turn.  Another stream is refused
with what is wrong with the first line at fault. -/
theorem parse_iff_of_splits (bytes : List UInt8) : ∃ cut,
    (∀ other, Splits bytes other ↔ other = cut) ∧
    (∀ addresses, parse bytes = .ok addresses ↔
      ∃ contents, List.Forall₂ Holds cut contents ∧ addresses = contents.reduceOption) ∧
    ∀ error, parse bytes = .error error ↔ ∃ good bad rest contents,
      cut = good ++ bad :: rest ∧ List.Forall₂ Holds good contents ∧
        Fails (good.length + 1) bad error := by
  refine ⟨lines bytes, ?_, ?_, ?_⟩
  · intro other
    rw [splits_iff, eq_comm]
  · intro addresses
    exact parse_eq_ok_iff
  · intro error
    exact parse_eq_error_iff

end Traces

end TrieCache.Trace
