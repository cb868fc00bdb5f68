import TrieCache.Proofs.Grammar
import TrieCache.Proofs.Traffic

/-!
# Written traces

The text that is written for a list of addresses is a trace of the grammar, whose lines name
these addresses.  So reading it gives them back, whatever words they are.  Random addresses
are such a list, unless the list itself has no room.
-/

namespace TrieCache

namespace Hexadecimal

variable {char : Char} {number : Nat}

theorem digitChar_eq : ∀ digit < 16, digitChar digit = digit.digitChar := by
  decide

theorem isDigit_digitChar : ∀ digit < 16, IsDigit (digitChar digit) digit := by
  unfold IsDigit
  decide

theorem digits_eq_toDigits (number : Nat) : digits number = Nat.toDigits 16 number := by
  induction number using digits.induct with
  | case1 number small =>
    rw [digits, if_pos small, Nat.toDigits_of_lt_base small, digitChar_eq number small]
  | case2 number large ih =>
    rw [digits, if_neg large, ih, Nat.toDigits_of_base_le (by decide) (Nat.not_lt.mp large),
      digitChar_eq _ (Nat.mod_lt _ (by decide))]

theorem exists_isDigits (number : Nat) :
    ∃ values, List.Forall₂ IsDigit (digits number) values ∧ numeral 16 0 values = number := by
  induction number using digits.induct with
  | case1 number small =>
    rw [digits, if_pos small]
    refine ⟨[number], .cons (isDigit_digitChar number small) .nil, ?_⟩
    exact Nat.zero_add number
  | case2 number large ih =>
    obtain ⟨values, isDigits, denotes⟩ := ih
    have last := isDigit_digitChar (number % 16) (Nat.mod_lt _ (by decide))
    rw [digits, if_neg large]
    refine ⟨values ++ [number % 16], List.rel_append isDigits (.cons last .nil), ?_⟩
    rw [numeral_concat, denotes]
    omega

theorem digits_ne_nil (number : Nat) : digits number ≠ [] := by
  rw [digits]
  split <;> simp

theorem denotes_digits (number : Nat) : Denotes (digits number) number := by
  obtain ⟨values, isDigits, denotes⟩ := exists_isDigits number
  have denoted := Denotes.unsigned (digits_ne_nil number) isDigits
  rwa [denotes] at denoted

theorem exists_digitChar (member : char ∈ digits number) : ∃ digit < 16, char = digitChar digit := by
  induction number using digits.induct with
  | case1 number small =>
    rw [digits, if_pos small, List.mem_singleton] at member
    exact ⟨number, small, member⟩
  | case2 number large ih =>
    rw [digits, if_neg large, List.mem_append, List.mem_singleton] at member
    rcases member with front | last
    · exact ih front
    · exact ⟨number % 16, Nat.mod_lt _ (by decide), last⟩

theorem isBlank_digitChar : ∀ digit < 16, Blank.isBlank (digitChar digit) = false := by
  decide

theorem isBlank_of_mem_digits (member : char ∈ digits number) : Blank.isBlank char = false := by
  obtain ⟨digit, small, rfl⟩ := exists_digitChar member
  exact isBlank_digitChar digit small

end Hexadecimal

namespace Trace

open Hexadecimal

section Lines

/-- A line as it is written for an address, without its end. -/
def writtenLine (address : Address) : List Char :=
  '0' :: 'x' :: digits address.toNat

theorem tells_writtenLine (address : Address) : Tells (writtenLine address) (some address) := by
  have solid : ∀ char ∈ digits address.toNat, Blank.isBlank char = false :=
    fun _ member => isBlank_of_mem_digits member
  have trimsEnd : TrimsEnd (writtenLine address) (['0', 'x'] ++ digits address.toNat) := by
    refine ⟨[], (List.append_nil _).symm, nofun, ?_⟩
    intro last isLast
    rw [List.getLast?_append_of_ne_nil _ (digits_ne_nil _)] at isLast
    exact solid last (List.mem_of_getLast? isLast)
  have trims : Trims (digits address.toNat) (digits address.toNat) := by
    refine ⟨[], [], (List.append_nil _).symm, nofun, nofun, ?_, ?_⟩
    · intro first isFirst
      exact solid first (List.mem_of_head? isFirst)
    · intro last isLast
      exact solid last (List.mem_of_getLast? isLast)
  exact .address trimsEnd rfl trims (denotes_digits address.toNat)

/-- The characters that are written take a byte each, which ends no line. -/
theorem not_ends_digitChar : ∀ digit < 16,
    lineFeed ∉ String.utf8EncodeChar (digitChar digit) ∧
      carriageReturn ∉ String.utf8EncodeChar (digitChar digit) := by
  decide

theorem bytesOf_eq_flatMap (chars : List Char) :
    bytesOf (String.ofList chars) = chars.flatMap String.utf8EncodeChar :=
  List.toList_data_toByteArray

theorem bytesOf_append (front back : List Char) :
    bytesOf (String.ofList (front ++ back)) =
      bytesOf (String.ofList front) ++ bytesOf (String.ofList back) := by
  rw [bytesOf_eq_flatMap, bytesOf_eq_flatMap, bytesOf_eq_flatMap, List.flatMap_append]

theorem not_mem_writtenLine (address : Address) :
    lineFeed ∉ bytesOf (String.ofList (writtenLine address)) ∧
      carriageReturn ∉ bytesOf (String.ofList (writtenLine address)) := by
  have apart : ∀ char ∈ writtenLine address,
      lineFeed ∉ String.utf8EncodeChar char ∧ carriageReturn ∉ String.utf8EncodeChar char := by
    intro char member
    rcases List.mem_cons.mp member with rfl | member
    · decide
    · rcases List.mem_cons.mp member with rfl | member
      · decide
      · obtain ⟨digit, small, rfl⟩ := exists_digitChar member
        exact not_ends_digitChar digit small
  rw [bytesOf_eq_flatMap, List.mem_flatMap, List.mem_flatMap]
  constructor
  · rintro ⟨char, member, ends⟩
    exact (apart char member).1 ends
  · rintro ⟨char, member, ends⟩
    exact (apart char member).2 ends

end Lines

section Texts

theorem bytesOf_print_cons (address : Address) (rest : List Address) :
    bytesOf (print (address :: rest)) =
      bytesOf (String.ofList (writtenLine address)) ++ lineFeed :: bytesOf (print rest) := by
  have split : printLine address = writtenLine address ++ ['\n'] := rfl
  rw [print, List.flatMap_cons, split, bytesOf_append, bytesOf_append, List.append_assoc]
  rfl

theorem splits_print (addresses : List Address) :
    Splits (bytesOf (print addresses))
      (addresses.map fun address => bytesOf (String.ofList (writtenLine address))) := by
  induction addresses with
  | nil => exact .nil
  | cons address rest ih =>
    obtain ⟨unfed, unreturned⟩ := not_mem_writtenLine address
    rw [bytesOf_print_cons, List.map_cons]
    refine .fed unfed ?_ ih
    intro returned
    exact unreturned (List.mem_of_getLast? returned)

theorem holds_print (addresses : List Address) :
    List.Forall₂ Holds (addresses.map fun address => bytesOf (String.ofList (writtenLine address)))
      (addresses.map some) := by
  rw [List.forall₂_map_left_iff, List.forall₂_map_right_iff, List.forall₂_same]
  intro address _
  exact ⟨writtenLine address, rfl, tells_writtenLine address⟩

theorem parse_print (addresses : List Address) : parse (bytesOf (print addresses)) = .ok addresses := by
  have all := holds_print addresses
  rw [← splits_iff.mp (splits_print addresses)] at all
  rw [parse_of_holds all, List.reduceOption]
  simp

theorem toList_print (addresses : List Address) :
    (print addresses).toList =
      addresses.flatMap fun address => '0' :: 'x' :: (Nat.toDigits 16 address.toNat ++ ['\n']) := by
  have each (address : Address) : printLine address = '0' :: 'x' ::
      (Nat.toDigits 16 address.toNat ++ ['\n']) := by
    rw [printLine, digits_eq_toDigits]
  rw [print, String.toList_ofList, funext each]

/-- Addresses are written in lower-case hexadecimal, one a line, and read back as they were.  This
goes for all lists of words, and so for the random addresses of a range within the word, of
which there is no list only where it has no room. -/
theorem parse_traceText (traffic : Traffic) (fits : traffic.Fits) :
    (∀ addresses : List Address,
      (print addresses).toList =
        addresses.flatMap (fun address => '0' :: 'x' :: (Nat.toDigits 16 address.toNat ++ ['\n'])) ∧
      parse (bytesOf (print addresses)) = .ok addresses) ∧
    ((∃ addresses text, traffic.generate = .ok addresses ∧ addresses.length = traffic.length ∧
        traffic.traceText = .ok text ∧ parse (bytesOf text) = .ok addresses) ∨
      (2 ^ 63 ≤ 8 * traffic.length ∧ traffic.generate = .error .noRoom ∧
        traffic.traceText = .error .noRoom)) := by
  constructor
  · intro addresses
    exact ⟨toList_print addresses, parse_print addresses⟩
  · rcases Nat.lt_or_ge (8 * traffic.length) (2 ^ 63) with room | crowd
    · obtain ⟨addresses, generates, length_eq, _⟩ := Traffic.generate_of_room .chaCha fits room
      refine .inl ⟨addresses, print addresses, generates, length_eq, ?_, parse_print addresses⟩
      rw [Traffic.traceText, generates]
      rfl
    · have refused := Traffic.generate_of_crowd .chaCha crowd
      refine .inr ⟨crowd, refused, ?_⟩
      rw [Traffic.traceText, refused]
      rfl

/-- Random addresses at the end of the word, and the first and the last word there is. -/
theorem parse_traceText_of_last :
    Traffic.Fits { length := 2, base := 18446744073709551615, footprint := 0 } ∧
    (print [0, 18446744073709551615]).toList = "0x0\n0xffffffffffffffff\n".toList ∧
    parse (bytesOf (print [0, 18446744073709551615])) = .ok [0, 18446744073709551615] ∧
    ∃ addresses text,
      Traffic.generate { length := 2, base := 18446744073709551615, footprint := 0 } =
        .ok addresses ∧ addresses.length = 2 ∧
      Traffic.traceText { length := 2, base := 18446744073709551615, footprint := 0 } = .ok text ∧
      parse (bytesOf text) = .ok addresses := by
  have fits : Traffic.Fits { length := 2, base := 18446744073709551615, footprint := 0 } := by
    unfold Traffic.Fits
    decide
  obtain ⟨lists, drawn | ⟨crowd, _⟩⟩ := parse_traceText _ fits
  · obtain ⟨text, reads⟩ := lists [0, 18446744073709551615]
    refine ⟨fits, ?_, reads, drawn⟩
    rw [text]
    decide
  · exact absurd crowd (by decide)

end Texts

end Trace

end TrieCache
