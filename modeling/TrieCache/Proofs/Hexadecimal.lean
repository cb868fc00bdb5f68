import TrieCache.Proofs.Digits
import TrieCache.Text.Hexadecimal

/-!
# Hexadecimal numerals

Reading accepts the numerals of 64-bit words and nothing else: a plus sign or none, and then
digits in either case, with any number of zeros in front.  What it reports of another text is
the leftmost thing that is wrong with it.
-/

namespace TrieCache.Hexadecimal

/-- A character is the digit of a value, in lower or in upper case. -/
def IsDigit (char : Char) (value : Nat) : Prop :=
  "0123456789abcdef".toList[value]? = some char ∨ "0123456789ABCDEF".toList[value]? = some char

/-- A text is a numeral of a number. -/
inductive Denotes : (text : List Char) → (number : Nat) → Prop
  | unsigned {digits : List Char} {values : List Nat} :
    digits ≠ [] → List.Forall₂ IsDigit digits values → Denotes digits (numeral 16 0 values)
  | signed {digits : List Char} {values : List Nat} :
    digits ≠ [] → List.Forall₂ IsDigit digits values → Denotes ('+' :: digits) (numeral 16 0 values)

/-- Read onto the value of the digits before them, some characters are the digits of a word up
to one that is to blame. -/
inductive Stops (leading : Nat) : (chars : List Char) → ReadError → Prop
  | invalidDigit {digits rest : List Char} {values : List Nat} {char : Char} :
    List.Forall₂ IsDigit digits values → numeral 16 leading values < 2 ^ 64 →
      (∀ value, ¬ IsDigit char value) → Stops leading (digits ++ char :: rest) .invalidDigit
  | tooLarge {digits rest : List Char} {values : List Nat} {char : Char} {value : Nat} :
    List.Forall₂ IsDigit digits values → numeral 16 leading values < 2 ^ 64 →
      IsDigit char value → 2 ^ 64 ≤ numeral 16 leading (values ++ [value]) →
        Stops leading (digits ++ char :: rest) .tooLarge

/-- What is wrong with a text that is no numeral of a 64-bit word. -/
inductive Faulty : (text : List Char) → ReadError → Prop
  | empty : Faulty [] .empty
  | sign : Faulty ['+'] .invalidDigit
  | unsigned {text : List Char} {reason : ReadError} :
    text.head? ≠ some '+' → Stops 0 text reason → Faulty text reason
  | signed {text : List Char} {reason : ReadError} :
    Stops 0 text reason → Faulty ('+' :: text) reason

section Digits

variable {char : Char} {value : Nat}

theorem IsDigit.lt (isDigit : IsDigit char value) : value < 16 := by
  rcases isDigit with lower | upper
  · exact (List.getElem?_eq_some_iff.mp lower).1
  · exact (List.getElem?_eq_some_iff.mp upper).1

theorem digitValue?_lower :
    ∀ value < 16, "0123456789abcdef".toList[value]?.bind digitValue? = some value := by
  decide

theorem digitValue?_upper :
    ∀ value < 16, "0123456789ABCDEF".toList[value]?.bind digitValue? = some value := by
  decide

theorem isDigit_decimal : ∀ value < 10, IsDigit (Char.ofNat (48 + value)) value := by
  unfold IsDigit
  decide

theorem isDigit_letter : ∀ value < 16, 10 ≤ value →
    IsDigit (Char.ofNat (87 + value)) value ∧ IsDigit (Char.ofNat (55 + value)) value := by
  unfold IsDigit
  decide

theorem digitValue?_eq_some_iff : digitValue? char = some value ↔ IsDigit char value := by
  constructor
  · intro isValue
    simp only [digitValue?] at isValue
    split at isValue
    next range =>
      cases isValue
      have code : 48 + (char.toNat - 48) = char.toNat := by omega
      have isDigit := isDigit_decimal (char.toNat - 48) (by omega)
      rwa [code, Char.ofNat_toNat] at isDigit
    · split at isValue
      next range =>
        cases isValue
        have code : 87 + (char.toNat - 87) = char.toNat := by omega
        have isDigit := (isDigit_letter (char.toNat - 87) (by omega) (by omega)).1
        rwa [code, Char.ofNat_toNat] at isDigit
      · split at isValue
        next range =>
          cases isValue
          have code : 55 + (char.toNat - 55) = char.toNat := by omega
          have isDigit := (isDigit_letter (char.toNat - 55) (by omega) (by omega)).2
          rwa [code, Char.ofNat_toNat] at isDigit
        next => cases isValue
  · intro isDigit
    have small := isDigit.lt
    rcases isDigit with lower | upper
    · have read := digitValue?_lower value small
      rwa [lower] at read
    · have read := digitValue?_upper value small
      rwa [upper] at read

theorem digitValue?_eq_none_iff : digitValue? char = none ↔ ∀ value, ¬ IsDigit char value := by
  simp only [← digitValue?_eq_some_iff, Option.eq_none_iff_forall_ne_some, Ne]

end Digits

section Reading

variable {leading number : Nat} {digits rest text : List Char} {values : List Nat}
  {reason : ReadError}

theorem le_numeral (leading : Nat) (values : List Nat) : leading ≤ numeral 16 leading values := by
  induction values generalizing leading with
  | nil => exact Nat.le_refl _
  | cons value values ih =>
    have upper : leading * 16 + value ≤ numeral 16 leading (value :: values) := ih _
    omega

theorem readDigits_append (isDigits : List.Forall₂ IsDigit digits values)
    (fits : numeral 16 leading values < 2 ^ 64) (rest : List Char) :
    readDigits leading (digits ++ rest) = readDigits (numeral 16 leading values) rest := by
  induction isDigits generalizing leading with
  | nil => rfl
  | @cons char value digits values isDigit _ ih =>
    have fits : numeral 16 (leading * 16 + value) values < 2 ^ 64 := fits
    have first_lt : 16 * leading + value < 2 ^ 64 := by
      have first_le := le_numeral (leading * 16 + value) values
      omega
    rw [List.cons_append, readDigits, digitValue?_eq_some_iff.mpr isDigit]
    dsimp only
    rw [if_pos first_lt, Nat.mul_comm, ih fits]
    rfl

theorem readDigits_of_stops (stops : Stops leading text reason) :
    readDigits leading text = .error reason := by
  cases stops with
  | invalidDigit isDigits fits foreign =>
    rw [readDigits_append isDigits fits, readDigits, digitValue?_eq_none_iff.mpr foreign]
  | tooLarge isDigits fits isDigit exceeds =>
    rw [numeral_concat, Nat.mul_comm] at exceeds
    rw [readDigits_append isDigits fits, readDigits, digitValue?_eq_some_iff.mpr isDigit]
    dsimp only
    rw [if_neg (Nat.not_lt.mpr exceeds)]

theorem stops_cons {char : Char} {value : Nat} (isDigit : IsDigit char value)
    (stops : Stops (leading * 16 + value) text reason) : Stops leading (char :: text) reason := by
  cases stops with
  | invalidDigit isDigits fits foreign => exact .invalidDigit (.cons isDigit isDigits) fits foreign
  | tooLarge isDigits fits last exceeds => exact .tooLarge (.cons isDigit isDigits) fits last exceeds

/-- Reading ends with the value of the digits, or at the first character that is to blame. -/
theorem readDigits_cases (leading_lt : leading < 2 ^ 64) (text : List Char) :
    (∃ values, List.Forall₂ IsDigit text values ∧ numeral 16 leading values < 2 ^ 64) ∨
      ∃ reason, Stops leading text reason := by
  induction text generalizing leading with
  | nil => exact .inl ⟨[], .nil, leading_lt⟩
  | cons char text ih =>
    cases isValue : digitValue? char with
    | none =>
      have stops : Stops leading ([] ++ char :: text) .invalidDigit :=
        .invalidDigit .nil leading_lt (digitValue?_eq_none_iff.mp isValue)
      exact .inr ⟨_, stops⟩
    | some value =>
      have isDigit := digitValue?_eq_some_iff.mp isValue
      by_cases fits : leading * 16 + value < 2 ^ 64
      · rcases ih fits with ⟨values, isDigits, fits⟩ | ⟨reason, stops⟩
        · exact .inl ⟨value :: values, .cons isDigit isDigits, fits⟩
        · exact .inr ⟨reason, stops_cons isDigit stops⟩
      · have stops : Stops leading ([] ++ char :: text) .tooLarge :=
          .tooLarge .nil leading_lt isDigit (Nat.not_lt.mp fits)
        exact .inr ⟨_, stops⟩

theorem readDigits_eq_ok_iff (leading_lt : leading < 2 ^ 64) :
    readDigits leading text = .ok number ↔
      ∃ values, List.Forall₂ IsDigit text values ∧ numeral 16 leading values = number ∧
        number < 2 ^ 64 := by
  constructor
  · intro read
    rcases readDigits_cases leading_lt text with ⟨values, isDigits, fits⟩ | ⟨reason, stops⟩
    · have read' := readDigits_append isDigits fits []
      rw [List.append_nil, read] at read'
      cases read'
      exact ⟨values, isDigits, rfl, fits⟩
    · rw [readDigits_of_stops stops] at read
      cases read
  · rintro ⟨values, isDigits, rfl, fits⟩
    have read := readDigits_append isDigits fits []
    rwa [List.append_nil] at read

theorem readDigits_eq_error_iff (leading_lt : leading < 2 ^ 64) :
    readDigits leading text = .error reason ↔ Stops leading text reason := by
  constructor
  · intro read
    rcases readDigits_cases leading_lt text with ⟨values, isDigits, fits⟩ | ⟨reason', stops⟩
    · rw [(readDigits_eq_ok_iff leading_lt).mpr ⟨values, isDigits, rfl, fits⟩] at read
      cases read
    · rw [readDigits_of_stops stops] at read
      cases read
      exact stops
  · exact readDigits_of_stops

theorem read_signed (nonempty : text ≠ []) : read ('+' :: text) = readDigits 0 text := by
  cases text with
  | nil => exact absurd rfl nonempty
  | cons => rfl

theorem read_unsigned (nonempty : text ≠ []) (unsigned : text.head? ≠ some '+') :
    read text = readDigits 0 text := by
  rw [read.eq_def]
  split
  · exact absurd rfl nonempty
  · exact absurd rfl unsigned
  · exact absurd rfl unsigned
  · rfl

theorem Stops.ne_nil (stops : Stops leading text reason) : text ≠ [] := by
  cases stops <;> simp

theorem head?_of_isDigits (isDigits : List.Forall₂ IsDigit text values) :
    text.head? ≠ some '+' := by
  cases isDigits with
  | nil => nofun
  | @cons char value _ _ isDigit =>
    intro signed
    have isValue := digitValue?_eq_some_iff.mpr isDigit
    cases signed
    cases isValue

/-- A text is nothing, a plus sign alone, a plus sign and more, or without one. -/
theorem signs (text : List Char) : text = [] ∨ text = ['+'] ∨
    (∃ rest, text = '+' :: rest ∧ rest ≠ []) ∨ (text ≠ [] ∧ text.head? ≠ some '+') := by
  cases text with
  | nil => simp
  | cons char rest =>
    by_cases signed : char = '+'
    · subst signed
      by_cases alone : rest = [] <;> simp [alone]
    · simp [signed]

/-- Reading accepts the numerals of words. -/
theorem read_eq_ok_iff : read text = .ok number ↔ Denotes text number ∧ number < 2 ^ 64 := by
  have zero_lt : 0 < 2 ^ 64 := Nat.two_pow_pos 64
  constructor
  · intro accepted
    rcases signs text with rfl | rfl | ⟨rest, rfl, nonempty⟩ | ⟨nonempty, unsigned⟩
    · cases accepted
    · cases accepted
    · rw [read_signed nonempty] at accepted
      obtain ⟨values, isDigits, rfl, fits⟩ := (readDigits_eq_ok_iff zero_lt).mp accepted
      exact ⟨.signed nonempty isDigits, fits⟩
    · rw [read_unsigned nonempty unsigned] at accepted
      obtain ⟨values, isDigits, rfl, fits⟩ := (readDigits_eq_ok_iff zero_lt).mp accepted
      exact ⟨.unsigned nonempty isDigits, fits⟩
  · rintro ⟨denotes, fits⟩
    cases denotes with
    | unsigned nonempty isDigits =>
      rw [read_unsigned nonempty (head?_of_isDigits isDigits)]
      exact (readDigits_eq_ok_iff zero_lt).mpr ⟨_, isDigits, rfl, fits⟩
    | signed nonempty isDigits =>
      rw [read_signed nonempty]
      exact (readDigits_eq_ok_iff zero_lt).mpr ⟨_, isDigits, rfl, fits⟩

/-- Reading reports the leftmost fault. -/
theorem read_eq_error_iff : read text = .error reason ↔ Faulty text reason := by
  have zero_lt : 0 < 2 ^ 64 := Nat.two_pow_pos 64
  constructor
  · intro refused
    rcases signs text with rfl | rfl | ⟨rest, rfl, nonempty⟩ | ⟨nonempty, unsigned⟩
    · cases refused
      exact .empty
    · cases refused
      exact .sign
    · rw [read_signed nonempty] at refused
      exact .signed ((readDigits_eq_error_iff zero_lt).mp refused)
    · rw [read_unsigned nonempty unsigned] at refused
      exact .unsigned unsigned ((readDigits_eq_error_iff zero_lt).mp refused)
  · intro faulty
    cases faulty with
    | empty => rfl
    | sign => rfl
    | unsigned unsigned stops =>
      rw [read_unsigned stops.ne_nil unsigned]
      exact readDigits_of_stops stops
    | signed stops =>
      rw [read_signed stops.ne_nil]
      exact readDigits_of_stops stops

end Reading

end TrieCache.Hexadecimal
