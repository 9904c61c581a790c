import Mathlib.Data.Nat.Digits.Lemmas
import Mathlib.Tactic.FieldSimp
import PipelineLang.Proofs.Literal.Grammars

/-!
# Decimals

A number is written as a numeral, which may have underscores between its digits, and a unit
behind it. Its unit is told from its numeral by its letters alone, and without its underscores
the numeral is a plain decimal.

## Main definitions

- `Digits`, `Digits.value` — digits as they are written, and the number that they denote
- `PlainDecimal` — a decimal as it is written without underscores
- `PlainDecimal.text`, `PlainDecimal.value` — its text, and the rational number that it denotes
- `Number.numeralLanguage` — what a number is written as, before its unit

## Main results

- `Digits.number_chars` — digits are read as the number that they denote
- `Number.exists_plainDecimal` — a numeral without its underscores is a plain decimal
- `Number.unit_ofText` — the letters at the end of a number are its unit
- `Number.exists_decimal` — a plain decimal is read as the number that it denotes

## Design notes

The letter of an exponent is never taken for a unit: there are digits behind it.
-/

namespace PipelineLang

open Matcher Words

open scoped Computability

/-! ### Digits -/

/-- One or more digits as they are written. -/
structure Digits where
  chars : List Char
  chars_mem : chars ∈ Words.runs Char.isDigit

namespace Digits

/-- The number that digits denote. -/
def value (digits : Digits) : Nat :=
  Nat.ofDigits 10 (digits.chars.reverse.map fun c => c.toNat - '0'.toNat)

/-- The number that digits denote behind a point. -/
def fractionValue (digits : Digits) : ℚ := digits.value / 10 ^ digits.chars.length

end Digits

namespace Ascii

theorem number_eq_ofDigits (base : Nat) (digits : List Char) :
    number base digits = Nat.ofDigits base (digits.reverse.map digitValue) := by
  rw [number, List.foldl_eq_foldr_reverse, Nat.ofDigits_eq_foldr, List.foldr_map]
  simp [Nat.add_comm]

/-- Digits before others count as many times as much. -/
theorem number_append (base : Nat) (front back : List Char) :
    number base (front ++ back) = number base front * base ^ back.length + number base back := by
  simp only [number_eq_ofDigits, List.reverse_append, List.map_append, Nat.ofDigits_append,
    List.length_map, List.length_reverse]
  ring

end Ascii

/-- Digits are read as the number that they denote. -/
theorem Digits.number_chars (digits : Digits) : Ascii.number 10 digits.chars = digits.value := by
  rw [Ascii.number_eq_ofDigits, value]
  congr 1
  refine List.map_congr_left fun c hc => ?_
  rw [Ascii.digitValue, if_pos (digits.chars_mem.2 c (List.mem_reverse.mp hc))]

/-! ### Plain decimals -/

/-- The exponent of a decimal as it is written: a letter, a sign if there is one, and digits. -/
structure Exponent where
  letter : Char
  letter_mem : letter ∈ ['e', 'E']
  sign : Option Char
  sign_mem : ∀ mark ∈ sign, mark ∈ ['+', '-']
  digits : Digits

namespace Exponent

/-- An exponent with its letter and its sign. -/
def text (exponent : Exponent) : List Char :=
  exponent.letter :: (exponent.sign.toList ++ exponent.digits.chars)

/-- The power of ten that an exponent denotes. -/
def value (exponent : Exponent) : Int :=
  if exponent.sign = some '-' then -exponent.digits.value else exponent.digits.value

end Exponent

/-- A decimal as it is written without underscores: digits, and behind them a fraction and an
exponent if there are any. -/
structure PlainDecimal where
  whole : Digits
  fraction : Option Digits
  exponent : Option Exponent

namespace PlainDecimal

/-- A decimal, with a point in front of its fraction. -/
def text (plain : PlainDecimal) : List Char :=
  plain.whole.chars ++ (plain.fraction.elim [] (fun digits => '.' :: digits.chars) ++
    plain.exponent.elim [] Exponent.text)

/-- The number that a decimal denotes. -/
def value (plain : PlainDecimal) : ℚ :=
  (plain.whole.value + plain.fraction.elim 0 Digits.fractionValue) *
    10 ^ plain.exponent.elim 0 Exponent.value

end PlainDecimal

/-- The number that a decimal is. -/
def Decimal.value (decimal : Decimal) : ℚ := decimal.coefficient * 10 ^ decimal.exponent

namespace Number

/-- What a number is written as, before its unit:
`\d+(_\d+)*(\.\d+(_\d+)*)?([eE][+-]?\d+(_\d+)*)?`. -/
def numeralLanguage : Language Char :=
  groupsLanguage * (1 + fractionLanguage) * (1 + exponentLanguage)

/-! ### Underscores -/

/-- Groups of digits are digits once their underscores are left out. -/
theorem filter_mem_runs {word : List Char} (h : word ∈ groupsLanguage) :
    word.filter (· != '_') ∈ Words.runs Char.isDigit := by
  constructor
  · obtain ⟨c, tail, hc, -, rfl⟩ := mem_char_mul.mp (groupsLanguage_eq ▸ h)
    have hmark : c ≠ '_' := by
      rintro rfl
      exact absurd hc (by decide)
    rw [List.filter_cons_of_pos (by simpa using hmark)]
    exact List.cons_ne_nil _ _
  · intro c hc
    obtain ⟨hmem, hmark⟩ := List.mem_filter.mp hc
    have hgroup := isOver_groups word h c hmem
    rw [isGroupChar, Bool.or_eq_true] at hgroup
    exact hgroup.resolve_right fun heq => by simp [beq_iff_eq.mp heq] at hmark

theorem exists_fraction {word : List Char} (h : word ∈ 1 + fractionLanguage) :
    ∃ fraction : Option Digits,
      word.filter (· != '_') = fraction.elim [] fun digits => '.' :: digits.chars := by
  obtain rfl | h := h
  · exact ⟨none, rfl⟩
  · obtain ⟨c, digits, hc, hdigits, rfl⟩ := mem_char_mul.mp h
    obtain rfl := beq_iff_eq.mp hc
    exact ⟨some ⟨_, filter_mem_runs hdigits⟩, rfl⟩

theorem exists_exponent {word : List Char} (h : word ∈ 1 + exponentLanguage) :
    ∃ exponent : Option Exponent,
      word.filter (· != '_') = exponent.elim [] Exponent.text := by
  obtain rfl | h := h
  · exact ⟨none, rfl⟩
  · rw [exponentLanguage, mul_assoc] at h
    obtain ⟨letter, tail, hletter, ⟨sign, hsign, digits, hdigits, rfl⟩, rfl⟩ := mem_char_mul.mp h
    have hletter : letter ∈ ['e', 'E'] := by simpa using hletter
    obtain ⟨mark, rfl, hmark⟩ : ∃ mark : Option Char, sign = mark.toList ∧
        ∀ c ∈ mark, c ∈ ['+', '-'] := by
      obtain rfl | ⟨mark, hmark, rfl⟩ := hsign
      · exact ⟨none, rfl, by simp⟩
      · exact ⟨some mark, rfl, by simpa using hmark⟩
    refine ⟨some ⟨letter, hletter, mark, hmark, _, filter_mem_runs hdigits⟩, ?_⟩
    have hfront : ∀ c ∈ letter :: mark.toList, (c != '_') = true := by
      simp only [bne_iff_ne]
      rintro c hc rfl
      obtain rfl | hc := List.mem_cons.mp hc
      · exact absurd hletter (by decide)
      · exact absurd (hmark _ (Option.mem_toList.mp hc)) (by decide)
    rw [← List.cons_append, List.filter_append, List.filter_eq_self.mpr hfront]
    rfl

/-- A numeral without its underscores is a plain decimal. -/
theorem exists_plainDecimal {written : List Char} (h : written ∈ numeralLanguage) :
    ∃ plain : PlainDecimal, written.filter (· != '_') = plain.text := by
  obtain ⟨-, ⟨whole, hwhole, fraction, hfraction, rfl⟩, exponent, hexponent, rfl⟩ := h
  obtain ⟨fraction', hfraction⟩ := exists_fraction hfraction
  obtain ⟨exponent', hexponent⟩ := exists_exponent hexponent
  refine ⟨⟨⟨_, filter_mem_runs hwhole⟩, fraction', exponent'⟩, ?_⟩
  simp only [PlainDecimal.text, List.filter_append, hfraction, hexponent, List.append_assoc]

/-! ### Units -/

/-- A numeral ends with a group of digits. -/
theorem exists_groups_of_numeral {written : List Char} (h : written ∈ numeralLanguage) :
    ∃ front back, back ∈ groupsLanguage ∧ written = front ++ back := by
  obtain ⟨-, ⟨whole, hwhole, fraction, hfraction, rfl⟩, exponent, hexponent, rfl⟩ := h
  obtain rfl | ⟨letter, -, digits, hdigits, rfl⟩ := hexponent
  · obtain rfl | ⟨point, -, digits, hdigits, rfl⟩ := hfraction
    · exact ⟨[], whole, hwhole, by simp⟩
    · exact ⟨whole ++ point, digits, hdigits, by simp⟩
  · exact ⟨_, digits, hdigits, (List.append_assoc _ _ _).symm⟩

theorem isAlpha_of_isGroupChar {c : Char} (h : isGroupChar c) : c.isAlpha = false := by
  refine Bool.eq_false_of_not_eq_true fun halpha => ?_
  have hstart : Ascii.isWordStart c := by simp [Ascii.isWordStart, halpha]
  rw [isGroupChar, Ascii.isDigit_of_isWordStart hstart, Bool.false_or, beq_iff_eq] at h
  rw [h] at halpha
  exact absurd halpha (by decide)

/-- The letters at the end of a number are its unit. -/
theorem unit_ofText {written unit : List Char} (hwritten : written ∈ numeralLanguage)
    (hunit : unit ∈ 1 + Words.list units) :
    (ofText (String.ofList (written ++ unit))).unit =
      if unit.isEmpty then none else some (String.ofList unit) := by
  have hletters : ∀ c ∈ unit, c.isAlpha := by
    have hall : ∀ unit ∈ units, unit.all Char.isAlpha := by decide
    obtain rfl | hunit := hunit
    · simp
    · exact List.all_eq_true.mp (hall unit hunit)
  obtain ⟨front, back, hback, rfl⟩ := exists_groups_of_numeral hwritten
  -- Whatever the numeral ends with is in a group of digits, and so is no letter.
  have hstop : (front ++ back).reverse.takeWhile Char.isAlpha = [] := by
    obtain ⟨c, tail, -, -, hne⟩ := mem_char_mul.mp (groupsLanguage_eq ▸ hback)
    obtain hnil | ⟨init, last, rfl⟩ := List.eq_nil_or_concat' back
    · simp [hnil] at hne
    · have hlast := isAlpha_of_isGroupChar (isOver_groups _ hback last (by simp))
      rw [List.reverse_append, List.reverse_concat, List.cons_append,
        List.takeWhile_cons_of_neg (by simp [hlast])]
  have htake : ((front ++ back ++ unit).reverse.takeWhile Char.isAlpha).reverse = unit := by
    rw [List.reverse_append, List.takeWhile_append_of_pos (by simpa using hletters), hstop,
      List.append_nil, List.reverse_reverse]
  simp only [ofText, String.toList_ofList, htake]

/-! ### Values -/

/-- Digits are cut off where something else is behind them. -/
theorem span_digits (digits : Digits) {rest : List Char} (h : ∀ c ∈ rest.head?, c.isDigit = false) :
    (digits.chars ++ rest).takeWhile Char.isDigit = digits.chars ∧
      (digits.chars ++ rest).dropWhile Char.isDigit = rest := by
  have hall := digits.chars_mem.2
  rw [List.takeWhile_append_of_pos hall, List.dropWhile_append_of_pos hall]
  cases rest with
  | nil => exact ⟨List.append_nil _, rfl⟩
  | cons c rest =>
    have hc : ¬ c.isDigit := by simp [h c rfl]
    rw [List.takeWhile_cons_of_neg hc, List.dropWhile_cons_of_neg hc, List.append_nil]
    exact ⟨rfl, rfl⟩

/-- Whether a text starts with a minus sign, and the text behind its sign. -/
def splitSign : List Char → Bool × List Char
  | '+' :: rest => (false, rest)
  | '-' :: rest => (true, rest)
  | text => (false, text)

/-- The power of ten that is read from what stands behind the other digits of a decimal. -/
def power? : List Char → Option Int
  | [] => some 0
  | c :: cs =>
    let (negative, power) := splitSign cs
    if (c == 'e' || c == 'E') && !power.isEmpty && power.all Char.isDigit then
      let n : Int := Ascii.number 10 power
      some (if negative then -n else n)
    else none

theorem isDigit_of_letter {c : Char} (h : c ∈ ['e', 'E']) : c.isDigit = false := by
  obtain rfl | h := List.mem_cons.mp h
  · decide
  · obtain rfl := List.mem_singleton.mp h
    decide

/-- A decimal is read from left to right: its digits, its fraction and its exponent. -/
theorem parts?_append (whole : Digits) (fraction : Option Digits) {tail : List Char}
    (h : ∀ c ∈ tail.head?, c ∈ ['e', 'E']) :
    parts? (whole.chars ++ (fraction.elim [] (fun part => '.' :: part.chars) ++ tail)) =
      (power? tail).map fun power => (whole.chars, fraction.elim [] Digits.chars, power) := by
  -- A letter ends the digits before it, and is no point that a fraction could start with.
  have hdigit : ∀ c ∈ tail.head?, c.isDigit = false := fun c hc => isDigit_of_letter (h c hc)
  have hne : whole.chars.isEmpty = false := by simpa using whole.chars_mem.1
  cases fraction with
  | none =>
    obtain ⟨htake, hdrop⟩ := span_digits whole hdigit
    simp only [Option.elim_none, List.nil_append, parts?, htake, hdrop, hne]
    cases tail with
    | nil => rfl
    | cons c tail =>
      rw [power?, apply_ite (Option.map _)]
      obtain rfl | rfl : c = 'e' ∨ c = 'E' := by simpa using h c rfl
      · rfl
      · rfl
  | some fraction =>
    have hpoint : ∀ c ∈ ('.' :: (fraction.chars ++ tail)).head?, c.isDigit = false := by
      rintro _ ⟨⟩
      decide
    obtain ⟨htake, hdrop⟩ := span_digits whole hpoint
    obtain ⟨htake', hdrop'⟩ := span_digits fraction hdigit
    simp only [Option.elim_some, List.cons_append, parts?, htake, hdrop, hne, htake', hdrop']
    cases tail with
    | nil => rfl
    | cons c tail =>
      rw [power?, apply_ite (Option.map _)]
      rfl

theorem splitSign_digits (exponent : Exponent) :
    splitSign (exponent.sign.toList ++ exponent.digits.chars) =
      (decide (exponent.sign = some '-'), exponent.digits.chars) := by
  obtain ⟨letter, hletter, sign, hsign, digits⟩ := exponent
  cases sign with
  | none =>
    obtain ⟨c, tail, hdigits⟩ := List.exists_cons_of_ne_nil digits.chars_mem.1
    have hc : c.isDigit := digits.chars_mem.2 c (by simp [hdigits])
    rw [Option.toList_none, List.nil_append, hdigits, splitSign]
    · simp
    · rintro rest ⟨⟩
      exact absurd hc (by decide)
    · rintro rest ⟨⟩
      exact absurd hc (by decide)
  | some mark =>
    obtain rfl | rfl : mark = '+' ∨ mark = '-' := by simpa using hsign mark rfl
    · rfl
    · rfl

theorem power?_text (exponent : Exponent) : power? exponent.text = some exponent.value := by
  have hletter : (exponent.letter == 'e' || exponent.letter == 'E') = true := by
    simpa using exponent.letter_mem
  have hne : exponent.digits.chars.isEmpty = false := by simpa using exponent.digits.chars_mem.1
  have hall : exponent.digits.chars.all Char.isDigit :=
    List.all_eq_true.mpr exponent.digits.chars_mem.2
  rw [Exponent.text, power?, splitSign_digits]
  simp only [hletter, hne, hall, Digits.number_chars, decide_eq_true_eq]
  rfl

theorem parts?_text (plain : PlainDecimal) :
    parts? plain.text = some (plain.whole.chars, plain.fraction.elim [] Digits.chars,
      plain.exponent.elim 0 Exponent.value) := by
  obtain ⟨whole, fraction, exponent⟩ := plain
  have hhead : ∀ c ∈ (exponent.elim [] Exponent.text).head?, c ∈ ['e', 'E'] := by
    cases exponent with
    | none => simp
    | some exponent =>
      rintro _ ⟨⟩
      exact exponent.letter_mem
  rw [PlainDecimal.text, parts?_append whole fraction hhead]
  cases exponent with
  | none => rfl
  | some exponent =>
    rw [Option.elim_some, power?_text]
    rfl

theorem value_parts (whole : Digits) (fraction : Option Digits) (power : Int) :
    (Decimal.mk (Ascii.number 10 (whole.chars ++ fraction.elim [] Digits.chars))
      (power - (fraction.elim [] Digits.chars).length)).value =
    (whole.value + fraction.elim 0 Digits.fractionValue) * 10 ^ power := by
  -- The digits of the fraction are read as whole ones, and their number lowers the exponent.
  rw [Decimal.value, Ascii.number_append, Digits.number_chars, zpow_sub₀ (by norm_num),
    zpow_natCast]
  cases fraction with
  | none => simp [Ascii.number]
  | some fraction =>
    simp only [Option.elim_some, Digits.number_chars, Digits.fractionValue]
    push_cast
    field_simp

/-- A plain decimal is read as the number that it denotes. -/
theorem exists_decimal {number : Number} {written : List Char} {plain : PlainDecimal}
    (htext : number.text.toList = written ++ (number.unit.getD "").toList)
    (hplain : written.filter (· != '_') = plain.text) :
    ∃ decimal, number.decimal? = some decimal ∧ decimal.value = plain.value := by
  have hwritten : number.text.toList.take
      (number.text.length - (number.unit.getD "").length) = written := by
    rw [← String.length_toList, ← String.length_toList, htext, List.length_append,
      Nat.add_sub_cancel, List.take_left]
  refine ⟨_, ?_, value_parts plain.whole plain.fraction (plain.exponent.elim 0 Exponent.value)⟩
  rw [decimal?, hwritten, hplain, parts?_text]
  rfl

end Number

end PipelineLang
