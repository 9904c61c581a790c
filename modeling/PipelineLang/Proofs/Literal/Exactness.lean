import PipelineLang.Proofs.Grammar.Accuracy
import PipelineLang.Proofs.Grammar.Everywhere
import PipelineLang.Proofs.Literal.Addresses
import PipelineLang.Proofs.Literal.Decimals

/-!
# Literals have the values that they denote

A literal is recognised by its shape, and its text is then cut into parts by rules of its own:
a number ends with the letters at its end, a duration starts with the digits at its start, and a
subnet is cut at its slash. The parts are those that the literal was written with, and so its
value is the one that is written.

## Main definitions

- `Number.IsExact`, `Duration.IsExact`, `Subnet.IsExact` — the value of a literal is what its
  parts denote
- `Literal.IsExact`, `Expr.HasExactLiteral` — the same for all literals, and for an expression

## Main results

- `Lexeme.isExact_of_recognized` — what is recognised as a literal has the value that it denotes
- `Program.literals_exact` — so has each literal of a program

## Design notes

A number is rounded when its value is asked for as a floating-point number. What is exact is the
decimal that is rounded. Counts of durations are exact up to 64 bits, and have no value beyond.
-/

namespace PipelineLang

open Lexeme

/-! ### Numbers -/

/-- A number is a numeral and one of the units, or no unit. The numeral is a plain decimal but
for its underscores, and is read as the number that this decimal denotes. So there always is a
value, which is this number as it is rounded, times what the unit stands for. -/
structure Number.IsExact (number : Number) (written : List Char) (plain : PlainDecimal) : Prop where
  text_eq : number.text.toList = written ++ (number.unit.getD "").toList
  written_mem : written ∈ numeralLanguage
  unit_mem : ∀ unit ∈ number.unit, unit.toList ∈ units
  plain_eq : written.filter (· != '_') = plain.text
  exists_value : ∃ decimal multiplier, number.decimal? = some decimal ∧
    decimal.value = plain.value ∧ number.multiplier? = some multiplier ∧
    number.value? = some (decimal.toFloat * (Decimal.mk multiplier 0).toFloat)

namespace Number

theorem isSome_multiplier? {number : Number} (h : ∀ unit ∈ number.unit, unit.toList ∈ units) :
    number.multiplier?.isSome := by
  have hall : ∀ letters ∈ units, (NumberUnit.ofSuffix? (String.ofList letters)).isSome := by decide
  cases hunit : number.unit with
  | none => simp [multiplier?, hunit]
  | some unit =>
    have hsome := hall _ (h unit hunit)
    rw [String.ofList_toList] at hsome
    simp [multiplier?, hunit, hsome]

/-- A numeral and a unit are read as a number. -/
theorem exists_isExact {written unit : List Char} (hwritten : written ∈ numeralLanguage)
    (hunit : unit ∈ 1 + Words.list units) :
    ∃ plain, (ofText (String.ofList (written ++ unit))).IsExact written plain := by
  obtain ⟨plain, hplain⟩ := exists_plainDecimal hwritten
  have hletters := unit_ofText hwritten hunit
  have htext : (ofText (String.ofList (written ++ unit))).text.toList = written ++ unit :=
    String.toList_ofList
  generalize ofText (String.ofList (written ++ unit)) = number at hletters htext ⊢
  have hsplit : number.text.toList = written ++ (number.unit.getD "").toList := by
    rw [htext, hletters]
    cases unit with
    | nil => rfl
    | cons c unit => simp
  have hmem : ∀ suffix ∈ number.unit, suffix.toList ∈ units := by
    rw [hletters]
    obtain rfl | hunit := hunit
    · simp
    · intro suffix hsuffix
      split at hsuffix
      · cases hsuffix
      · obtain rfl := Option.some.inj hsuffix
        rw [String.toList_ofList]
        exact hunit
  obtain ⟨decimal, hdecimal, hvalue⟩ := exists_decimal hsplit hplain
  obtain ⟨multiplier, hmultiplier⟩ := Option.isSome_iff_exists.mp (isSome_multiplier? hmem)
  refine ⟨plain, hsplit, hwritten, hmem, hplain, decimal, multiplier, hdecimal, hvalue,
    hmultiplier, ?_⟩
  rw [value?, hmultiplier, hdecimal]
  rfl

/-- What is taken as a number is read as the number that it denotes. -/
theorem exists_isExact_take {text : List Char} {n : Nat} (h : matcher text = some n) :
    ∃ written plain, (ofText (String.ofList (text.take n))).IsExact written plain := by
  obtain ⟨⟨word, hword, hpre, rfl⟩, -⟩ := takesLongest.of_some h
  obtain ⟨written, hwritten, unit, hunit, rfl⟩ := hword
  rw [← List.prefix_iff_eq_take.mp hpre]
  exact ⟨written, exists_isExact hwritten hunit⟩

end Number

/-! ### Durations -/

/-- A duration is digits and a suffix of its unit. It has the count that the digits denote if
this fits in 64 bits, and then it has a length, which fits in 128 bits. -/
structure Duration.IsExact (duration : Duration) (count : Digits) (suffix : String) : Prop where
  text_eq : duration.text.toList = count.chars ++ suffix.toList
  suffix_mem : (suffix, duration.unit) ∈ DurationUnit.suffixes
  magnitude_eq_some_iff : ∀ v, duration.magnitude = some v ↔ v = count.value ∧ v ≤ 2 ^ 64 - 1
  nanos?_eq_some : ∀ v, duration.magnitude = some v →
    duration.nanos? = some (v * duration.unit.nanos) ∧ v * duration.unit.nanos ≤ 2 ^ 128 - 1

namespace Duration

theorem boundedNumber?_eq_some_iff {most v : Nat} (digits : Digits) :
    boundedNumber? most digits.chars = some v ↔ v = digits.value ∧ v ≤ most := by
  have hne : digits.chars.isEmpty = false := by simpa using digits.chars_mem.1
  rw [boundedNumber?, digits.number_chars]
  simp only [hne, Bool.false_or, decide_eq_true_eq]
  split
  · next hlt =>
    constructor
    · intro hnone
      cases hnone
    · rintro ⟨rfl, hle⟩
      omega
  · next hle =>
    rw [Option.some.injEq]
    refine ⟨?_, fun h => h.1.symm⟩
    rintro rfl
    exact ⟨rfl, Nat.not_lt.mp hle⟩

/-- No unit is longer than a year. -/
theorem nanos_le (unit : DurationUnit) : unit.nanos ≤ 2 ^ 55 := by
  cases unit <;> decide

/-- Digits and a suffix are read as a duration. -/
theorem exists_isExact {text : List Char} {n : Nat} (h : matcher text = some n) :
    ∃ duration count suffix, read? (String.ofList (text.take n)) = some duration ∧
      duration.IsExact count suffix := by
  obtain ⟨digits, ⟨suffix, unit⟩, hsuffix, htext, hne, hdigits⟩ := exists_parts h
  obtain ⟨count, rfl⟩ : ∃ count : Digits, count.chars = digits := ⟨⟨digits, hne, hdigits⟩, rfl⟩
  rw [htext, read?_suffix hdigits hsuffix]
  refine ⟨_, count, suffix, rfl, String.toList_ofList, hsuffix, fun v => ?_, fun v hv => ⟨?_, ?_⟩⟩
  · have hmost : maxMagnitude = 2 ^ 64 - 1 := by decide
    rw [← hmost]
    exact boundedNumber?_eq_some_iff count
  · rw [nanos?, hv]
    rfl
  · -- The greatest count of years has fewer than 120 bits.
    obtain ⟨-, hle⟩ := (boundedNumber?_eq_some_iff count).mp hv
    calc v * unit.nanos ≤ maxMagnitude * 2 ^ 55 := Nat.mul_le_mul hle (nanos_le unit)
      _ ≤ 2 ^ 128 - 1 := by decide

end Duration

/-! ### Subnets -/

/-- A subnet is an address, a slash and digits. Its address is the one that is written, its
length is the number that the digits denote, and it is valid if there is an address with as many
bits. -/
structure Subnet.IsExact (subnet : Subnet) (written : List Char) (length : Digits) : Prop where
  text_eq : subnet.text.toList = written ++ '/' :: length.chars
  not_mem : '/' ∉ written
  isDenoted : Address.IsDenoted written subnet.address
  bits_eq : subnet.bits = length.value
  isValid_iff : subnet.isValid ↔
    (∃ value, subnet.address = some (.v4 value) ∧ subnet.bits ≤ 32) ∨
      ∃ value, subnet.address = some (.v6 value) ∧ subnet.bits ≤ 128

namespace Subnet

theorem isValid_eq_true_iff (subnet : Subnet) : subnet.isValid ↔
    (∃ value, subnet.address = some (.v4 value) ∧ subnet.bits ≤ 32) ∨
      ∃ value, subnet.address = some (.v6 value) ∧ subnet.bits ≤ 128 := by
  rw [isValid]
  cases subnet.address with
  | none => simp
  | some address =>
    dsimp only
    rw [decide_eq_true_iff]
    cases address <;> simp [Address.width]

/-- What is taken as a subnet is read as one. -/
theorem exists_isExact {text : List Char} {n : Nat} (h : Address.subnetMatcher text = some n) :
    ∃ subnet written length, read? (String.ofList (text.take n)) = some subnet ∧
      subnet.IsExact written length := by
  obtain ⟨m, digits, haddress, htext, hslash, hdigits, hlength⟩ := exists_parts h
  have hmem : digits ∈ Words.runs Char.isDigit :=
    ⟨List.ne_nil_of_length_pos hlength.1, List.all_eq_true.mp hdigits⟩
  rw [htext, read?_slash hslash hdigits hlength]
  exact ⟨_, text.take m, ⟨digits, hmem⟩, rfl, String.toList_ofList,
    fun hmem => hslash '/' hmem rfl, Address.isDenoted_take haddress,
    Digits.number_chars ⟨digits, hmem⟩, isValid_eq_true_iff _⟩

end Subnet

/-! ### Literals -/

/-- The value of a number, an address, a subnet or a duration is what its text denotes. -/
def Literal.IsExact : Literal → Prop
  | .number value => ∃ written plain, value.IsExact written plain
  | .ip value => Address.IsDenoted value.text.toList value.address
  | .subnet value => ∃ written length, value.IsExact written length
  | .duration value => ∃ count suffix, value.IsExact count suffix
  | .null | .bool _ | .string _ | .time _ => True

namespace Expr

/-- The literal that an expression is. -/
def literal? : Expr → Option Literal
  | .literal value _ => some value
  | _ => none

/-- An expression that is a literal has the value that it denotes. -/
def HasExactLiteral (value : Expr) : Prop := ∀ literal ∈ value.literal?, literal.IsExact

theorem hasExactLiteral_of_none {value : Expr} (h : value.literal? = none) :
    value.HasExactLiteral := by simp [HasExactLiteral, h]

end Expr

/-- What is recognised as a literal has the value that it denotes. -/
theorem Lexeme.isExact_of_recognized
    {replacement : Option TokenKind → List Char → Except LexicalFault Replacement}
    {before : Before} {text : List Char} {lexeme : Lexeme}
    (h : Recognized replacement before text lexeme) {value : Literal}
    (hvalue : Literal.ofText? lexeme.kind (String.ofList (text.take lexeme.length)) = some value) :
    value.IsExact := by
  unfold Literal.ofText? at hvalue
  -- Only the kinds that are measured at a digit or a colon say how the text was taken.
  split at hvalue
  case h_1 | h_2 | h_3 | h_8 =>
    obtain rfl := Option.some.inj hvalue
    trivial
  case h_4 hkind =>
    obtain rfl := Option.some.inj hvalue
    exact Number.exists_isExact_take
      (matcher_of_recognized h hkind (by simp [literals]) (by decide))
  case h_5 =>
    obtain ⟨_, -, rfl⟩ := Option.map_eq_some_iff.mp hvalue
    trivial
  case h_6 hkind =>
    obtain rfl := Option.some.inj hvalue
    obtain ⟨hsubnet, -⟩ | ⟨-, haddress⟩ := isAddress_of_recognized h (by simp [hkind])
    · simp [hkind] at hsubnet
    · rw [Literal.IsExact, IpLiteral.ofText, String.toList_ofList]
      exact Address.isDenoted_take haddress
  case h_7 hkind =>
    obtain ⟨subnet, hsubnet, rfl⟩ := Option.map_eq_some_iff.mp hvalue
    obtain ⟨found, written, length, hfound, hexact⟩ :=
      Subnet.exists_isExact (subnetMatcher_of_recognized h hkind)
    obtain rfl := Option.some.inj (hsubnet.symm.trans hfound)
    exact ⟨written, length, hexact⟩
  case h_9 hkind =>
    obtain ⟨duration, hduration, rfl⟩ := Option.map_eq_some_iff.mp hvalue
    obtain ⟨found, count, suffix, hfound, hexact⟩ :=
      Duration.exists_isExact (durationMatcher_of_recognized h hkind)
    obtain rfl := Option.some.inj (hduration.symm.trans hfound)
    exact ⟨count, suffix, hexact⟩
  case h_10 => cases hvalue

/-- What a token spells as a literal has the value that it denotes. -/
def Token.IsExact (token : Token) : Prop :=
  ∀ value, Literal.ofText? token.kind token.text = some value → value.IsExact

/-- The tokens that a scanner reads as literals have the values that they denote. -/
theorem Scanner.Reads.isExact {scanner : Scanner} {tokens : List Token} (h : scanner.Reads tokens) :
    ∀ token ∈ tokens, token.IsExact := by
  refine h.forall_of_readAs fun {scanner behind token} h value hvalue => ?_
  cases h with
  | frontmatterEnd | frontmatterClose | frontmatterBody | frontmatterOpen | eof =>
    simp [tokenOf, Literal.ofText?] at hvalue
  | lexeme _ _ hlexeme _ => exact isExact_of_recognized (recognized_of_ok hlexeme) hvalue

namespace Grammar

/-- The rules for single nodes make literals of single tokens only. -/
theorem local_hasExactLiteral : Local (fun tokens => ∀ token ∈ tokens, token.IsExact)
    (fun _ => True) Expr.HasExactLiteral where
  context := context_true
  inner _ _ _ _ _ hothers :=
    have hreads := Scanner.reads_of_tokens? rfl hothers
    (TokenStream.holds_ofTokens hreads hreads.isExact).1
  primary {depth before taken ahead value} h _ hW := by
    cases h with
    | literal hvalue =>
      rintro literal ⟨⟩
      exact hW _ (by simp) _ hvalue
    | name =>
      refine Expr.hasExactLiteral_of_none ?_
      rw [nameOrPlaceholder]
      split <;> rfl
    | _ => exact Expr.hasExactLiteral_of_none rfl
  suffix {depth before taken ahead receiver suffix} _ _ _ :=
    Expr.hasExactLiteral_of_none (by cases suffix <;> rfl)
  unary _ := Expr.hasExactLiteral_of_none rfl
  lambda _ _ _ := Expr.hasExactLiteral_of_none rfl
  binary _ _ := Expr.hasExactLiteral_of_none rfl

end Grammar

namespace Program

/-- Each literal of a program has the value that it denotes. -/
theorem literals_exact (limit : Nat) (source : String) (program : Program)
    (h : ofSource limit source = .ok program) :
    ∀ value ∈ program.expressions, value.All Expr.HasExactLiteral := by
  obtain ⟨tokens, htokens, hprogram⟩ := exists_tokens_of_ok h
  have hreads := Scanner.reads_of_tokenize htokens
  exact all_of_derivation Grammar.local_hasExactLiteral (fun _ => trivial)
    (TokenStream.holds_ofTokens hreads hreads.isExact).1
    ((ofTokens_takes limit tokens).1 program hprogram)

/-- The first letter of `1_5.0e-1Ki` belongs to an exponent, and its last ones are a unit. -/
theorem literals_exact_number : ∃ program value,
    ofSource 8 "x = 1_5.0e-1Ki" = .ok program ∧ value ∈ program.expressions ∧
      value.literal? = some (.number ⟨"1_5.0e-1Ki", some "Ki"⟩) ∧
      ∃ written plain, Number.IsExact ⟨"1_5.0e-1Ki", some "Ki"⟩ written plain := by
  have hliterals : (ofSource 8 "x = 1_5.0e-1Ki").toOption.map
      (fun program => program.expressions.map Expr.literal?) =
        some [some (.number ⟨"1_5.0e-1Ki", some "Ki"⟩)] := by decide +kernel
  generalize hprogram : ofSource 8 "x = 1_5.0e-1Ki" = result at hliterals ⊢
  cases result with
  | error error => cases hliterals
  | ok program =>
    rw [Except.toOption, Option.map_some, Option.some.injEq, List.map_eq_singleton_iff] at hliterals
    obtain ⟨value, hvalues, hliteral⟩ := hliterals
    have hmem : value ∈ program.expressions := by
      rw [hvalues]
      exact List.mem_singleton_self value
    exact ⟨program, value, rfl, hmem, hliteral,
      (literals_exact 8 _ program hprogram value hmem).here _ hliteral⟩

end Program

end PipelineLang
