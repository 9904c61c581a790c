import PipelineLang.Proofs.Text.Longest
import PipelineLang.Proofs.Token.Recurring
import PipelineLang.Proofs.Token.Rereading

/-!
# The grammars of literals

The literals that start with a digit are words of regular languages. Their matchers take
the longest word, though none of them ever gives back a character.

## Main definitions

- `Time.language`, `Address.quadLanguage`, `Number.language`, `Duration.language` — the
  grammars
- `Lexeme.IsBest` — the literal that is chosen from several ones

## Main results

- `Time.takesLongest`, `Address.takesLongest_quad`, `Number.takesLongest`,
  `Duration.takesLongest` — the matchers take the longest words
- `Scanner.reads_longest_literals` — the same, and the token that a digit starts is the
  longest literal

## Design notes

Where one part of a literal may be left out, the parts behind it start with other
characters. The one exception is the letter `E`, which starts an exponent and names a unit:
an exponent has more characters than a unit that starts with its letter.
-/

namespace PipelineLang

open Matcher Words

open scoped Computability

/-- The character `c` as a language. -/
def Words.mark (c : Char) : Language Char := Words.char (· == c)

/-- The words of exactly `n` digits. -/
def Words.digits (n : Nat) : Language Char := Words.run Char.isDigit n n

/-- None of some marks has a property. -/
theorem Words.forall_contains {marks : List Char} {p : Char → Bool}
    (h : (marks.all fun mark => !p mark) = true) : ∀ c, marks.contains c → p c = false :=
  fun c hc => forall_marks h c (List.contains_iff_mem.mp hc)

theorem Words.startsWith_mark_mul {marks : List Char} {c : Char} (hc : c ∈ marks)
    (language : Language Char) : StartsWith (mark c * language) marks.contains :=
  startsWith_char_mul fun d hd => by simpa [beq_iff_eq.mp hd] using hc

/-! ### Points in time -/

namespace Time

/-- Dates: `\d{4}-\d{2}-\d{2}`. -/
def dateLanguage : Language Char :=
  Words.digits 4 * mark '-' * Words.digits 2 * mark '-' * Words.digits 2

/-- Times of day: `T\d{2}:\d{2}:\d{2}(\.\d{1,9})?(Z|[+-]\d{2}:\d{2})?`. -/
def clockLanguage : Language Char :=
  mark 'T' * Words.digits 2 * mark ':' * Words.digits 2 * mark ':' * Words.digits 2 *
    (1 + mark '.' * Words.run Char.isDigit 1 9) *
    (1 + (mark 'Z' +
      (Words.char fun c => c == '+' || c == '-') * Words.digits 2 * mark ':' * Words.digits 2))

/-- A date, and a time of day if there is one. -/
def language : Language Char := dateLanguage * (1 + clockLanguage)

theorem takesLongest_date : TakesLongest date dateLanguage := by
  simp only [dateLanguage, mul_assoc]
  exact .digits_followedBy 4 (.char_followedBy _ (.digits_followedBy 2
    (.char_followedBy _ (takesLongest_run _ 2 2))))

theorem takesLongest_fraction :
    TakesLongest fraction (mark '.' * Words.run Char.isDigit 1 9) :=
  .char_followedBy _ (takesLongest_run _ 1 9)

theorem takesLongest_zone : TakesLongest zone (mark 'Z' +
    (Words.char fun c => c == '+' || c == '-') * Words.digits 2 * mark ':' * Words.digits 2) := by
  simp only [mul_assoc]
  refine (takesLongest_char _).orElse (.char_followedBy _ (.digits_followedBy 2
    (.char_followedBy _ (takesLongest_run _ 2 2)))) ?_
  rintro - ⟨c, hc, rfl⟩ - ⟨-, ⟨d, hd, rfl⟩, back, -, rfl⟩ hpre
  obtain rfl := (List.cons_prefix_cons.mp hpre).1
  obtain rfl := beq_iff_eq.mp hc
  exact absurd hd (by decide)

theorem takesLongest_clock : TakesLongest clock clockLanguage := by
  have hyields : Yields (1 + mark '.' * Words.run Char.isDigit 1 9) (1 + (mark 'Z' +
      (Words.char fun c => c == '+' || c == '-') * Words.digits 2 * mark ':' *
        Words.digits 2)) := by
    have hover : IsOver (1 + mark '.' * Words.run Char.isDigit 1 9)
        fun c => c == '.' || c.isDigit :=
      .one_add (.mul (isOver_char fun c hc => by simp [hc])
        fun word hword c hc => by simp [hword.2.2 c hc])
    have hstart : StartsWith (1 + (mark 'Z' + (Words.char fun c => c == '+' || c == '-') *
        Words.digits 2 * mark ':' * Words.digits 2)) ['Z', '+', '-'].contains := by
      simp only [mul_assoc]
      exact .one_add (.add (startsWith_char fun c hc => by simp [beq_iff_eq.mp hc])
        (startsWith_char_mul fun c hc => by simpa using Or.inr (by simpa using hc)))
    exact hover.yields hstart (forall_contains (by decide))
  have hparts := takesLongest_fraction.optional.followedBy takesLongest_zone.optional hyields
  simp only [clockLanguage, mul_assoc] at hparts ⊢
  exact .char_followedBy _ (.digits_followedBy 2 (.char_followedBy _ (.digits_followedBy 2
    (.char_followedBy _ (.digits_followedBy 2 hparts)))))

theorem hasLength_date : HasLength dateLanguage 10 :=
  ((((hasLength_run _ 4).mul (hasLength_char _)).mul (hasLength_run _ 2)).mul
    (hasLength_char _)).mul (hasLength_run _ 2)

theorem takesLongest : TakesLongest matcher language :=
  takesLongest_date.followedBy takesLongest_clock.optional (hasLength_date.yields _)

end Time

/-! ### Dotted quads -/

namespace Address

/-- Octets: `\d{1,3}`. -/
def octetLanguage : Language Char := Words.run Char.isDigit 1 3

/-- Four octets with points between them. -/
def quadLanguage : Language Char :=
  octetLanguage * mark '.' * octetLanguage * mark '.' * octetLanguage * mark '.' * octetLanguage

theorem yields_octet (language : Language Char) : Yields octetLanguage (mark '.' * language) :=
  have hstart : StartsWith (mark '.' * language) ['.'].contains :=
    startsWith_mark_mul List.mem_cons_self language
  (isOver_run 1 3).yields hstart (forall_contains (by decide))

theorem takesLongest_quad : TakesLongest quadMatcher quadLanguage := by
  have hoctet : TakesLongest octetMatcher octetLanguage := takesLongest_run _ 1 3
  simp only [quadLanguage, mul_assoc]
  exact hoctet.followedBy (.char_followedBy _ (hoctet.followedBy (.char_followedBy _
    (hoctet.followedBy (.char_followedBy _ hoctet) (yields_octet _))) (yields_octet _)))
    (yields_octet _)

end Address

/-! ### Numbers -/

namespace Number

/-- Groups of digits: `\d+(_\d+)*`. -/
def groupsLanguage : Language Char :=
  Words.runs Char.isDigit * (mark '_' * Words.runs Char.isDigit)∗

/-- Fractions: `\.\d+(_\d+)*`. -/
def fractionLanguage : Language Char := mark '.' * groupsLanguage

/-- Exponents: `[eE][+-]?\d+(_\d+)*`. -/
def exponentLanguage : Language Char :=
  (Words.char fun c => c == 'e' || c == 'E') *
    (1 + Words.char fun c => c == '+' || c == '-') * groupsLanguage

/-- The units. -/
def units : List (List Char) :=
  ["k", "M", "G", "T", "P", "E", "Ki", "Mi", "Gi", "Ti", "Pi", "Ei"].map String.toList

/-- Groups of digits, and then a fraction, an exponent and a unit if there are any. -/
def language : Language Char :=
  groupsLanguage * (1 + fractionLanguage) * (1 + exponentLanguage) * (1 + Words.list units)

/-- What may stand behind the first digits of groups. -/
def behindDigit : Language Char :=
  (1 + Words.runs Char.isDigit) * (mark '_' * Words.runs Char.isDigit)∗

end Number

theorem Words.runs_eq (p : Char → Bool) :
    Words.runs p = Words.char p * (1 + Words.runs p) := by
  ext word
  constructor
  · rintro ⟨hne, hall⟩
    obtain ⟨c, tail, rfl⟩ := List.exists_cons_of_ne_nil hne
    rw [List.forall_mem_cons] at hall
    refine ⟨[c], ⟨c, hall.1, rfl⟩, tail, ?_, rfl⟩
    cases tail with
    | nil => exact .inl rfl
    | cons d tail => exact .inr ⟨List.cons_ne_nil d tail, hall.2⟩
  · rintro ⟨-, ⟨c, hc, rfl⟩, tail, rfl | ⟨-, hall⟩, rfl⟩
    · exact ⟨List.cons_ne_nil c [], by simpa using hc⟩
    · exact ⟨List.cons_ne_nil c tail, List.forall_mem_cons.mpr ⟨hc, hall⟩⟩

theorem Words.mem_char_mul {p : Char → Bool} {language : Language Char} {word : List Char} :
    word ∈ Words.char p * language ↔ ∃ c tail, p c ∧ tail ∈ language ∧ word = c :: tail := by
  constructor
  · rintro ⟨-, ⟨c, hc, rfl⟩, tail, htail, rfl⟩
    exact ⟨c, tail, hc, htail, rfl⟩
  · rintro ⟨c, tail, hc, htail, rfl⟩
    exact ⟨[c], ⟨c, hc, rfl⟩, tail, htail, rfl⟩

namespace Number

theorem groupsLanguage_eq : groupsLanguage = Words.char Char.isDigit * behindDigit := by
  rw [groupsLanguage, Words.runs_eq, mul_assoc, ← Words.runs_eq, behindDigit]

/-- Behind a digit there is nothing, an underscore and a digit, or a digit. -/
theorem behindDigit_eq : behindDigit =
    1 + mark '_' * (Words.char Char.isDigit * behindDigit) +
      Words.char Char.isDigit * behindDigit := by
  have htail : (mark '_' * Words.runs Char.isDigit)∗ = 1 + mark '_' * groupsLanguage := by
    rw [← Language.one_add_self_mul_kstar_eq_kstar, groupsLanguage, mul_assoc]
  rw [← groupsLanguage_eq, ← htail, behindDigit, add_mul, one_mul, groupsLanguage]

theorem mem_behindDigit {word : List Char} : word ∈ behindDigit ↔
    word = [] ∨ (∃ d tail, d.isDigit ∧ tail ∈ behindDigit ∧ word = '_' :: d :: tail) ∨
      ∃ d tail, d.isDigit ∧ tail ∈ behindDigit ∧ word = d :: tail := by
  conv_lhs => rw [behindDigit_eq]
  rw [Language.mem_add, Language.mem_add, or_assoc, Language.mem_one, mark, mem_char_mul,
    mem_char_mul]
  refine or_congr_right (or_congr_left ⟨?_, ?_⟩)
  · rintro ⟨c, tail, hc, htail, rfl⟩
    obtain ⟨d, behind, hd, hbehind, rfl⟩ := mem_char_mul.mp htail
    exact ⟨d, behind, hd, hbehind, by rw [beq_iff_eq.mp hc]⟩
  · rintro ⟨d, tail, hd, htail, rfl⟩
    exact ⟨'_', d :: tail, rfl, mem_char_mul.mpr ⟨d, tail, hd, htail, rfl⟩, rfl⟩

/-- An underscore that waits for a digit counts with it, and not without it. -/
theorem groupsFrom_held (length : Nat) (text : List Char) :
    (∃ c rest, text = c :: rest ∧ c.isDigit ∧
        groupsFrom length true text = groupsFrom (length + 2) false rest) ∨
      (∀ c ∈ text.head?, c.isDigit = false) ∧ groupsFrom length true text = length := by
  cases text with
  | nil => exact .inr ⟨by simp, rfl⟩
  | cons c rest =>
    by_cases hc : c.isDigit
    · exact .inl ⟨c, rest, rfl, hc, by rw [groupsFrom, if_pos hc]; rfl⟩
    · exact .inr ⟨by simpa using hc, by simp [groupsFrom, hc]⟩

/-- The groups go on as far as there are words behind a digit. -/
theorem isLongest_groupsFrom (text : List Char) (length : Nat) :
    ∃ n, groupsFrom length false text = length + n ∧ IsLongest behindDigit text (some n) := by
  have hnil : ∃ word ∈ behindDigit, word <+: text ∧ word.length = 0 :=
    ⟨[], mem_behindDigit.mpr (.inl rfl), List.nil_prefix, rfl⟩
  match text with
  | [] =>
    refine ⟨0, rfl, hnil, fun word _ hpre => ?_⟩
    rw [List.prefix_nil.mp hpre]
    exact Nat.le_refl 0
  | c :: rest =>
    by_cases hdigit : c.isDigit
    · obtain ⟨n, hn, ⟨word, hword, hpre, rfl⟩, hmost⟩ := isLongest_groupsFrom rest (length + 1)
      refine ⟨word.length + 1, ?_, ⟨c :: word, ?_, ?_, rfl⟩, ?_⟩
      · rw [groupsFrom, if_pos hdigit, Bool.toNat_false, Nat.add_zero, hn]
        omega
      · exact mem_behindDigit.mpr (.inr (.inr ⟨c, word, hdigit, hword, rfl⟩))
      · exact List.cons_prefix_cons.mpr ⟨rfl, hpre⟩
      · intro other hother hpre'
        obtain rfl | ⟨d, tail, hd, -, rfl⟩ | ⟨d, tail, -, htail, rfl⟩ :=
          mem_behindDigit.mp hother
        · exact Nat.zero_le _
        · obtain ⟨rfl, -⟩ := List.cons_prefix_cons.mp hpre'
          exact absurd hdigit (by decide)
        · have := hmost tail htail (List.cons_prefix_cons.mp hpre').2
          simpa using this
    · by_cases hmark : c = '_'
      · subst hmark
        have hstep : groupsFrom length false ('_' :: rest) = groupsFrom length true rest := rfl
        rw [hstep]
        obtain ⟨d, rest, rfl, hd, heq⟩ | ⟨hhead, heq⟩ := groupsFrom_held length rest
        · obtain ⟨n, hn, ⟨word, hword, hpre, rfl⟩, hmost⟩ :=
            isLongest_groupsFrom rest (length + 2)
          refine ⟨word.length + 2, ?_, ⟨'_' :: d :: word, ?_, ?_, rfl⟩, ?_⟩
          · rw [heq, hn]
            omega
          · exact mem_behindDigit.mpr (.inr (.inl ⟨d, word, hd, hword, rfl⟩))
          · simpa using hpre
          · intro other hother hpre'
            obtain rfl | ⟨d, tail, -, htail, rfl⟩ | ⟨d, tail, hd, -, rfl⟩ :=
              mem_behindDigit.mp hother
            · exact Nat.zero_le _
            · have := hmost tail htail
                (List.cons_prefix_cons.mp (List.cons_prefix_cons.mp hpre').2).2
              simpa using this
            · obtain ⟨rfl, -⟩ := List.cons_prefix_cons.mp hpre'
              exact absurd hd hdigit
        · refine ⟨0, heq, hnil, fun other hother hpre => ?_⟩
          obtain rfl | ⟨d, tail, hd, -, rfl⟩ | ⟨d, tail, hd, -, rfl⟩ :=
            mem_behindDigit.mp hother
          · exact Nat.le_refl 0
          · obtain ⟨-, rest, rfl⟩ := List.cons_prefix_cons.mp hpre
            rw [hhead d rfl] at hd
            simp at hd
          · obtain ⟨rfl, -⟩ := List.cons_prefix_cons.mp hpre
            exact absurd hd hdigit
      · refine ⟨0, by simp [groupsFrom, hdigit, hmark], hnil, fun other hother hpre => ?_⟩
        obtain rfl | ⟨d, tail, -, -, rfl⟩ | ⟨d, tail, hd, -, rfl⟩ := mem_behindDigit.mp hother
        · exact Nat.le_refl 0
        · exact absurd (List.cons_prefix_cons.mp hpre).1.symm hmark
        · obtain ⟨rfl, -⟩ := List.cons_prefix_cons.mp hpre
          exact absurd hd hdigit
termination_by text.length

theorem takesLongest_groups : TakesLongest groups groupsLanguage := by
  rw [groupsLanguage_eq]
  intro text
  cases text with
  | nil =>
    intro word hword hpre
    obtain ⟨d, tail, -, -, rfl⟩ := mem_char_mul.mp hword
    simp at hpre
  | cons c rest =>
    by_cases hc : c.isDigit
    · obtain ⟨n, hn, ⟨word, hword, hpre, rfl⟩, hmost⟩ := isLongest_groupsFrom rest 1
      rw [groups, if_pos hc, hn]
      refine ⟨⟨c :: word, mem_char_mul.mpr ⟨c, word, hc, hword, rfl⟩, ?_, ?_⟩, ?_⟩
      · exact List.cons_prefix_cons.mpr ⟨rfl, hpre⟩
      · rw [List.length_cons, Nat.add_comm]
      · intro other hother hpre'
        obtain ⟨d, tail, -, htail, rfl⟩ := mem_char_mul.mp hother
        have := hmost tail htail (List.cons_prefix_cons.mp hpre').2
        rw [List.length_cons]
        omega
    · rw [groups, if_neg hc]
      intro word hword hpre
      obtain ⟨d, tail, hd, -, rfl⟩ := mem_char_mul.mp hword
      obtain ⟨rfl, -⟩ := List.cons_prefix_cons.mp hpre
      exact hc hd

theorem isOver_groups : IsOver groupsLanguage isGroupChar := by
  have hruns : IsOver (Words.runs Char.isDigit) isGroupChar :=
    isOver_runs fun c hc => by simp [isGroupChar, hc]
  exact hruns.mul (((isOver_char fun c hc => by simp [isGroupChar, beq_iff_eq.mp hc]).mul
    hruns).kstar)

theorem takesLongest_fraction : TakesLongest fraction fractionLanguage :=
  .char_followedBy _ takesLongest_groups

theorem takesLongest_exponent : TakesLongest exponent exponentLanguage := by
  have hsign : Yields (1 + Words.char fun c => c == '+' || c == '-') groupsLanguage := by
    have hover : IsOver (1 + Words.char fun c => c == '+' || c == '-') ['+', '-'].contains :=
      .one_add (isOver_char fun c hc => by simpa using hc)
    have hstart : StartsWith groupsLanguage isGroupChar :=
      fun word hword c hc => isOver_groups word hword c (List.mem_of_mem_head? hc)
    refine hover.yields hstart fun c hc => ?_
    refine Bool.eq_false_of_not_eq_true fun hsign => ?_
    have hnot : isGroupChar c = false := forall_contains (by decide) c hsign
    rw [hnot] at hc
    simp at hc
  rw [exponentLanguage, mul_assoc]
  exact .char_followedBy _ ((takesLongest_char _).optional.followedBy takesLongest_groups hsign)

theorem takesLongest_unit : TakesLongest unitMatcher (Words.list units) := by
  have hsame : Words.list units = Words.list (NumberUnit.suffixes.map (·.1.toList)) := by
    have hperm : units.Perm (NumberUnit.suffixes.map (·.1.toList)) := by decide
    ext word
    exact hperm.mem_iff
  rw [hsame]
  exact takesLongest_firstWord (by decide)

/-- Behind its letter and a sign or a digit, an exponent has digits and underscores. -/
theorem exponent_spec {word : List Char} (h : word ∈ exponentLanguage) :
    2 ≤ word.length ∧ ∀ c ∈ word.drop 2, isGroupChar c := by
  rw [exponentLanguage, mul_assoc] at h
  obtain ⟨letter, tail, -, ⟨sign, hsign, digits, hdigits, rfl⟩, rfl⟩ := mem_char_mul.mp h
  have hover := isOver_groups digits hdigits
  obtain ⟨c, behind, -, -, rfl⟩ := mem_char_mul.mp (groupsLanguage_eq ▸ hdigits)
  obtain rfl | ⟨mark, -, rfl⟩ := hsign
  · exact ⟨by simp, fun d hd => hover d (List.mem_cons_of_mem c hd)⟩
  · exact ⟨by simp, hover⟩

/-- A unit has at most two characters, and starts with a letter. -/
theorem unit_spec {word : List Char} (h : word ∈ Words.list units) :
    word.length ≤ 2 ∧ ∀ c ∈ word.head?, isGroupChar c = false := by
  have hall : ∀ word ∈ units, word.length ≤ 2 ∧ word.head?.all fun c => !isGroupChar c := by
    decide
  obtain ⟨hlength, hhead⟩ := hall word h
  exact ⟨hlength, fun c hc => by simpa using (Option.all_eq_true _ _).mp hhead c hc⟩

/-- An exponent is at least as long as a unit in its place, and no unit stands where an
exponent goes on. -/
theorem yields_exponent : Yields (1 + exponentLanguage) (1 + Words.list units) := by
  intro front back word hfront hall hne hword hcompare
  refine ⟨.inl rfl, ?_⟩
  obtain rfl | hword := hword
  · exact Nat.zero_le _
  have hback : (front ++ back) ∈ exponentLanguage := by
    obtain hnil | hall := hall
    · exact absurd (List.append_eq_nil_iff.mp hnil).2 hne
    · exact hall
  obtain ⟨hlength, hover⟩ := exponent_spec hback
  obtain rfl | hfront := hfront
  · exact (unit_spec hword).1.trans hlength
  · rw [List.drop_append_of_le_length (exponent_spec hfront).1] at hover
    cases word with
    | nil => exact Nat.zero_le _
    | cons c word =>
      obtain ⟨d, back, rfl⟩ := List.exists_cons_of_ne_nil hne
      obtain rfl := head_eq_of_compare hcompare
      have hgroup := hover c (List.mem_append_right _ List.mem_cons_self)
      rw [(unit_spec hword).2 c rfl] at hgroup
      simp at hgroup

theorem takesLongest : TakesLongest matcher language := by
  have hunit := takesLongest_exponent.optional.followedBy takesLongest_unit.optional
    yields_exponent
  have hletters : StartsWith ((1 + exponentLanguage) * (1 + Words.list units))
      ['e', 'E', 'k', 'M', 'G', 'T', 'P', 'K'].contains := by
    refine .mul (.one_add ?_) (.one_add ?_)
    · rw [exponentLanguage, mul_assoc]
      refine startsWith_char_mul fun c hc => ?_
      have : c = 'e' ∨ c = 'E' := by simpa using hc
      obtain rfl | rfl := this <;> decide
    · have hall : ∀ word ∈ units,
          word.head?.all ['e', 'E', 'k', 'M', 'G', 'T', 'P', 'K'].contains := by decide
      exact fun word hword c hc => (Option.all_eq_true _ _).mp (hall word hword) c hc
  have hover : IsOver (1 + fractionLanguage) fun c => c == '.' || isGroupChar c :=
    .one_add (.mul (isOver_char fun c hc => by simp [beq_iff_eq.mp hc])
      fun word hword c hc => by simp [isOver_groups word hword c hc])
  have hfraction := takesLongest_fraction.optional.followedBy hunit
    (hover.yields hletters (forall_contains (by decide)))
  have hstart : StartsWith ((1 + fractionLanguage) * ((1 + exponentLanguage) *
      (1 + Words.list units))) ['.', 'e', 'E', 'k', 'M', 'G', 'T', 'P', 'K'].contains :=
    .mul (.one_add (startsWith_mark_mul (by decide) _))
      (hletters.mono fun c hc => by rw [List.contains_cons, hc, Bool.or_true])
  have hparts := takesLongest_groups.followedBy hfraction
    (isOver_groups.yields hstart (forall_contains (by decide)))
  simp only [language, mul_assoc]
  exact hparts

end Number

/-! ### Durations -/

namespace Duration

/-- The units. -/
def units : List (List Char) :=
  ["ns", "us", "ms", "s", "sec", "second", "seconds", "m", "min", "minute", "minutes",
    "h", "hr", "hour", "hours", "d", "day", "days", "w", "week", "weeks",
    "y", "year", "years"].map String.toList

/-- Durations: `\d+` and a unit. -/
def language : Language Char := Words.runs Char.isDigit * Words.list units

theorem takesLongest_unit : TakesLongest unitMatcher (Words.list units) := by
  have hsame : unitMatcher =
      units.foldr (fun letters best => (word letters).longer best) fun _ => none := rfl
  rw [hsame]
  exact takesLongest_foldr_word units

theorem takesLongest : TakesLongest matcher language := by
  have hstart :
      StartsWith (Words.list units) ['n', 'u', 'm', 's', 'h', 'd', 'w', 'y'].contains := by
    have hall : ∀ word ∈ units,
        word.head?.all ['n', 'u', 'm', 's', 'h', 'd', 'w', 'y'].contains := by decide
    exact fun word hword c hc => (Option.all_eq_true _ _).mp (hall word hword) c hc
  exact (takesLongest_runs _).followedBy takesLongest_unit
    ((isOver_runs fun _ hc => hc).yields hstart (forall_contains (by decide)))

end Duration

/-! ### The literal that is chosen -/

namespace Lexeme

/-- A lexeme is the longest that some matchers take from the head of a text, and the first
one of those that take as much. -/
def IsBest (matchers : List (TokenKind × Matcher)) (text : List Char) (lexeme : Lexeme) : Prop :=
  ∃ (front back : List (TokenKind × Matcher)) (matcher : Matcher),
    matchers = front ++ (lexeme.kind, matcher) :: back ∧ matcher text = some lexeme.length ∧
      (∀ earlier ∈ front, ∀ n ∈ earlier.2 text, n < lexeme.length) ∧
      ∀ later ∈ back, ∀ n ∈ later.2 text, n ≤ lexeme.length

variable {text : List Char} {lexeme : Lexeme} {matchers : List (TokenKind × Matcher)}

/-- Of two lexemes the first one stays unless it is shorter. -/
theorem longer_cases {a b : Option Lexeme} (h : longer a b = some lexeme) :
    a = some lexeme ∧ (∀ other ∈ b, other.length ≤ lexeme.length) ∨
      b = some lexeme ∧ ∀ other ∈ a, other.length < lexeme.length := by
  match a, b with
  | some x, some y =>
    simp only [longer] at h
    split at h
    · next hlt =>
      obtain rfl := Option.some.inj h
      exact .inr ⟨rfl, by rintro _ ⟨⟩; exact hlt⟩
    · next hle =>
      obtain rfl := Option.some.inj h
      exact .inl ⟨rfl, by rintro _ ⟨⟩; exact Nat.not_lt.mp hle⟩
  | some x, none => exact .inl ⟨h, by simp⟩
  | none, some y => exact .inr ⟨h, by simp⟩
  | none, none => simp [longer] at h

/-- Where the longer of two lexemes is too short, both are. -/
theorem length_lt_of_longer {a b : Option Lexeme} {n : Nat}
    (h : ∀ found ∈ longer a b, found.length < n) :
    (∀ found ∈ a, found.length < n) ∧ ∀ found ∈ b, found.length < n := by
  cases hlonger : longer a b with
  | none =>
    obtain ⟨rfl, rfl⟩ := longer_none hlonger
    simp
  | some lexeme =>
    obtain ⟨-, ha, hb⟩ := longer_some hlonger
    have hlt := h lexeme hlonger
    exact ⟨fun found hfound => Nat.lt_of_le_of_lt (ha found hfound) hlt,
      fun found hfound => Nat.lt_of_le_of_lt (hb found hfound) hlt⟩

/-- Of what has been found and what some matchers take, the longest lexeme stays, and the
first one of those that are as long. -/
theorem isBest_of_longest {best : Option Lexeme} (h : longest matchers text best = some lexeme) :
    best = some lexeme ∧ (∀ entry ∈ matchers, ∀ n ∈ entry.2 text, n ≤ lexeme.length) ∨
      (∀ found ∈ best, found.length < lexeme.length) ∧ IsBest matchers text lexeme := by
  induction matchers generalizing best with
  | nil => exact .inl ⟨h, by simp⟩
  | cons entry matchers ih =>
    obtain ⟨kind, matcher⟩ := entry
    rw [longest_cons] at h
    obtain ⟨hlonger, hothers⟩ | ⟨hshorter, front, back, chosen, rfl, htaken, hfront, hback⟩ :=
      ih h
    · -- No later matcher takes more: the lexeme was there, or this matcher takes it.
      obtain ⟨hbest, hle⟩ | ⟨htaken, hlt⟩ := longer_cases hlonger
      · refine .inl ⟨hbest, List.forall_mem_cons.mpr ⟨fun n hn => ?_, hothers⟩⟩
        exact hle ⟨kind, n⟩ (Option.map_eq_some_iff.mpr ⟨n, hn, rfl⟩)
      · obtain ⟨n, hn, rfl⟩ := Option.map_eq_some_iff.mp htaken
        exact .inr ⟨hlt, [], matchers, matcher, rfl, hn, by simp, hothers⟩
    · obtain ⟨hbest, hlt⟩ := length_lt_of_longer hshorter
      refine .inr ⟨hbest, (kind, matcher) :: front, back, chosen, rfl, htaken,
        List.forall_mem_cons.mpr ⟨fun n hn => ?_, hfront⟩, hback⟩
      exact hlt ⟨kind, n⟩ (Option.map_eq_some_iff.mpr ⟨n, hn, rfl⟩)

/-- The literal that a digit starts is the longest one. -/
theorem ofDigit_isBest {c : Char} (hc : c.isDigit) (rest : List Char) :
    IsBest literals (c :: rest) (ofDigit (c :: rest)) := by
  have hliteral := literal?_of_isDigit hc rest
  rw [literal?_eq_longest] at hliteral
  obtain ⟨hnone, -⟩ | ⟨-, hbest⟩ := isBest_of_longest hliteral
  · simp at hnone
  · exact hbest

end Lexeme

namespace Scanner

/-- What a scanner reads at a digit. -/
theorem read_of_isDigit {scanner : Scanner} {c : Char} {rest : List Char}
    (hphase : scanner.phase ≠ .frontmatter) (hrest : scanner.passGap.cursor.rest = c :: rest)
    (hc : c.isDigit) : scanner.read.1 = .ok (scanner.passGap.tokenOf
      (Lexeme.ofDigit (c :: rest)).kind (Lexeme.ofDigit (c :: rest)).length) := by
  have hopening : scanner.passGap.opening? = none := by
    refine opening?_of_head ?_
    rw [hrest, List.head?_cons, Ne, Option.some.injEq]
    rintro rfl
    exact absurd hc (by decide)
  have hkind : (Lexeme.ofDigit (c :: rest)).kind ≠ .eof := by
    intro heof
    have hmem := (Lexeme.ofDigit_spec hc rest).2
    rw [heof] at hmem
    exact absurd hmem (by decide)
  rw [read_of_opening? hphase hopening, readProgram_of_lexeme _ hkind]
  rw [hrest]
  exact Lexeme.recognizeWith_of_isDigit hc _ rest

/-- At every place of every input, the matchers take exactly the longest word of their
grammars, and nothing if there is none. The token that a digit starts is the longest of the
five literals; of literals of the same length, the first one in this order. -/
theorem reads_longest_literals :
    (∀ (input : List Char) (position : Nat),
      IsLongest Time.language (input.drop position) (Time.matcher (input.drop position)) ∧
      IsLongest Address.quadLanguage (input.drop position)
        (Address.quadMatcher (input.drop position)) ∧
      IsLongest Number.language (input.drop position) (Number.matcher (input.drop position)) ∧
      IsLongest Duration.language (input.drop position)
        (Duration.matcher (input.drop position))) ∧
    ∀ (scanner : Scanner) (c : Char) (rest : List Char), scanner.phase ≠ .frontmatter →
      scanner.passGap.cursor.rest = c :: rest → c.isDigit →
      ∃ lexeme, scanner.read.1 = .ok (scanner.passGap.tokenOf lexeme.kind lexeme.length) ∧
        Lexeme.IsBest [(.time, Time.matcher), (.subnet, Address.subnetMatcher),
          (.ip, Address.matcher), (.number, Number.matcher), (.duration, Duration.matcher)]
          (c :: rest) lexeme := by
  refine ⟨fun input position => ⟨Time.takesLongest _, Address.takesLongest_quad _,
    Number.takesLongest _, Duration.takesLongest _⟩, ?_⟩
  intro scanner c rest hphase hrest hc
  exact ⟨_, read_of_isDigit hphase hrest hc, Lexeme.ofDigit_isBest hc rest⟩

theorem reads_longest_literals_at_duration :
    ∃ lexeme, (ofSource ['5', 'm', 'i', 'n']).read.1 =
        .ok ((ofSource ['5', 'm', 'i', 'n']).passGap.tokenOf lexeme.kind lexeme.length) ∧
      Lexeme.IsBest [(.time, Time.matcher), (.subnet, Address.subnetMatcher),
        (.ip, Address.matcher), (.number, Number.matcher), (.duration, Duration.matcher)]
        ['5', 'm', 'i', 'n'] lexeme :=
  reads_longest_literals.2 (ofSource ['5', 'm', 'i', 'n']) '5' ['m', 'i', 'n']
    (by decide) rfl (by decide)

end Scanner

end PipelineLang
