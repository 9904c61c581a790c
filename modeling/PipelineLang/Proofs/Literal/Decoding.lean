import Mathlib.Algebra.Group.Nat.Defs
import Mathlib.Data.List.Nodup
import PipelineLang.Literal.Basic
import PipelineLang.Proofs.Address.Shapes
import PipelineLang.Proofs.Text.Walking
import PipelineLang.Proofs.Token.Spelling

/-!
# Literals have values

A string, a subnet and a duration are recognised by their shape, and their value is read
from their text later. Here the text that has been recognised always has a value.

## Main results

- `StringLiteral.read?_plain`, `StringLiteral.read?_raw` — strings
- `Subnet.isSome_read?` — subnets
- `Duration.isSome_read?` — durations
- `Lexeme.exists_value` — whatever is recognised as one of them
-/

namespace PipelineLang

open Matcher

/-! ### Strings -/

namespace Utf8

/-- Bytes that are characters can be dropped one by one. -/
theorem dropBytes?_append {front : List Char} (rest : List Char)
    (h : ∀ c ∈ front, c.utf8Size = 1) : dropBytes? front.length (front ++ rest) = some rest := by
  induction front with
  | nil => cases rest <;> rfl
  | cons c front ih =>
    rw [List.forall_mem_cons] at h
    rw [List.length_cons, List.cons_append, dropBytes?, h.1, if_pos (Nat.le_add_left 1 _),
      Nat.add_sub_cancel, ih h.2]

/-- What lies between characters of one byte. -/
theorem trimBytes?_append {front back : List Char} (middle : List Char)
    (hfront : ∀ c ∈ front, c.utf8Size = 1) (hback : ∀ c ∈ back, c.utf8Size = 1) :
    trimBytes? front.length back.length (front ++ (middle ++ back)) = some middle := by
  have hreverse : dropBytes? back.length (middle ++ back).reverse = some middle.reverse := by
    have hlength : back.reverse.length = back.length := List.length_reverse
    rw [List.reverse_append, ← hlength]
    exact dropBytes?_append _ fun c hc => hback c (List.mem_reverse.mp hc)
  simp only [trimBytes?, dropBytes?_append _ hfront, hreverse, Option.bind_eq_bind,
    Option.bind_some, Option.pure_def, List.reverse_reverse]

end Utf8

namespace StringLiteral

/-- The mark of a string of bytes, or none. -/
def byteMark (bytes : Bool) : List Char := if bytes then ['b'] else []

/-- What a string with escapes stands for, given what is between its quotes. -/
def escapedValue (bytes : Bool) (body : List Char) : StringValue :=
  let decoded := Escape.decode (Utf8.encode body)
  if bytes then .bytes decoded else .text (String.ofList (Utf8.decode decoded))

/-- What a raw string stands for, given what is between its quotes. -/
def verbatimValue (bytes : Bool) (body : List Char) : StringValue :=
  if bytes then .bytes (Utf8.encode body) else .text (String.ofList body)

theorem plainValue?_quoted (bytes : Bool) {quote : Char} (hquote : quote = '\x22' ∨ quote = '\x27')
    (body : List Char) :
    plainValue? bytes (quote :: (body ++ [quote])) = some (escapedValue bytes body) := by
  have hsize : ∀ c ∈ [quote], c.utf8Size = 1 := by
    obtain rfl | rfl := hquote <;> simp <;> decide
  have htrim : Utf8.trimBytes? 1 1 (quote :: (body ++ [quote])) = some body :=
    Utf8.trimBytes?_append body hsize hsize
  simp only [plainValue?, htrim]
  rfl

/-- A string between quotes, behind the mark of a string of bytes or no mark. -/
theorem read?_plain (bytes : Bool) {quote : Char} (hquote : quote = '\x22' ∨ quote = '\x27')
    (body : List Char) :
    read? (String.ofList (byteMark bytes ++ quote :: (body ++ [quote]))) =
      some ⟨String.ofList (byteMark bytes ++ quote :: (body ++ [quote])),
        escapedValue bytes body, false⟩ := by
  have hvalue := fun bytes => plainValue?_quoted bytes hquote body
  cases bytes <;> obtain rfl | rfl := hquote <;> simp [read?, splitByteMark, byteMark, hvalue]

/-- The fences and the quote that open a raw string, and what closes it. -/
theorem rawValue?_fenced (bytes : Bool) (count : Nat) (body : List Char) :
    rawValue? bytes ((List.replicate count '#' ++ ['\x22']) ++
      (body ++ ('\x22' :: List.replicate count '#'))) = some (verbatimValue bytes body) := by
  have hfences : fences ((List.replicate count '#' ++ ['\x22']) ++
      (body ++ ('\x22' :: List.replicate count '#'))) = count := by
    rw [fences, List.append_assoc, List.takeWhile_append_of_pos (by simp)]
    simp
  have hmark : ∀ c, c = '#' ∨ c = '\x22' → c.utf8Size = 1 := by
    rintro c (rfl | rfl) <;> decide
  have hfront : ∀ c ∈ List.replicate count '#' ++ ['\x22'], c.utf8Size = 1 := by
    intro c hc
    rw [List.mem_append, List.mem_singleton] at hc
    exact hmark c (hc.imp_left List.eq_of_mem_replicate)
  have hback : ∀ c ∈ '\x22' :: List.replicate count '#', c.utf8Size = 1 := by
    intro c hc
    rw [List.mem_cons] at hc
    exact hmark c (hc.symm.imp_left List.eq_of_mem_replicate)
  have htrim := Utf8.trimBytes?_append body hfront hback
  rw [List.length_append, List.length_replicate, List.length_singleton, List.length_cons,
    List.length_replicate] at htrim
  simp only [rawValue?, hfences, htrim]
  rfl

/-- A raw string, behind the mark of a string of bytes or no mark. -/
theorem read?_raw (bytes : Bool) (count : Nat) (body : List Char) :
    read? (String.ofList (byteMark bytes ++ 'r' :: ((List.replicate count '#' ++ ['\x22']) ++
        (body ++ ('\x22' :: List.replicate count '#'))))) =
      some ⟨String.ofList (byteMark bytes ++ 'r' :: ((List.replicate count '#' ++ ['\x22']) ++
        (body ++ ('\x22' :: List.replicate count '#')))), verbatimValue bytes body, true⟩ := by
  have hvalue := fun bytes => rawValue?_fenced bytes count body
  generalize (List.replicate count '#' ++ ['\x22']) ++
    (body ++ ('\x22' :: List.replicate count '#')) = rest at hvalue
  cases bytes <;> simp [read?, splitByteMark, byteMark, hvalue]

end StringLiteral

/-! ### Subnets -/

theorem Ascii.number_lt {digits : List Char} (h : digits.all Char.isDigit) :
    Ascii.number 10 digits < 10 ^ digits.length := by
  have hvalue : ∀ c : Char, c.isDigit → Ascii.digitValue c ≤ 9 := by
    intro c hc
    rw [Ascii.digitValue, if_pos hc]
    simp only [Char.isDigit, Bool.and_eq_true, decide_eq_true_eq] at hc
    have hle : c.toNat ≤ '9'.toNat := hc.2
    have hnine : '9'.toNat = '0'.toNat + 9 := rfl
    omega
  have hfold : ∀ start, digits.foldl (fun value c => 10 * value + Ascii.digitValue c) start + 1 ≤
      (start + 1) * 10 ^ digits.length := by
    induction digits with
    | nil => simp
    | cons c digits ih =>
      intro start
      rw [List.all_cons, Bool.and_eq_true] at h
      have hc := hvalue c h.1
      have hrest := ih h.2 (10 * start + Ascii.digitValue c)
      rw [List.foldl_cons, List.length_cons, Nat.pow_succ']
      calc _ ≤ (10 * start + Ascii.digitValue c + 1) * 10 ^ digits.length := hrest
        _ ≤ ((start + 1) * 10) * 10 ^ digits.length := Nat.mul_le_mul_right _ (by omega)
        _ = (start + 1) * (10 * 10 ^ digits.length) := by rw [Nat.mul_assoc]
  have hzero := hfold 0
  rw [Nat.zero_add, Nat.one_mul] at hzero
  exact Nat.lt_of_succ_le hzero

namespace Subnet

/-- An address without a slash, a slash, and some digits. -/
theorem read?_slash {address digits : List Char} (haddress : ∀ c ∈ address, c ≠ '/')
    (hdigits : digits.all Char.isDigit) (hlength : 1 ≤ digits.length ∧ digits.length ≤ 3) :
    read? (String.ofList (address ++ '/' :: digits)) =
      some ⟨String.ofList (address ++ '/' :: digits), Address.ofText? address,
        Ascii.number 10 digits⟩ := by
  have hdrop : (address ++ '/' :: digits).dropWhile (· != '/') = '/' :: digits := by
    rw [List.dropWhile_append_of_pos (by simpa using haddress)]
    simp
  have htake : (address ++ '/' :: digits).takeWhile (· != '/') = address := by
    rw [List.takeWhile_append_of_pos (by simpa using haddress)]
    simp
  have hbits : bits? digits = some (Ascii.number 10 digits) := by
    obtain ⟨c, rest, rfl⟩ := List.exists_cons_of_length_pos hlength.1
    have hplus : c ≠ '+' := by
      rintro rfl
      simp at hdigits
    have hlt := Ascii.number_lt hdigits
    have hpow : 10 ^ (c :: rest).length ≤ 10 ^ 3 := Nat.pow_le_pow_right (by decide) hlength.2
    have hmost : ¬ maxBits < Ascii.number 10 (c :: rest) := by
      rw [maxBits]
      omega
    unfold bits?
    split
    · next heq => exact absurd (List.cons.inj heq).1 hplus
    · simp [hdigits, Duration.boundedNumber?, hmost]
  simp only [read?, String.toList_ofList, hdrop, htake, hbits, Option.map_some]

/-- What is taken as an address and the length of its network part. -/
theorem exists_digits {a : Matcher} {most : Nat} {text : List Char} {n : Nat}
    (h : a.followedBy (Address.lengthMatcher most) text = some n) :
    ∃ m digits, a text = some m ∧ text.take n = text.take m ++ '/' :: digits ∧
      digits.all Char.isDigit ∧ 1 ≤ digits.length ∧ digits.length ≤ most := by
  obtain ⟨m, k, hm, hk, rfl⟩ := followedBy_eq_some.mp h
  obtain ⟨one, j, hone, hj, rfl⟩ := followedBy_eq_some.mp hk
  obtain ⟨c, tail, hdrop, hslash, rfl⟩ := char_eq_some.mp hone
  obtain rfl : c = '/' := by simpa using hslash
  rw [hdrop, List.drop_one, List.tail_cons] at hj
  obtain ⟨hrun, hleast⟩ := run_eq_some.mp hj
  have hbegins := List.takeWhile_prefix Char.isDigit (l := tail.take most)
  have hlength := hbegins.length_le
  rw [List.length_take] at hlength
  have htake : tail.take j = (tail.take most).takeWhile Char.isDigit := by
    rw [List.prefix_iff_eq_take.mp hbegins, hrun, List.take_take, Nat.min_eq_left (by omega)]
  refine ⟨m, tail.take j, hm, ?_, ?_, ?_⟩
  · rw [List.take_add, hdrop, Nat.add_comm 1, List.take_succ_cons]
  · rw [htake, List.all_eq_true]
    exact fun c hc => List.mem_takeWhile_imp hc
  · rw [htake]
    omega

/-- What is recognised as a subnet is an address without a slash, a slash, and some digits. -/
theorem exists_parts {text : List Char} {n : Nat} (h : Address.subnetMatcher text = some n) :
    ∃ m digits, (Address.quadMatcher text = some m ∨ Address.groupsMatcher text = some m) ∧
      text.take n = text.take m ++ '/' :: digits ∧ (∀ c ∈ text.take m, c ≠ '/') ∧
      digits.all Char.isDigit ∧ 1 ≤ digits.length ∧ digits.length ≤ 3 := by
  have hforeign : Address.AreForeign ['/'] := by
    intro mark hmark
    obtain rfl := List.mem_singleton.mp hmark
    decide
  have hslash : ∀ {a : Matcher} {m : Nat}, Counted ['/'] 0 0 a → a text = some m →
      ∀ c ∈ text.take m, c ≠ '/' := by
    intro a m ha hm c hc heq
    have hcount := (ha hm).2
    rw [Nat.le_zero, List.countP_eq_zero] at hcount
    exact hcount c hc (by simp [heq])
  obtain ⟨h, -⟩ | ⟨h, -⟩ := longer_eq_some.mp h
  · obtain ⟨m, digits, hm, htext, hdigits, hleast, hmost⟩ := exists_digits h
    exact ⟨m, digits, .inl hm, htext, hslash (Address.counted_quadMatcher hforeign) hm, hdigits,
      hleast, Nat.le_succ_of_le hmost⟩
  · obtain ⟨m, digits, hm, htext, hdigits, hleast, hmost⟩ := exists_digits h
    exact ⟨m, digits, .inr hm, htext, hslash (Address.counted_groupsMatcher hforeign) hm, hdigits,
      hleast, hmost⟩

/-- So it has a value. -/
theorem isSome_read? {text : List Char} {n : Nat} (h : Address.subnetMatcher text = some n) :
    (read? (String.ofList (text.take n))).isSome := by
  obtain ⟨m, digits, -, htext, hslash, hdigits, hlength⟩ := exists_parts h
  rw [htext, read?_slash hslash hdigits hlength, Option.isSome_some]

end Subnet

/-! ### Durations -/

namespace Duration

theorem exists_suffix {text : List Char} {n : Nat} (h : unitMatcher text = some n) :
    ∃ suffix ∈ DurationUnit.suffixes, text.take n = suffix.1.toList := by
  have hall : ∀ text n, unitMatcher text = some n →
      ∃ suffix ∈ DurationUnit.suffixes, text.take n = suffix.1.toList := by
    refine unitMatcher_induction (P := fun m => ∀ text n, m text = some n →
      ∃ suffix ∈ DurationUnit.suffixes, text.take n = suffix.1.toList) (by simp) ?_ ?_
    · intro suffix hsuffix text n hword
      obtain ⟨hbegins, rfl⟩ := word_eq_some.mp hword
      exact ⟨suffix, hsuffix, (List.prefix_iff_eq_take.mp hbegins).symm⟩
    · intro a b ha hb text n hlonger
      obtain ⟨h, -⟩ | ⟨h, -⟩ := longer_eq_some.mp hlonger
      · exact ha text n h
      · exact hb text n h
  exact hall text n h

/-- Digits and the suffix of a unit. -/
theorem read?_suffix {digits : List Char} (hdigits : ∀ c ∈ digits, c.isDigit)
    {suffix : String × DurationUnit} (hsuffix : suffix ∈ DurationUnit.suffixes) :
    read? (String.ofList (digits ++ suffix.1.toList)) =
      some ⟨String.ofList (digits ++ suffix.1.toList), boundedNumber? maxMagnitude digits,
        suffix.2⟩ := by
  have hunits : ∀ suffix ∈ DurationUnit.suffixes,
      DurationUnit.ofSuffix? suffix.1 = some suffix.2 ∧
        suffix.1.toList.takeWhile Char.isDigit = [] ∧
        suffix.1.toList.dropWhile Char.isDigit = suffix.1.toList := by decide
  obtain ⟨hunit, htake, hdrop⟩ := hunits suffix hsuffix
  have hcount : (digits ++ suffix.1.toList).takeWhile Char.isDigit = digits := by
    rw [List.takeWhile_append_of_pos hdigits, htake, List.append_nil]
  have hbehind : (digits ++ suffix.1.toList).dropWhile Char.isDigit = suffix.1.toList := by
    rw [List.dropWhile_append_of_pos hdigits, hdrop]
  simp only [read?, String.toList_ofList, hcount, hbehind, String.ofList_toList, hunit,
    Option.bind_eq_bind, Option.bind_some, Option.pure_def]

/-- What is recognised as a duration is some digits and the suffix of a unit. -/
theorem exists_parts {text : List Char} {n : Nat} (h : matcher text = some n) :
    ∃ digits, ∃ suffix ∈ DurationUnit.suffixes, text.take n = digits ++ suffix.1.toList ∧
      digits ≠ [] ∧ ∀ c ∈ digits, c.isDigit := by
  obtain ⟨m, k, hm, hk, rfl⟩ := followedBy_eq_some.mp h
  obtain ⟨suffix, hsuffix, htake⟩ := exists_suffix hk
  obtain ⟨rfl, hne⟩ := runs_eq_some.mp hm
  refine ⟨text.takeWhile Char.isDigit, suffix, hsuffix, ?_, fun hnil => hne ?_, fun c hc => ?_⟩
  · rw [List.take_add, take_length_takeWhile, htake]
  · rw [hnil, List.length_nil]
  · exact List.mem_takeWhile_imp hc

/-- So it has a value. -/
theorem isSome_read? {text : List Char} {n : Nat} (h : matcher text = some n) :
    (read? (String.ofList (text.take n))).isSome := by
  obtain ⟨digits, suffix, hsuffix, htext, -, hdigits⟩ := exists_parts h
  rw [htext, read?_suffix hdigits hsuffix, Option.isSome_some]

end Duration

/-! ### Lexemes -/

namespace Lexeme

variable {replacement : Option TokenKind → List Char → Except LexicalFault Replacement}
  {before : Before} {text : List Char} {lexeme : Lexeme}

/-- What is between the quotes of a string, and the quotes. -/
theorem take_of_ofQuoted {lead : Nat} (h : ofQuoted before lead text = .ok lexeme) :
    ∃ quote middle, (text.drop lead).head? = some quote ∧
      text.take lexeme.length = text.take lead ++ quote :: (middle ++ [quote]) := by
  rw [ofQuoted] at h
  split at h
  · simp at h
  · next quote body hbody =>
    have hdrop : body = text.drop (lead + 1) := by
      rw [← List.drop_drop, hbody]
      rfl
    rw [hdrop] at h
    obtain ⟨last, _, hle, hlast, hstop⟩ := exists_stop_of_walk h (by simp [ofQuoted.finish])
    rw [List.drop_eq_getElem_cons hlast] at hstop
    simp only [ofQuoted.stop] at hstop
    split at hstop
    · split at hstop <;> simp at hstop
    split at hstop
    · next hquote =>
      obtain rfl := Except.ok.inj (Stride.done.inj hstop)
      refine ⟨quote, body.take (last - (lead + 1)), by rw [hbody]; rfl, ?_⟩
      have hlength : last + 1 = lead + (last - (lead + 1) + 1 + 1) := by omega
      have hbehind : (text.drop last).take 1 = [quote] := by
        rw [List.drop_eq_getElem_cons hlast, hquote]
        rfl
      show text.take (last + 1) = _
      rw [hlength, List.take_add, hbody, List.take_succ_cons, List.take_add, hdrop,
        List.drop_drop, Nat.add_sub_cancel' hle, hbehind]
    · simp at hstop

theorem fenceCount_spec (text : List Char) :
    text.take (fenceCount text) = List.replicate (fenceCount text) fence := by
  rw [fenceCount, Matcher.take_length_takeWhile]
  exact List.eq_replicate_of_mem fun c hc => by simpa using List.mem_takeWhile_imp hc

/-- What is between the quotes of a raw string, and the quotes and fences. -/
theorem take_of_ofRaw {lead : Nat} (h : ofRaw before lead text = .ok lexeme)
    (hopens : opensRaw (text.drop lead)) :
    ∃ count middle, text.take lexeme.length = text.take lead ++
      ((List.replicate count '#' ++ ['\x22']) ++
        (middle ++ ('\x22' :: List.replicate count '#'))) := by
  rw [ofRaw] at h
  have hfences := fenceCount_spec (text.drop lead)
  rw [opensRaw, beq_iff_eq, List.drop_drop] at hopens
  generalize fenceCount (text.drop lead) = count at h hfences hopens
  split at h
  · simp at h
  obtain ⟨last, _, hle, hlast, hstop⟩ := exists_stop_of_walk h (by simp [ofRaw.finish])
  rw [List.drop_eq_getElem_cons hlast] at hstop
  simp only [ofRaw.stop] at hstop
  split at hstop
  · next hquote =>
    obtain rfl := Except.ok.inj (Stride.done.inj hstop)
    simp only [Bool.and_eq_true, decide_eq_true_eq, List.isPrefixOf_iff_prefix] at hquote
    obtain ⟨hquote, hclosing⟩ := hquote
    have hopening : (text.drop (lead + count)).take 1 = ['\x22'] := by
      obtain ⟨rest, hrest⟩ := List.head?_eq_some_iff.mp hopens
      rw [hrest]
      rfl
    have hbehind : (text.drop last).take (1 + count) = '\x22' :: List.replicate count fence := by
      rw [List.drop_eq_getElem_cons hlast, hquote, Nat.add_comm, List.take_succ_cons,
        List.prefix_iff_eq_take.mp hclosing, List.length_replicate]
    have hlength : last + 1 + count =
        lead + (count + (1 + (last - (lead + count + 1) + (1 + count)))) := by omega
    refine ⟨count, (text.drop (lead + count + 1)).take (last - (lead + count + 1)), ?_⟩
    show text.take (last + 1 + count) = _
    rw [hlength, List.take_add, List.take_add, hfences, List.drop_drop, List.take_add, hopening,
      List.drop_drop, List.take_add, List.drop_drop, Nat.add_sub_cancel' hle, hbehind]
    simp [fence]
  · simp at hstop

/-- How a string is recognised. -/
inductive RecognizedString (before : Before) (text : List Char) (lexeme : Lexeme) : Prop
  | plain {lead} (hmarks : text.take lead = [] ∨ text.take lead = ['b'])
    (hquote : (text.drop lead).head? = some '\x22' ∨ (text.drop lead).head? = some '\x27')
    (h : ofQuoted before lead text = .ok lexeme)
  | raw {lead} (hmarks : text.take lead = ['r'] ∨ text.take lead = ['b', 'r'])
    (hopens : opensRaw (text.drop lead)) (h : ofRaw before lead text = .ok lexeme)

theorem recognizedString_of_ok (h : recognizeWith replacement before text = .ok lexeme)
    (hkind : lexeme.kind = .string) : RecognizedString before text lexeme := by
  have hother : ∀ {kinds : List TokenKind}, .string ∉ kinds → lexeme.kind ∉ kinds := by
    intro kinds hmem
    rwa [hkind]
  unfold recognizeWith at h
  split at h
  · cases h; simp at hkind
  · cases h; simp at hkind
  · cases h; simp [ofLineComment] at hkind
  · rw [(ofBlockComment_delimited _ _ _ h).1] at hkind
    simp at hkind
  · exact .plain (.inl rfl) (.inl rfl) h
  · exact .plain (.inl rfl) (.inr rfl) h
  · next c rest _ _ _ _ _ =>
    dsimp only at h
    split at h
    · next hmark =>
      simp only [Bool.and_eq_true, Bool.or_eq_true, decide_eq_true_eq, beq_iff_eq] at hmark
      obtain ⟨rfl, hquote⟩ := hmark
      have hlead : ('b' :: rest).take 1 = ['b'] := rfl
      exact .plain (.inr hlead) hquote h
    split at h
    · next hmark =>
      simp only [Bool.and_eq_true, decide_eq_true_eq, beq_iff_eq] at hmark
      obtain ⟨⟨rfl, hr⟩, hopens⟩ := hmark
      obtain ⟨rest, rfl⟩ := List.head?_eq_some_iff.mp hr
      exact .raw (.inr rfl) hopens h
    split at h
    · next hmark =>
      simp only [Bool.and_eq_true, decide_eq_true_eq] at hmark
      obtain ⟨rfl, hopens⟩ := hmark
      have hlead : ('r' :: rest).take 1 = ['r'] := rfl
      exact .raw (.inl hlead) hopens h
    split at h
    · cases hbody : FormatBody.read replacement before (c :: rest) with
      | error fault => simp [hbody, Except.map] at h
      | ok body =>
        simp only [hbody, Except.map, Except.ok.injEq] at h
        simp [← h] at hkind
    split at h
    · split at h
      · simp at h
      · cases h; simp at hkind
    split at h
    · next hdigit =>
      cases h
      exact absurd (ofDigit_spec hdigit rest).2 (hother (by decide))
    split at h
    · next hcolon =>
      subst hcolon
      cases h
      exact absurd (ofColon_spec before rest).2 (hother (by decide))
    split at h
    · next hword =>
      cases h
      obtain hmem | ⟨spelling, hspelling⟩ := ofWord_kind before hword rest
      · exact absurd hmem (hother (by decide))
      · simp [hkind, TokenKind.spelling?] at hspelling
    split at h
    · next hpunctuation =>
      cases h
      have hkinds : ∀ entry ∈ punctuation, entry.2 ≠ .string := by decide
      exact absurd hkind (hkinds _ (ofPunctuation?_spec hpunctuation).1)
    · simp at h

theorem exists_byteMark {marks : List Char} (h : marks = [] ∨ marks = ['b']) :
    ∃ bytes, marks = StringLiteral.byteMark bytes :=
  h.elim (fun h => ⟨false, h⟩) fun h => ⟨true, h⟩

theorem exists_byteMark_raw {marks : List Char} (h : marks = ['r'] ∨ marks = ['b', 'r']) :
    ∃ bytes, marks = StringLiteral.byteMark bytes ++ ['r'] :=
  h.elim (fun h => ⟨false, h⟩) fun h => ⟨true, h⟩

theorem isSome_string (h : RecognizedString before text lexeme) :
    (StringLiteral.read? (String.ofList (text.take lexeme.length))).isSome := by
  cases h with
  | plain hmarks hquote h =>
    obtain ⟨quote, middle, hhead, htake⟩ := take_of_ofQuoted h
    rw [hhead, Option.some.injEq, Option.some.injEq] at hquote
    obtain ⟨bytes, hmarks⟩ := exists_byteMark hmarks
    rw [htake, hmarks, StringLiteral.read?_plain bytes hquote, Option.isSome_some]
  | raw hmarks hopens h =>
    obtain ⟨count, middle, htake⟩ := take_of_ofRaw h hopens
    obtain ⟨bytes, hmarks⟩ := exists_byteMark_raw hmarks
    rw [htake, hmarks, List.append_assoc, List.singleton_append, StringLiteral.read?_raw,
      Option.isSome_some]

theorem ofDigit_matches {c : Char} (hc : c.isDigit) (rest : List Char) :
    ∃ literal ∈ literals, (ofDigit (c :: rest)).kind = literal.1 ∧
      literal.2 (c :: rest) = some (ofDigit (c :: rest)).length := by
  obtain ⟨n, hn, -⟩ := Number.matcher_of_isDigit hc rest
  rw [ofDigit, literal?_eq_longest]
  cases h : longest literals (c :: rest) none with
  | none =>
    -- Some number is always found.
    simp only [longest, literals, List.foldl_cons, List.foldl_nil, hn, Option.map_some] at h
    have hnumber := (longer_none (longer_none h).1).2
    simp at hnumber
  | some lexeme =>
    obtain ⟨hfound | hfound, -⟩ := longest_some h
    · simp at hfound
    · exact hfound

/-- A lexeme is what an address or a subnet takes from a text. -/
def IsAddress (text : List Char) (lexeme : Lexeme) : Prop :=
  lexeme.kind = .subnet ∧ Address.subnetMatcher text = some lexeme.length ∨
    lexeme.kind = .ip ∧
      (Address.quadMatcher text = some lexeme.length ∨
        Address.groupsMatcher text = some lexeme.length)

theorem isAddress_addressOr {ip : Nat} (h : Address.groupsMatcher text = some ip) :
    IsAddress text (addressOr text ip) := by
  rw [addressOr]
  split
  · next hsubnet =>
    split
    · exact .inl ⟨rfl, hsubnet⟩
    · exact .inr ⟨rfl, .inr h⟩
  · exact .inr ⟨rfl, .inr h⟩

theorem isAddress_ofColon (before : Before) (rest : List Char)
    (h : (ofColon before (':' :: rest)).kind ∈ [.subnet, .ip]) :
    IsAddress (':' :: rest) (ofColon before (':' :: rest)) := by
  unfold ofColon at h ⊢
  split at h
  · simp at h
  next hcolon =>
  rw [if_neg hcolon]
  obtain ⟨tail, rfl⟩ : ∃ tail, rest = ':' :: tail := by
    rw [bne_iff_ne, ne_eq, Classical.not_not, List.drop_one, List.tail_cons] at hcolon
    exact List.head?_eq_some_iff.mp hcolon
  obtain ⟨n, hn⟩ := groupsMatcher_colons tail
  dsimp only at h ⊢
  rw [hn, Option.getD_some] at h ⊢
  split at h
  · simp at h
  next hpath =>
  rw [if_neg hpath]
  split
  · next hlt =>
    cases hsubnet : Address.subnetMatcher (':' :: ':' :: tail) with
    | none => simp [hsubnet] at hlt
    | some m => exact .inl ⟨rfl, hsubnet⟩
  · exact .inr ⟨rfl, .inr hn⟩

/-- What is recognised as an address or a subnet has been taken as one. -/
theorem isAddress_of_recognized (h : Recognized replacement before text lexeme)
    (hkind : lexeme.kind ∈ [.subnet, .ip]) : IsAddress text lexeme := by
  cases h with
  | eof | newline | lineComment | format | dollar => simp [ofLineComment] at hkind
  | blockComment h => simp [(ofBlockComment_delimited _ _ _ h).1] at hkind
  | quoted h => simp [(ofQuoted_delimited _ _ _ _ h).1] at hkind
  | raw h => simp [(ofRaw_delimited _ _ _ _ h).1] at hkind
  | @digit c rest h =>
    obtain ⟨literal, hmem, hliteral, hmatch⟩ := ofDigit_matches h rest
    rw [hliteral] at hkind
    simp only [literals, List.mem_cons, List.not_mem_nil, or_false] at hmem
    obtain rfl | rfl | rfl | rfl | rfl := hmem <;> simp at hkind
    · exact .inl ⟨hliteral, hmatch⟩
    · exact .inr ⟨hliteral, (longer_eq_some.mp hmatch).imp And.left And.left⟩
  | @colon rest => exact isAddress_ofColon before rest hkind
  | @word c rest h =>
    rw [ofWord] at hkind ⊢
    cases haddress : address? before (c :: rest) with
    | none =>
      rw [haddress] at hkind
      cases hk : TokenKind.keyword? (String.ofList
          ((c :: rest).take (Ascii.wordLength (c :: rest)))) with
      | none => simp [hk] at hkind
      | some kind =>
        have hspelling := spelling_of_keyword? hk
        simp only [hk, Option.getD_some, List.mem_cons, List.not_mem_nil, or_false] at hkind
        obtain rfl | rfl := hkind <;> simp [TokenKind.spelling?] at hspelling
    | some found =>
      obtain ⟨ip, hip, -, -, -, rfl⟩ := address?_eq_some.mp haddress
      exact isAddress_addressOr hip
  | punctuation h =>
    have hkinds : ∀ entry ∈ punctuation, entry.2 ∉ [TokenKind.subnet, .ip] := by decide
    exact absurd hkind (hkinds _ (ofPunctuation?_spec h).1)

theorem subnetMatcher_of_recognized (h : Recognized replacement before text lexeme)
    (hkind : lexeme.kind = .subnet) : Address.subnetMatcher text = some lexeme.length := by
  obtain ⟨-, hmatch⟩ | ⟨hip, -⟩ := isAddress_of_recognized h (by simp [hkind])
  · exact hmatch
  · simp [hkind] at hip

/-- The kinds of lexeme that are neither read from what follows a digit, nor written all alike,
nor format strings. -/
def otherKinds : List TokenKind :=
  [.eof, .comment, .string, .dollarVar, .subnet, .ip, .identifier]

/-- A lexeme is a format string, a literal that starts with a digit, or of another kind. -/
theorem Recognized.origin (h : Recognized replacement before text lexeme) :
    (∃ rest body, text = 'f' :: '\x22' :: rest ∧
        FormatBody.read replacement before text = .ok body ∧
        lexeme = ⟨.formatString, body.length⟩) ∨
      (∃ literal ∈ literals, lexeme.kind = literal.1 ∧ literal.2 text = some lexeme.length) ∨
      lexeme.kind ∈ otherKinds ∨
      ∃ spelling, lexeme.kind.spelling? = some spelling := by
  cases h with
  | format h => exact .inl ⟨_, _, rfl, h, rfl⟩
  | digit h => exact .inr (.inl (ofDigit_matches h _))
  | eof | lineComment | dollar => exact .inr (.inr (.inl (by simp [ofLineComment, otherKinds])))
  | blockComment h =>
    exact .inr (.inr (.inl (by rw [(ofBlockComment_delimited _ _ _ h).1]; decide)))
  | quoted h => exact .inr (.inr (.inl (by rw [(ofQuoted_delimited _ _ _ _ h).1]; decide)))
  | raw h => exact .inr (.inr (.inl (by rw [(ofRaw_delimited _ _ _ _ h).1]; decide)))
  | newline => exact .inr (.inr (.inr ⟨_, rfl⟩))
  | @colon rest =>
    have hkinds : ∀ kind ∈ [TokenKind.colon, .moduleSep, .subnet, .ip],
        kind ∈ otherKinds ∨ kind.spelling?.isSome := by decide
    obtain hmem | hspelling := hkinds _ (ofColon_spec before rest).2
    · exact .inr (.inr (.inl hmem))
    · exact .inr (.inr (.inr (Option.isSome_iff_exists.mp hspelling)))
  | @word c rest h =>
    have hkinds : ∀ kind ∈ [TokenKind.subnet, .ip, .identifier], kind ∈ otherKinds := by decide
    obtain hmem | hspelling := ofWord_kind before h rest
    · exact .inr (.inr (.inl (hkinds _ hmem)))
    · exact .inr (.inr (.inr hspelling))
  | punctuation h =>
    have hspellings : ∀ entry ∈ Lexeme.punctuation, entry.2.spelling?.isSome := by decide
    exact .inr (.inr (.inr (Option.isSome_iff_exists.mp
      (hspellings _ (ofPunctuation?_spec h).1))))

/-- A literal that always starts with a digit has been taken by its matcher. -/
theorem matcher_of_recognized (h : Recognized replacement before text lexeme) {kind : TokenKind}
    {matcher : Matcher} (hkind : lexeme.kind = kind) (hmem : (kind, matcher) ∈ literals)
    (hother : kind ∉ otherKinds) : matcher text = some lexeme.length := by
  have hkinds : ∀ literal ∈ literals,
      literal.1 ≠ .formatString ∧ literal.1.spelling? = none := by
    simp [literals, TokenKind.spelling?]
  obtain ⟨hformat, hspelling⟩ := hkinds _ hmem
  obtain ⟨rest, body, -, -, rfl⟩ | ⟨literal, hmem', hliteral, hmatch⟩ | hmem' |
    ⟨spelling, hspelling'⟩ := h.origin
  · exact absurd hkind.symm hformat
  · -- No two literals are of the same kind.
    have hnodup : (literals.map Prod.fst).Nodup := by decide
    have hsame := List.inj_on_of_nodup_map hnodup hmem' hmem (hliteral.symm.trans hkind)
    rwa [hsame] at hmatch
  · exact absurd (hkind ▸ hmem') hother
  · rw [hkind] at hspelling'
    simp [hspelling] at hspelling'

theorem durationMatcher_of_recognized (h : Recognized replacement before text lexeme)
    (hkind : lexeme.kind = .duration) : Duration.matcher text = some lexeme.length :=
  matcher_of_recognized h hkind (by simp [literals]) (by decide)

/-- A format string starts with its mark and a quote, and its pieces can be read. -/
theorem format_of_recognized (h : Recognized replacement before text lexeme)
    (hkind : lexeme.kind = .formatString) :
    ∃ rest body, text = 'f' :: '\x22' :: rest ∧
      FormatBody.read replacement before text = .ok body ∧ lexeme.length = body.length := by
  obtain ⟨rest, body, htext, hbody, rfl⟩ | ⟨literal, hmem, hliteral, -⟩ | hother |
    ⟨spelling, hspelling⟩ := h.origin
  · exact ⟨rest, body, htext, hbody, rfl⟩
  · have hkinds : ∀ literal ∈ literals, literal.1 ≠ .formatString := by simp [literals]
    exact absurd (hliteral.symm.trans hkind) (hkinds literal hmem)
  · simp [hkind, otherKinds] at hother
  · simp [hkind, TokenKind.spelling?] at hspelling

theorem formatBody_of_recognized (h : Recognized replacement before text lexeme)
    (hkind : lexeme.kind = .formatString) :
    ∃ body, FormatBody.read replacement before text = .ok body ∧ lexeme.length = body.length := by
  obtain ⟨_, body, -, hbody, hlength⟩ := format_of_recognized h hkind
  exact ⟨body, hbody, hlength⟩

/-- The kinds of token whose text may have no value. -/
def decoded : List TokenKind := [.string, .subnet, .duration]

/-- What is recognised as a string, a subnet or a duration has a value. -/
theorem exists_value (h : recognizeWith replacement before text = .ok lexeme)
    (hkind : lexeme.kind ∈ decoded) :
    ∃ literal, Literal.ofText? lexeme.kind (String.ofList (text.take lexeme.length)) =
      some literal := by
  have hrecognized := recognized_of_ok h
  rw [← Option.isSome_iff_exists]
  simp only [decoded, List.mem_cons, List.not_mem_nil, or_false] at hkind
  obtain hkind | hkind | hkind := hkind
  · simpa [Literal.ofText?, hkind] using isSome_string (recognizedString_of_ok h hkind)
  · simpa [Literal.ofText?, hkind] using
      Subnet.isSome_read? (subnetMatcher_of_recognized hrecognized hkind)
  · simpa [Literal.ofText?, hkind] using
      Duration.isSome_read? (durationMatcher_of_recognized hrecognized hkind)

end Lexeme

end PipelineLang
