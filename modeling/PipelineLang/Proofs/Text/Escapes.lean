import PipelineLang.Proofs.Text.Cutting
import PipelineLang.Proofs.Text.Utf8
import PipelineLang.Text.Escape

/-!
# What texts with escapes stand for

## Main definitions

- `Escape.Form` — the escapes, with the text and the bytes of each
- `TextUnit` — a character, an escape or a doubled brace
- `Escape.step`, `Escape.formatStep` — what is decoded at the head of a text
- `TextUnit.Apart` — no closing brace that stands alone meets another one
- `TextUnit.AreDecoded` — what can be said of what units stand for

## Main results

- `Escape.exists_form` — whatever is recognised as an escape is a well-formed one
- `TextUnit.decodes`, `TextUnit.decodes_format` — decoding cuts a text into its units
- `TextUnit.decode_flatMap`, `TextUnit.decodeFormat_flatMap` — and what it hands out are their
  bytes
- `TextUnit.encode_meaning` — these are the bytes of a text unless an escape says otherwise

## Design notes

Decoding does not ask for well-formed text. That it agrees with what has been recognised is
shown unit by unit, with anything behind the unit. The bytes of a character outside ASCII are
decoded one by one, which cannot be mistaken for an escape.
-/

namespace PipelineLang

open Ascii

/-! ### Characters of ASCII -/

namespace Escape

theorem asChar_toUInt8 {c : Char} (h : c.toNat < 0x80) : asChar c.toUInt8 = c := by
  have hbyte : c.toUInt8.toNat = c.toNat := Utf8.toNat_ofNat (n := c.toNat) (by omega)
  rw [asChar, hbyte, Char.ofNat_toNat]

end Escape

theorem Ascii.toNat_lt_of_isHexDigit {c : Char} (h : isHexDigit c) : c.toNat < 0x80 := by
  simp only [isHexDigit, Char.isDigit, Bool.or_eq_true, Bool.and_eq_true, decide_eq_true_eq] at h
  have hle : ∀ {a b : Char}, a ≤ b → a.toNat ≤ b.toNat := fun h => h
  have hlast : ∀ last : Char, last.toNat < 0x80 → c ≤ last → c.toNat < 0x80 :=
    fun last hlast hc => Nat.lt_of_le_of_lt (hle hc) hlast
  obtain (⟨-, h⟩ | ⟨-, h⟩) | ⟨-, h⟩ := h
  · exact hlast '9' (by decide) h
  · exact hlast 'f' (by decide) h
  · exact hlast 'F' (by decide) h

/-- Digits of a number are read as the number that they denote. -/
theorem Escape.hexNumber?_encode {digits : List Char} (hne : digits ≠ [])
    (h : digits.all isHexDigit) :
    hexNumber? (Utf8.encode digits) = some (number 16 digits) := by
  have hascii : ∀ c ∈ digits, c.toNat < 0x80 :=
    fun c hc => toNat_lt_of_isHexDigit (List.all_eq_true.mp h c hc)
  have hchars : (Utf8.encode digits).map asChar = digits := by
    rw [Utf8.encode_of_ascii hascii, List.map_map]
    exact (List.map_congr_left fun c hc => asChar_toUInt8 (hascii c hc)).trans (List.map_id digits)
  obtain ⟨c, rest, rfl⟩ := List.exists_cons_of_ne_nil hne
  have hplus : c ≠ '+' := by
    rintro rfl
    simp [isHexDigit] at h
  unfold hexNumber?
  rw [hchars]
  split
  · next heq => exact absurd (List.cons.inj heq).1 hplus
  · simp [h]

/-! ### Escapes -/

/-- What stands behind the backslash of an escape. -/
inductive Escape.Form where
  /-- A character that stands for itself or for a control character. -/
  | mark (c : Char)
  /-- Two hexadecimal digits of a byte. -/
  | byte (high low : Char)
  /-- The hexadecimal digits of a scalar value between braces. -/
  | scalar (digits : List Char)
deriving DecidableEq

namespace Escape

/-- The character that a character behind a backslash stands for. -/
def markOf : Char → Char
  | 'n' => '\n'
  | 'r' => '\r'
  | 't' => '\t'
  | '0' => '\x00'
  | c => c

/-- The number that two hexadecimal digits denote. -/
def pairNumber (high low : Char) : Nat := 16 * digitValue high + digitValue low

/-- The character with the number that hexadecimal digits denote; U+FFFD if there is none. -/
def scalarOf (digits : List Char) : Char :=
  if (number 16 digits).isValidChar then Char.ofNat (number 16 digits) else Utf8.replacement

namespace Form

/-- What is written behind the backslash. -/
def tail : Form → List Char
  | mark c => [c]
  | byte high low => ['x', high, low]
  | scalar digits => 'u' :: '\x7b' :: (digits ++ ['\x7d'])

/-- What is written. -/
def text (form : Form) : List Char := backslash :: form.tail

/-- What an escape stands for. -/
def bytes : Form → List UInt8
  | mark c => [(markOf c).toUInt8]
  | byte high low => [UInt8.ofNat (pairNumber high low)]
  | scalar digits => String.utf8EncodeChar (scalarOf digits)

/-- Whether an escape is allowed; in a format string, braces may be escaped too. -/
def WellFormed (inFormat : Bool) : Form → Prop
  | mark c => c ∈ simple ∨ inFormat = true ∧ (c = '\x7b' ∨ c = '\x7d')
  | byte high low => isHexDigit high ∧ isHexDigit low
  | scalar digits => (1 ≤ digits.length ∧ digits.length ≤ 6) ∧ digits.all isHexDigit

variable {form : Form} {inFormat : Bool}

theorem WellFormed.ascii (h : form.WellFormed inFormat) : ∀ c ∈ form.tail, c.toNat < 0x80 := by
  cases form with
  | mark c =>
    have hsimple : ∀ c ∈ simple, c.toNat < 0x80 := by simp [simple]
    rw [tail, List.forall_mem_singleton]
    obtain h | ⟨-, rfl | rfl⟩ := h
    · exact hsimple c h
    · decide
    · decide
  | byte high low =>
    simp only [tail, List.forall_mem_cons]
    exact ⟨by decide, toNat_lt_of_isHexDigit h.1, toNat_lt_of_isHexDigit h.2, by simp⟩
  | scalar digits =>
    simp only [tail, List.forall_mem_cons, List.forall_mem_append]
    exact ⟨by decide, by decide,
      fun c hc => toNat_lt_of_isHexDigit (List.all_eq_true.mp h.2 c hc), by decide, by simp⟩

end Form

theorem digitValue_le (c : Char) : digitValue c ≤ 15 := by
  have hle : ∀ {a b : Char}, a ≤ b → a.toNat ≤ b.toNat := fun h => h
  rw [digitValue]
  split
  · next h =>
    simp only [Char.isDigit, Bool.and_eq_true, decide_eq_true_eq] at h
    have hlast : c.toNat ≤ '9'.toNat := h.2
    exact Nat.le_trans (Nat.sub_le_sub_right hlast _) (by decide)
  split
  · next h =>
    simp only [Bool.and_eq_true, decide_eq_true_eq] at h
    exact Nat.le_trans (Nat.add_le_add_right (Nat.sub_le_sub_right (hle h.2) _) 10) (by decide)
  split
  · next h =>
    simp only [Bool.and_eq_true, decide_eq_true_eq] at h
    exact Nat.le_trans (Nat.add_le_add_right (Nat.sub_le_sub_right (hle h.2) _) 10) (by decide)
  · exact Nat.zero_le _

/-- Two digits denote a byte. -/
theorem pairNumber_lt (high low : Char) : pairNumber high low < 0x100 := by
  have hhigh := digitValue_le high
  have hlow := digitValue_le low
  rw [pairNumber]
  omega

variable {inFormat : Bool}

/-- What is recognised as an escape is a well-formed one, unless the text ends. -/
theorem exists_form {text : List Char} {n : Nat} (h : length? inFormat text = some n)
    (hne : text ≠ []) : ∃ form : Form, form.WellFormed inFormat ∧ n = form.tail.length ∧
      ∃ rest, text = form.tail ++ rest := by
  unfold length? at h
  split at h
  · exact absurd rfl hne
  · next a b rest =>
    split at h
    · next hdigits =>
      rw [Bool.and_eq_true] at hdigits
      exact ⟨.byte a b, hdigits, (Option.some.inj h).symm, rest, rfl⟩
    · simp at h
  · next rest =>
    dsimp only at h
    split at h
    · next hdigits =>
      simp only [Bool.and_eq_true, decide_eq_true_eq, beq_iff_eq] at hdigits
      obtain ⟨hbounds, hclosing⟩ := hdigits
      -- The text behind the digits is told by its first character, the closing brace.
      obtain ⟨behind, hbehind⟩ := List.takeWhile_prefix isHexDigit (l := rest)
      have hdrop : rest.drop (rest.takeWhile isHexDigit).length = behind := by
        conv => lhs; arg 2; rw [← hbehind]
        exact List.drop_left
      obtain ⟨back, hback⟩ := List.head?_eq_some_iff.mp (hdrop ▸ hclosing)
      refine ⟨.scalar (rest.takeWhile isHexDigit), ⟨hbounds, List.all_takeWhile⟩, ?_, back, ?_⟩
      · rw [← Option.some.inj h, Form.tail, List.length_cons, List.length_cons,
          List.length_append, List.length_singleton]
        omega
      · conv => lhs; rw [← hbehind, hback]
        simp [Form.tail]
    · simp at h
  · next c rest _ _ =>
    split at h
    · next hmark =>
      simp only [Bool.or_eq_true, Bool.and_eq_true, List.contains_iff_mem, beq_iff_eq] at hmark
      exact ⟨.mark c, hmark, (Option.some.inj h).symm, rest, rfl⟩
    · simp at h

/-! ### Decoding -/

/-- What is decoded at a byte, and the number of bytes that it takes. -/
def step (byte : UInt8) : List UInt8 → List UInt8 × Nat
  | [] => ([byte], 1)
  | mark :: rest =>
    if byte != backslash.toUInt8 then ([byte], 1)
    else match asChar mark with
      | 'n' => (['\n'.toUInt8], 2)
      | 'r' => (['\r'.toUInt8], 2)
      | 't' => (['\t'.toUInt8], 2)
      | '0' => ([0], 2)
      | 'x' => ([byteValue (rest.take 2)], 4)
      | 'u' =>
        (String.utf8EncodeChar (scalarValue ((rest.take (scalarLength rest)).drop 1)),
          scalarLength rest + 3)
      | _ => ([mark], 2)

theorem decodeFrom_eq_drop (skip : Nat) (bytes : List UInt8) :
    decodeFrom skip bytes = decode (bytes.drop skip) := by
  induction bytes generalizing skip with
  | nil => cases skip <;> rfl
  | cons byte bytes ih =>
    cases skip with
    | zero => rfl
    | succ skip => rw [decodeFrom, ih, List.drop_succ_cons]

/-- Decoding goes from step to step. -/
theorem decode_cons (byte : UInt8) (rest : List UInt8) :
    decode (byte :: rest) =
      (step byte rest).1 ++ decode ((byte :: rest).drop (step byte rest).2) := by
  cases rest with
  | nil => rfl
  | cons mark rest =>
    simp only [decode, decodeFrom, step, decodeFrom_eq_drop _ rest]
    split
    · rfl
    generalize asChar mark = m
    split
    -- Any other mark stands for itself.
    case h_7 => simp [*]
    all_goals rfl

/-- What is decoded at a character of a format string, and the number of characters that it
takes. -/
def formatStep (c : Char) (rest : List Char) : List UInt8 × Nat :=
  if (c == '\x7b' || c == '\x7d') && rest.head? == some c then ([c.toUInt8], 2)
  else if c == backslash then
    (decode (Utf8.encode (c :: rest.take (extent rest))), 1 + extent rest)
  else (String.utf8EncodeChar c, 1)

theorem decodeFormatFrom_eq_drop (skip : Nat) (text : List Char) :
    decodeFormatFrom skip text = decodeFormat (text.drop skip) := by
  induction text generalizing skip with
  | nil => cases skip <;> rfl
  | cons c text ih =>
    cases skip with
    | zero => rfl
    | succ skip => rw [decodeFormatFrom, ih, List.drop_succ_cons]

/-- Decoding the text of a format string goes from step to step. -/
theorem decodeFormat_cons (c : Char) (rest : List Char) :
    decodeFormat (c :: rest) =
      (formatStep c rest).1 ++ decodeFormat ((c :: rest).drop (formatStep c rest).2) := by
  rw [decodeFormat, decodeFormatFrom, formatStep]
  split
  · rw [decodeFormatFrom_eq_drop, List.drop_succ_cons]
    rfl
  split
  · rw [decodeFormatFrom_eq_drop, Nat.add_comm, List.drop_succ_cons]
  · rfl

/-- A byte escape has two digits, so nothing stands in for its value. -/
theorem hexNumber?_byte {high low : Char} (h : (Form.byte high low).WellFormed inFormat) :
    hexNumber? (Utf8.encode [high, low]) = some (pairNumber high low) := by
  rw [hexNumber?_encode (by simp) (by simp [h.1, h.2])]
  simp [number, pairNumber]

/-- The digits of a scalar escape denote its character. -/
theorem scalarValue_encode {digits : List Char} (h : (Form.scalar digits).WellFormed inFormat) :
    scalarValue (Utf8.encode digits) = scalarOf digits := by
  have hne : digits ≠ [] := List.ne_nil_of_length_pos h.1.1
  rw [scalarValue, hexNumber?_encode hne h.2, scalarOf]

/-- The closing brace of a scalar escape is found behind its digits. -/
theorem scalarLength_encode {digits : List Char} (h : digits.all isHexDigit) (rest : List UInt8) :
    scalarLength ('\x7b'.toUInt8 :: (Utf8.encode digits ++ '\x7d'.toUInt8 :: rest)) =
      (Utf8.encode digits).length + 1 := by
  have hascii : ∀ c ∈ digits, c.toNat < 0x80 :=
    fun c hc => toNat_lt_of_isHexDigit (List.all_eq_true.mp h c hc)
  -- No digit is mistaken for the brace.
  have hbrace : ∀ byte ∈ Utf8.encode digits, byte != '\x7d'.toUInt8 := by
    rw [Utf8.encode_of_ascii hascii]
    intro byte hbyte
    obtain ⟨c, hc, rfl⟩ := List.mem_map.mp hbyte
    rw [bne_iff_ne, ne_eq]
    intro heq
    have hc' : c = '\x7d' := by
      rw [← asChar_toUInt8 (hascii c hc), heq, asChar_toUInt8 (by decide)]
    subst hc'
    exact absurd (List.all_eq_true.mp h _ hc) (by decide)
  rw [scalarLength, List.takeWhile_cons_of_pos (by decide), List.takeWhile_append_of_pos hbrace,
    List.takeWhile_cons_of_neg (by decide), List.append_nil, List.length_cons]

/-- An escape is decoded at once, whatever is behind it. -/
theorem step_form {form : Form} (h : form.WellFormed inFormat) (rest : List UInt8) :
    step backslash.toUInt8 (Utf8.encode form.tail ++ rest) =
      (form.bytes, 1 + (Utf8.encode form.tail).length) := by
  have hencode := Utf8.encode_of_ascii h.ascii
  cases form with
  | mark c =>
    obtain h | ⟨-, rfl | rfl⟩ := h
    · simp only [simple, List.mem_cons, List.not_mem_nil, or_false] at h
      obtain rfl | rfl | rfl | rfl | rfl | rfl | rfl := h <;> rfl
    · rfl
    · rfl
  | byte high low =>
    have hvalue := hexNumber?_byte h
    have hdigits : Utf8.encode [high, low] = [high.toUInt8, low.toUInt8] :=
      Utf8.encode_of_ascii fun c hc => h.ascii c (List.mem_cons_of_mem _ hc)
    rw [Form.tail] at hencode ⊢
    rw [hencode]
    show ([byteValue [high.toUInt8, low.toUInt8]], 4) = _
    rw [hdigits] at hvalue
    rw [byteValue, hvalue]
    rfl
  | scalar digits =>
    have htail : Utf8.encode (Form.scalar digits).tail = 'u'.toUInt8 :: '\x7b'.toUInt8 ::
        (Utf8.encode digits ++ ['\x7d'.toUInt8]) := by
      rw [Form.tail, Utf8.encode_cons, Utf8.encode_cons, Utf8.encode_append, Utf8.encode_cons,
        Utf8.encode_nil, List.append_nil]
      rfl
    have hlength := scalarLength_encode h.2 rest
    have hstep : step backslash.toUInt8 ('u'.toUInt8 :: '\x7b'.toUInt8 ::
          (Utf8.encode digits ++ '\x7d'.toUInt8 :: rest)) =
        (String.utf8EncodeChar (scalarValue (Utf8.encode digits)),
          (Utf8.encode digits).length + 1 + 3) := by
      rw [← hlength]
      show (String.utf8EncodeChar (scalarValue ((List.take _ _).drop 1)), _) = _
      rw [hlength, List.take_succ_cons, List.drop_one, List.tail_cons, List.take_left]
    rw [htail, List.cons_append, List.cons_append, List.append_assoc, List.singleton_append, hstep,
      scalarValue_encode h, Form.bytes]
    refine congrArg _ ?_
    simp only [List.length_cons, List.length_append, List.length_nil]
    omega

/-- The escape at the head of the text of a format string ends where it has been recognised to
end. -/
theorem extent_tail {form : Form} (h : form.WellFormed inFormat) (rest : List Char) :
    extent (form.tail ++ rest) = form.tail.length := by
  cases form with
  | mark c =>
    obtain h | ⟨-, rfl | rfl⟩ := h
    · simp only [simple, List.mem_cons, List.not_mem_nil, or_false] at h
      obtain rfl | rfl | rfl | rfl | rfl | rfl | rfl := h <;> rfl
    · rfl
    · rfl
  | byte high low => simp [Form.tail, extent]
  | scalar digits =>
    have hbrace : ∀ c ∈ '\x7b' :: digits, c != '\x7d' := by
      rw [List.forall_mem_cons]
      refine ⟨by decide, fun c hc => ?_⟩
      rw [bne_iff_ne]
      rintro rfl
      exact absurd (List.all_eq_true.mp h.2 _ hc) (by decide)
    have hsplit : (Form.scalar digits).tail ++ rest =
        'u' :: (('\x7b' :: digits) ++ '\x7d' :: rest) := by simp [Form.tail]
    rw [hsplit, extent, List.takeWhile_append_of_pos hbrace,
      List.takeWhile_cons_of_neg (by decide), List.append_nil]
    simp only [Form.tail, List.length_cons, List.length_append, List.length_nil]
    omega

end Escape

/-! ### Units -/

/-- What is recognised and decoded as a whole. -/
inductive TextUnit where
  /-- A character that stands for itself. -/
  | char (c : Char)
  /-- An escape. -/
  | escape (form : Escape.Form)
  /-- A brace that is written twice. -/
  | brace (c : Char)
deriving DecidableEq

namespace TextUnit

open Escape

/-- What is written. -/
def text : TextUnit → List Char
  | char c => [c]
  | escape form => form.text
  | brace c => [c, c]

/-- What a unit stands for. -/
def bytes : TextUnit → List UInt8
  | char c => String.utf8EncodeChar c
  | escape form => form.bytes
  | brace c => [c.toUInt8]

/-- Whether a unit may stand in a text that the character `closing` ends; in a format string,
opening braces are doubled. -/
def WellFormed (closing : Char) (inFormat : Bool) : TextUnit → Prop
  | char c => c ≠ closing ∧ c ≠ backslash ∧ (inFormat → c ≠ '\x7b')
  | escape form => form.WellFormed inFormat
  | brace c => inFormat = true ∧ (c = '\x7b' ∨ c = '\x7d')

/-- The pieces that are decoded of a unit in a string: the bytes of a character one by one, and
an escape at once. -/
def decoded : TextUnit → List (List UInt8 × List UInt8)
  | char c => (String.utf8EncodeChar c).map fun byte => ([byte], [byte])
  | unit => [(Utf8.encode unit.text, unit.bytes)]

theorem flatMap_decoded (unit : TextUnit) : unit.decoded.flatMap (·.2) = unit.bytes := by
  cases unit with
  | char c =>
    rw [decoded, List.flatMap_map]
    exact List.flatMap_singleton' _
  | escape | brace => exact List.append_nil _

variable {closing : Char} {inFormat : Bool} {units : List TextUnit}

theorem ne_backslash_of_mem {c : Char} (h : c ≠ backslash) {byte : UInt8}
    (hbyte : byte ∈ String.utf8EncodeChar c) : byte ≠ backslash.toUInt8 := by
  by_cases hascii : c.toNat < 0x80
  · rw [Utf8.utf8EncodeChar_of_ascii hascii, List.mem_singleton] at hbyte
    rintro rfl
    refine h ?_
    rw [← asChar_toUInt8 hascii, ← hbyte, asChar_toUInt8 (by decide)]
  · have hle := Utf8.le_toNat_of_mem_utf8EncodeChar hascii hbyte
    rintro rfl
    exact absurd hle (by decide)

theorem step_of_ne {byte : UInt8} (h : byte ≠ backslash.toUInt8) (rest : List UInt8) :
    step byte rest = ([byte], 1) := by
  cases rest with
  | nil => rfl
  | cons mark rest => rw [step, if_pos (bne_iff_ne.mpr h)]

/-- Bytes other than a backslash are decoded one by one. -/
theorem decodes_bytes {front rest : List UInt8} {run : List (List UInt8 × List UInt8)}
    (h : ∀ byte ∈ front, byte ≠ backslash.toUInt8) (hrest : Decodes step rest run) :
    Decodes step (front ++ rest) (front.map (fun byte => ([byte], [byte])) ++ run) := by
  induction front with
  | nil => exact hrest
  | cons byte front ih =>
    rw [List.forall_mem_cons] at h
    show Decodes step ([byte] ++ (front ++ rest)) (([byte], [byte]) :: _)
    exact .piece (step_of_ne h.1 _) (ih h.2)

/-- Decoding a text that has been cut into units cuts it in the same way. -/
theorem decodes (h : ∀ unit ∈ units, unit.WellFormed closing false) :
    Decodes step (Utf8.encode (units.flatMap text)) (units.flatMap decoded) := by
  induction units with
  | nil => exact .nil
  | cons unit units ih =>
    rw [List.forall_mem_cons] at h
    rw [List.flatMap_cons, List.flatMap_cons, Utf8.encode_append]
    cases unit with
    | char c =>
      rw [text, Utf8.encode_cons, Utf8.encode_nil, List.append_nil]
      exact decodes_bytes (fun byte => ne_backslash_of_mem h.1.2.1) (ih h.2)
    | escape form =>
      have hbackslash : Utf8.encode form.text = backslash.toUInt8 :: Utf8.encode form.tail := rfl
      have hdecoded : (escape form).decoded = [(Utf8.encode form.text, form.bytes)] := rfl
      rw [hdecoded, text, hbackslash]
      exact .piece (step_form h.1 _) (ih h.2)
    | brace c => exact absurd h.1.1 Bool.false_ne_true

/-- What is decoded is what the units stand for. -/
theorem decode_flatMap (h : ∀ unit ∈ units, unit.WellFormed closing false) :
    decode (Utf8.encode (units.flatMap text)) = units.flatMap bytes := by
  rw [(decodes h).eq_flatMap rfl decode_cons, List.flatMap_assoc]
  simp only [flatMap_decoded]

/-- An escape by itself is decoded to what it stands for. -/
theorem decode_form {form : Form} (h : form.WellFormed inFormat) :
    decode (Utf8.encode form.text) = form.bytes := by
  have hbackslash : Utf8.encode form.text = backslash.toUInt8 :: Utf8.encode form.tail := rfl
  have hstep := step_form h []
  rw [List.append_nil] at hstep
  rw [hbackslash, decode_cons, hstep, Nat.add_comm, List.drop_succ_cons, List.drop_length]
  exact List.append_nil _

/-! ### Units of format strings -/

/-- A closing brace that stands alone is not followed by another one. -/
def Apart : List TextUnit → Prop
  | [] => True
  | unit :: units =>
    (unit = .char '\x7d' → (units.flatMap text).head? ≠ some '\x7d') ∧ Apart units

theorem formatStep_unit {unit : TextUnit} {rest : List Char}
    (h : unit.WellFormed '\x22' true)
    (happart : unit = .char '\x7d' → rest.head? ≠ some '\x7d') :
    ∃ c tail, unit.text = c :: tail ∧
      formatStep c (tail ++ rest) = (unit.bytes, 1 + tail.length) := by
  cases unit with
  | char c =>
    refine ⟨c, [], rfl, ?_⟩
    have hsingle : ¬ ((c == '\x7b' || c == '\x7d') && rest.head? == some c) := by
      simp only [Bool.and_eq_true, Bool.or_eq_true, beq_iff_eq]
      rintro ⟨rfl | rfl, hhead⟩
      · exact h.2.2 rfl rfl
      · exact happart rfl hhead
    rw [List.nil_append, formatStep, if_neg hsingle, if_neg (by simpa using h.2.1)]
    rfl
  | escape form =>
    refine ⟨backslash, form.tail, rfl, ?_⟩
    have hform : form.WellFormed true := h
    rw [formatStep, if_neg (by simp [backslash]), if_pos (beq_self_eq_true _), extent_tail hform,
      List.take_left]
    exact congrArg (·, _) (decode_form hform)
  | brace c =>
    refine ⟨c, [c], rfl, ?_⟩
    obtain ⟨-, rfl | rfl⟩ := h <;> rfl

/-- Decoding the text of a format string that has been cut into units cuts it in the same
way. -/
theorem decodes_format (h : ∀ unit ∈ units, unit.WellFormed '\x22' true) (happart : Apart units) :
    Decodes formatStep (units.flatMap text) (units.map fun unit => (unit.text, unit.bytes)) := by
  induction units with
  | nil => exact .nil
  | cons unit units ih =>
    rw [List.forall_mem_cons] at h
    obtain ⟨c, tail, htext, hstep⟩ := formatStep_unit h.1 happart.1
    rw [List.flatMap_cons, List.map_cons, htext]
    exact .piece hstep (ih h.2 happart.2)

/-- What is decoded is what the units stand for. -/
theorem decodeFormat_flatMap (h : ∀ unit ∈ units, unit.WellFormed '\x22' true)
    (happart : Apart units) : decodeFormat (units.flatMap text) = units.flatMap bytes := by
  rw [(decodes_format h happart).eq_flatMap rfl decodeFormat_cons, List.flatMap_map]

/-! ### Units that stand for characters -/

/-- The character that a unit stands for; a byte is the character of its number. -/
def meaning : TextUnit → Char
  | char c => c
  | escape (.mark c) => markOf c
  | escape (.byte high low) => Char.ofNat (pairNumber high low)
  | escape (.scalar digits) => scalarOf digits
  | brace c => c

/-- Whether a unit is no escape of a byte outside ASCII. -/
def IsText : TextUnit → Prop
  | escape (.byte high low) => pairNumber high low < 0x80
  | _ => True

theorem utf8EncodeChar_meaning {unit : TextUnit} (h : unit.WellFormed closing inFormat)
    (htext : unit.IsText) : String.utf8EncodeChar unit.meaning = unit.bytes := by
  match unit with
  | char c | escape (.scalar digits) => rfl
  | escape (.mark c) =>
    have hsimple : ∀ c ∈ simple, (markOf c).toNat < 0x80 := by simp [simple, markOf]
    obtain h | ⟨-, rfl | rfl⟩ : c ∈ simple ∨ _ := h
    · exact Utf8.utf8EncodeChar_of_ascii (hsimple c h)
    · rfl
    · rfl
  | escape (.byte high low) =>
    have hlt : pairNumber high low < 0x80 := htext
    have hnumber : (Char.ofNat (pairNumber high low)).toNat = pairNumber high low := by
      rw [Char.ofNat, dif_pos (.inl (by omega))]
      rfl
    rw [meaning, Utf8.utf8EncodeChar_of_ascii (by rwa [hnumber])]
    exact congrArg (fun n => [UInt8.ofNat n]) hnumber
  | brace c => obtain ⟨-, rfl | rfl⟩ := h <;> rfl

/-- Units that are text stand for the bytes of a text. -/
theorem encode_meaning (h : ∀ unit ∈ units, unit.WellFormed closing inFormat)
    (htext : ∀ unit ∈ units, unit.IsText) :
    Utf8.encode (units.map meaning) = units.flatMap bytes := by
  induction units with
  | nil => rfl
  | cons unit units ih =>
    rw [List.forall_mem_cons] at h htext
    rw [List.map_cons, Utf8.encode_cons, utf8EncodeChar_meaning h.1 htext.1, ih h.2 htext.2,
      List.flatMap_cons]

/-- What can be said of what units stand for. The digits of a byte escape denote a byte, so that
nothing stands in for it; and if no such byte is outside ASCII, all bytes are those of a text,
which is found again in them. -/
structure AreDecoded (units : List TextUnit) : Prop where
  byte : ∀ high low, .escape (.byte high low) ∈ units →
    hexNumber? (Utf8.encode [high, low]) = some (pairNumber high low) ∧
      pairNumber high low < 0x100
  text : (∀ unit ∈ units, unit.IsText) →
    Utf8.encode (units.map meaning) = units.flatMap bytes ∧
      Utf8.decode (units.flatMap bytes) = units.map meaning

theorem areDecoded (h : ∀ unit ∈ units, unit.WellFormed closing inFormat) :
    AreDecoded units where
  byte high low hmem := by
    have hform : (Form.byte high low).WellFormed inFormat := h _ hmem
    exact ⟨hexNumber?_byte hform, pairNumber_lt high low⟩
  text htext := by
    have hencode := encode_meaning h htext
    exact ⟨hencode, by rw [← hencode, Utf8.decode_encode]⟩

end TextUnit

end PipelineLang
