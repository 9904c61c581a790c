import PipelineLang.Text.Utf8

/-!
# Encoded texts are decoded

## Main results

- `Utf8.decode_encode` — the bytes of a text are the text again
- `Utf8.encode_append` — texts are encoded one behind another

## Design notes

The first byte of a character fixes what the second one may be. That a character which is no
surrogate and has no shorter encoding meets this range is all that the proof is about.
-/

namespace PipelineLang.Utf8

@[simp] theorem encode_nil : encode [] = [] := rfl

@[simp] theorem encode_cons (c : Char) (text : List Char) :
    encode (c :: text) = String.utf8EncodeChar c ++ encode text := List.flatMap_cons

@[simp] theorem encode_append (front back : List Char) :
    encode (front ++ back) = encode front ++ encode back := List.flatMap_append

theorem toNat_ofNat {n : Nat} (h : n < 256) : (UInt8.ofNat n).toNat = n :=
  UInt8.toNat_ofNat_of_lt' h

variable {value needed low high n m : Nat}

/-- What a later byte says of a pending character. -/
theorem step_some (hrange : low ≤ n % 64 + 0x80 ∧ n % 64 + 0x80 ≤ high) :
    step (some ⟨value, needed, low, high⟩) (UInt8.ofNat (n % 64 + 0x80)) =
      if needed ≤ 1 then ([Char.ofNat (64 * value + n % 64)], none)
      else ([], some ⟨64 * value + n % 64, needed - 1, 0x80, 0xBF⟩) := by
  simp only [step, toNat_ofNat (show n % 64 + 0x80 < 256 by omega), Nat.add_sub_cancel]
  rw [if_pos (by simpa using hrange)]

/-- A byte in the range of a pending character, which is not the last one of it. -/
theorem decodeFrom_more (hrange : low ≤ n % 64 + 0x80 ∧ n % 64 + 0x80 ≤ high)
    (rest : List UInt8) :
    decodeFrom (some ⟨value, needed + 2, low, high⟩) (UInt8.ofNat (n % 64 + 0x80) :: rest) =
      decodeFrom (some ⟨64 * value + n % 64, needed + 1, 0x80, 0xBF⟩) rest := by
  rw [decodeFrom, step_some hrange, if_neg (by omega)]
  rfl

/-- The last byte of a pending character. -/
theorem decodeFrom_last (hrange : low ≤ n % 64 + 0x80 ∧ n % 64 + 0x80 ≤ high)
    (hvalue : 64 * value + n % 64 = m) (rest : List UInt8) :
    decodeFrom (some ⟨value, 1, low, high⟩) (UInt8.ofNat (n % 64 + 0x80) :: rest) =
      Char.ofNat m :: decodeFrom none rest := by
  rw [decodeFrom, step_some hrange, if_pos (Nat.le_refl 1), hvalue]
  rfl

/-- Where the later bytes of a character lie. -/
theorem later_range (n : Nat) : 0x80 ≤ n % 64 + 0x80 ∧ n % 64 + 0x80 ≤ 0xBF := by omega

/-- The first byte of a character that goes on. -/
theorem decodeFrom_first {p : Pending} (hfirst : first (UInt8.ofNat n) = ([], some p))
    (rest : List UInt8) :
    decodeFrom none (UInt8.ofNat n :: rest) = decodeFrom (some p) rest := by
  simp [decodeFrom, step, hfirst]

/-- The first of two bytes. -/
theorem first_of_two (hlow : 0xC2 ≤ n + 0xC0) (hhigh : n < 0x20) :
    first (UInt8.ofNat (n + 0xC0)) = ([], some ⟨n, 1, 0x80, 0xBF⟩) := by
  simp only [first, toNat_ofNat (show n + 0xC0 < 256 by omega), Nat.add_sub_cancel,
    if_neg (show ¬ n + 0xC0 < 0x80 by omega), if_neg (show ¬ n + 0xC0 < 0xC2 by omega),
    if_pos (show n + 0xC0 < 0xE0 by omega)]

/-- The first of three bytes, and the range of the second one. -/
theorem first_of_three (hhigh : n < 0x10) (hleast : n = 0 → 0x20 ≤ m % 64)
    (hmost : n = 0xD → m % 64 < 0x20) :
    ∃ low high, first (UInt8.ofNat (n + 0xE0)) = ([], some ⟨n, 2, low, high⟩) ∧
      low ≤ m % 64 + 0x80 ∧ m % 64 + 0x80 ≤ high := by
  simp only [first, toNat_ofNat (show n + 0xE0 < 256 by omega), Nat.add_sub_cancel,
    if_neg (show ¬ n + 0xE0 < 0x80 by omega), if_neg (show ¬ n + 0xE0 < 0xC2 by omega),
    if_neg (show ¬ n + 0xE0 < 0xE0 by omega)]
  -- Two of the first bytes narrow the range: one for shorter encodings, one for surrogates.
  by_cases hzero : n + 0xE0 = 0xE0
  · exact ⟨0xA0, 0xBF, by rw [if_pos hzero], by omega⟩
  by_cases hsurrogate : n + 0xE0 = 0xED
  · exact ⟨0x80, 0x9F, by rw [if_neg hzero, if_pos hsurrogate], by omega⟩
  · exact ⟨0x80, 0xBF, by rw [if_neg hzero, if_neg hsurrogate, if_pos (by omega)], by omega⟩

/-- The first of four bytes, and the range of the second one. -/
theorem first_of_four (hhigh : n ≤ 4) (hleast : n = 0 → 0x10 ≤ m % 64)
    (hmost : n = 4 → m % 64 < 0x10) :
    ∃ low high, first (UInt8.ofNat (n + 0xF0)) = ([], some ⟨n, 3, low, high⟩) ∧
      low ≤ m % 64 + 0x80 ∧ m % 64 + 0x80 ≤ high := by
  simp only [first, toNat_ofNat (show n + 0xF0 < 256 by omega), Nat.add_sub_cancel,
    if_neg (show ¬ n + 0xF0 < 0x80 by omega), if_neg (show ¬ n + 0xF0 < 0xC2 by omega),
    if_neg (show ¬ n + 0xF0 < 0xE0 by omega), if_neg (show n + 0xF0 ≠ 0xE0 by omega),
    if_neg (show n + 0xF0 ≠ 0xED by omega), if_neg (show ¬ n + 0xF0 < 0xF0 by omega)]
  by_cases hzero : n + 0xF0 = 0xF0
  · exact ⟨0x90, 0xBF, by rw [if_pos hzero], by omega⟩
  by_cases hlast : n + 0xF0 = 0xF4
  · exact ⟨0x80, 0x8F, by rw [if_neg hzero, if_neg (by omega), if_pos hlast], by omega⟩
  · exact ⟨0x80, 0xBF, by rw [if_neg hzero, if_pos (by omega)], by omega⟩

/-- The bytes of the character with the number `n`. -/
def bytesOf (n : Nat) : List UInt8 :=
  if n ≤ 0x7f then [UInt8.ofNat n]
  else if n ≤ 0x7ff then [UInt8.ofNat (n / 64 % 32 + 0xC0), UInt8.ofNat (n % 64 + 0x80)]
  else if n ≤ 0xffff then
    [UInt8.ofNat (n / 4096 % 16 + 0xE0), UInt8.ofNat (n / 64 % 64 + 0x80),
      UInt8.ofNat (n % 64 + 0x80)]
  else
    [UInt8.ofNat (n / 262144 % 8 + 0xF0), UInt8.ofNat (n / 4096 % 64 + 0x80),
      UInt8.ofNat (n / 64 % 64 + 0x80), UInt8.ofNat (n % 64 + 0x80)]

theorem utf8EncodeChar_eq (c : Char) : String.utf8EncodeChar c = bytesOf c.toNat := rfl

/-- The bytes of a number that is no surrogate are its character, whatever is behind them. -/
theorem decodeFrom_bytesOf (h : n.isValidChar) (rest : List UInt8) :
    decodeFrom none (bytesOf n ++ rest) = Char.ofNat n :: decodeFrom none rest := by
  have hvalid : n < 0xD800 ∨ 0xDFFF < n ∧ n < 0x110000 := h
  -- One case for each number of bytes; that the number is valid bounds the second byte.
  unfold bytesOf
  split
  · simp only [List.cons_append, List.nil_append, decodeFrom, step, first,
      toNat_ofNat (show n < 256 by omega), if_pos (show n < 0x80 by omega)]
  split
  · simp only [List.cons_append, List.nil_append]
    rw [decodeFrom_first (first_of_two (by omega) (by omega)),
      decodeFrom_last (m := n) (later_range n) (by omega)]
  split
  · obtain ⟨low, high, hfirst, hrange⟩ :=
      first_of_three (n := n / 4096 % 16) (m := n / 64) (by omega) (by omega) (by omega)
    simp only [List.cons_append, List.nil_append]
    rw [decodeFrom_first hfirst, decodeFrom_more hrange,
      decodeFrom_last (m := n) (later_range n) (by omega)]
  · obtain ⟨low, high, hfirst, hrange⟩ :=
      first_of_four (n := n / 262144 % 8) (m := n / 4096) (by omega) (by omega) (by omega)
    simp only [List.cons_append, List.nil_append]
    rw [decodeFrom_first hfirst, decodeFrom_more hrange, decodeFrom_more (later_range _),
      decodeFrom_last (m := n) (later_range n) (by omega)]

/-- The bytes of a character are that character, whatever is behind them. -/
theorem decodeFrom_utf8EncodeChar (c : Char) (rest : List UInt8) :
    decodeFrom none (String.utf8EncodeChar c ++ rest) = c :: decodeFrom none rest := by
  rw [utf8EncodeChar_eq, decodeFrom_bytesOf (n := c.toNat) c.valid, Char.ofNat_toNat]

/-- The bytes of a text are the text again. -/
theorem decode_encode (text : List Char) : decode (encode text) = text := by
  induction text with
  | nil => rfl
  | cons c text ih =>
    rw [encode_cons, decode, decodeFrom_utf8EncodeChar, ← decode, ih]

/-! ### Characters of one byte -/

/-- A character of ASCII is one byte. -/
theorem utf8EncodeChar_of_ascii {c : Char} (h : c.toNat < 0x80) :
    String.utf8EncodeChar c = [c.toUInt8] := by
  rw [utf8EncodeChar_eq, bytesOf, if_pos (Nat.le_of_lt_succ h)]
  rfl

/-- The bytes of other characters are no ASCII. -/
theorem le_toNat_of_mem_utf8EncodeChar {c : Char} (h : ¬ c.toNat < 0x80) {byte : UInt8}
    (hbyte : byte ∈ String.utf8EncodeChar c) : 0x80 ≤ byte.toNat := by
  have hvalid : c.toNat < 0xD800 ∨ 0xDFFF < c.toNat ∧ c.toNat < 0x110000 := c.valid
  rw [utf8EncodeChar_eq, bytesOf, if_neg (by omega)] at hbyte
  have hrange : ∀ {n : Nat}, 0x80 ≤ n → n < 0x100 → 0x80 ≤ (UInt8.ofNat n).toNat := by
    intro n hlow hhigh
    rwa [toNat_ofNat hhigh]
  split at hbyte
  · simp only [List.mem_cons, List.not_mem_nil, or_false] at hbyte
    obtain rfl | rfl := hbyte <;> exact hrange (by omega) (by omega)
  split at hbyte
  · simp only [List.mem_cons, List.not_mem_nil, or_false] at hbyte
    obtain rfl | rfl | rfl := hbyte <;> exact hrange (by omega) (by omega)
  · simp only [List.mem_cons, List.not_mem_nil, or_false] at hbyte
    obtain rfl | rfl | rfl | rfl := hbyte <;> exact hrange (by omega) (by omega)

/-- A text of ASCII is as many bytes. -/
theorem encode_of_ascii {text : List Char} (h : ∀ c ∈ text, c.toNat < 0x80) :
    encode text = text.map Char.toUInt8 := by
  induction text with
  | nil => rfl
  | cons c text ih =>
    rw [List.forall_mem_cons] at h
    rw [encode_cons, utf8EncodeChar_of_ascii h.1, ih h.2]
    rfl

end PipelineLang.Utf8
