import PipelineLang.Proofs.Rereading
import PipelineLang.Proofs.Text.Escapes

/-!
# Strings and the text of format strings are decoded as they have been recognised

The end of a string is found by passing its escapes one by one, and its value is found by
decoding them. Both cut the text between the quotes into the same units.

## Main definitions

- `StringLiteral.IsCut` — how a string is cut
- `FormatBody.IsCut` — how a text in a format string is cut

## Main results

- `Lexeme.cut_of_ofQuoted`, `FormatBody.exists_cut` — what has been recognised has been cut
- `Scanner.decodes_strings` — it is decoded as it has been cut
-/

namespace PipelineLang

open Lexeme

/-! ### Strings -/

namespace Lexeme

variable {before : Before} {quote : Char} {text : List Char} {lexeme : Lexeme}

/-- What is passed at a stop between the quotes is a unit, unless the text ends behind it. -/
theorem ofQuoted.unit_of_go {position extra : Nat} {state : Unit} {ahead : List Char}
    (h : stop before quote position () ahead = .go extra state)
    (hne : ahead.drop (1 + extra) ≠ []) :
    ∃ unit : TextUnit, unit.WellFormed quote false ∧ ahead.take (1 + extra) = unit.text := by
  cases ahead with
  | nil => simp [stop] at h
  | cons c rest =>
    rw [Nat.add_comm, List.drop_succ_cons] at hne
    rw [Nat.add_comm, List.take_succ_cons]
    simp only [stop] at h
    split at h
    · next hescape =>
      split at h
      · next n hlength =>
        obtain ⟨rfl, -⟩ := Stride.go.inj h
        have hrest : rest ≠ [] := by
          rintro rfl
          simp at hne
        obtain ⟨form, hform, rfl, back, rfl⟩ := Escape.exists_form hlength hrest
        exact ⟨.escape form, hform, by rw [hescape, List.take_left]; rfl⟩
      · simp at h
    next hescape =>
    split at h
    · simp at h
    · next hquote =>
      obtain ⟨rfl, -⟩ := Stride.go.inj h
      exact ⟨.char c, ⟨hquote, hescape, by simp⟩, by rw [List.take_zero]; rfl⟩

/-- A walk that finds the closing quote passes units up to there. -/
theorem ofQuoted.units_of_walks {position : Nat} {state : Unit}
    {result : Except LexicalFault Lexeme}
    (h : Walks (stop before quote) (finish before) text position state result)
    (hok : result = .ok lexeme) :
    ∃ (units : List TextUnit) (rest : List Char), (∀ unit ∈ units, unit.WellFormed quote false) ∧
      Passes (stop before quote) text position () (units.map TextUnit.text) (lexeme.length - 1) () ∧
      stop before quote (lexeme.length - 1) () (text.drop (lexeme.length - 1)) =
        .done (.ok lexeme) ∧
      text.drop position = units.flatMap TextUnit.text ++ quote :: rest ∧
      lexeme.length = position + (units.flatMap TextUnit.text).length + 1 := by
  induction h with
  | finish => simp [finish] at hok
  | @done position state result hlt hstop =>
    subst hok
    have hend := hstop
    rw [List.drop_eq_getElem_cons hlt] at hstop
    simp only [stop] at hstop
    split at hstop
    · split at hstop <;> simp at hstop
    split at hstop
    · next hquote =>
      obtain rfl := Except.ok.inj (Stride.done.inj hstop)
      refine ⟨[], text.drop (position + 1), by simp, .nil, hend, ?_, rfl⟩
      rw [List.drop_eq_getElem_cons hlt, hquote]
      rfl
    · simp at hstop
  | @go position state extra next result hlt hstop hrest ih =>
    obtain ⟨units, rest, hunits, hpasses, hend, hsplit, hlength⟩ := ih hok
    have hnext : (text.drop position).drop (1 + extra) = text.drop (position + 1 + extra) := by
      rw [List.drop_drop, Nat.add_assoc]
    -- The closing quote is behind the unit, so the text does not end within it.
    have hne : (text.drop position).drop (1 + extra) ≠ [] := by
      rw [hnext, hsplit]
      simp
    obtain ⟨unit, hunit, htake⟩ := unit_of_go hstop hne
    refine ⟨unit :: units, rest, List.forall_mem_cons.mpr ⟨hunit, hunits⟩, ?_, hend, ?_, ?_⟩
    · rw [List.map_cons, ← htake]
      exact .cons hstop hpasses
    · rw [List.flatMap_cons, ← htake, List.append_assoc, ← hsplit, ← hnext, List.take_append_drop]
    · have hle : 1 + extra ≤ (text.drop position).length := by
        rw [ne_eq, List.drop_eq_nil_iff] at hne
        omega
      rw [hlength, List.flatMap_cons, List.length_append, ← htake, List.length_take,
        Nat.min_eq_left hle]
      omega

end Lexeme

/-- How a string with escapes, which is recognised as `lexeme` at the head of `ahead`, is cut: it
has the mark of a string of bytes or not, and between its quotes there are units, which are
passed one by one when its end is looked for and taken one by one when it is decoded. -/
structure StringLiteral.IsCut (before : Before) (ahead : List Char) (lexeme : Lexeme)
    (bytes : Bool) (quote : Char) (units : List TextUnit) : Prop where
  quotes : quote = '\x22' ∨ quote = '\x27'
  written : ahead.take lexeme.length =
    byteMark bytes ++ quote :: (units.flatMap TextUnit.text ++ [quote])
  wellFormed : ∀ unit ∈ units, unit.WellFormed quote false
  passed : Passes (ofQuoted.stop before quote) ahead ((byteMark bytes).length + 1) ()
    (units.map TextUnit.text) (lexeme.length - 1) ()
  ended : ofQuoted.stop before quote (lexeme.length - 1) () (ahead.drop (lexeme.length - 1)) =
    .done (.ok lexeme)
  decoded : Decodes Escape.step (Utf8.encode (units.flatMap TextUnit.text))
    (units.flatMap TextUnit.decoded)

/-- A string with escapes that has been recognised has been cut. -/
theorem Lexeme.cut_of_ofQuoted {before : Before} {lead : Nat} {ahead : List Char} {lexeme : Lexeme}
    {bytes : Bool} {quote : Char} (h : ofQuoted before lead ahead = .ok lexeme)
    (hmarks : ahead.take lead = StringLiteral.byteMark bytes)
    (hhead : (ahead.drop lead).head? = some quote) (hquote : quote = '\x22' ∨ quote = '\x27') :
    ∃ units, StringLiteral.IsCut before ahead lexeme bytes quote units := by
  obtain ⟨body, hbody⟩ := List.head?_eq_some_iff.mp hhead
  have hlt : lead < ahead.length := by
    by_contra hge
    rw [List.drop_of_length_le (by omega)] at hhead
    simp at hhead
  have hlead : (StringLiteral.byteMark bytes).length = lead := by
    rw [← hmarks, List.length_take, Nat.min_eq_left (Nat.le_of_lt hlt)]
  have hbehind : ahead.drop (lead + 1) = body := by
    rw [← List.drop_drop, hbody]
    rfl
  rw [ofQuoted, hbody] at h
  dsimp only at h
  rw [← hbehind] at h
  obtain ⟨units, rest, hunits, hpasses, hend, hsplit, hlength⟩ :=
    ofQuoted.units_of_walks (walks_walk () hlt) h
  refine ⟨units, hquote, ?_, hunits, hlead.symm ▸ hpasses, hend, TextUnit.decodes hunits⟩
  have hahead : ahead = (StringLiteral.byteMark bytes ++
      quote :: (units.flatMap TextUnit.text ++ [quote])) ++ rest := by
    rw [← hmarks]
    conv => lhs; rw [← List.take_append_drop lead ahead, hbody, ← hbehind, hsplit]
    simp
  conv => lhs; rw [hahead]
  refine List.take_left' ?_
  rw [hlength]
  simp only [List.length_append, List.length_cons, List.length_nil]
  omega

/-- A string that has been recognised has a value. Without the mark of a raw string, this is what
its units stand for. -/
theorem Lexeme.exists_string {replacement : Option TokenKind → List Char →
      Except LexicalFault Replacement} {before : Before} {ahead : List Char} {lexeme : Lexeme}
    (h : recognizeWith replacement before ahead = .ok lexeme) (hkind : lexeme.kind = .string) :
    ∃ literal, StringLiteral.read? (String.ofList (ahead.take lexeme.length)) = some literal ∧
      (literal.raw = false → ∃ bytes quote units,
        StringLiteral.IsCut before ahead lexeme bytes quote units ∧
        TextUnit.AreDecoded units ∧
        literal.value =
          if bytes then .bytes (units.flatMap TextUnit.bytes)
          else .text (String.ofList (Utf8.decode (units.flatMap TextUnit.bytes)))) := by
  cases recognizedString_of_ok h hkind with
  | plain hmarks hquote h =>
    obtain ⟨bytes, hmarks⟩ := exists_byteMark hmarks
    obtain ⟨quote, hhead, hquote⟩ : ∃ quote, _ = some quote ∧ (quote = '\x22' ∨ quote = '\x27') :=
      hquote.elim (fun h => ⟨_, h, .inl rfl⟩) fun h => ⟨_, h, .inr rfl⟩
    obtain ⟨units, hcut⟩ := cut_of_ofQuoted h hmarks hhead hquote
    refine ⟨_, by rw [hcut.written, StringLiteral.read?_plain bytes hquote], fun _ =>
      ⟨bytes, quote, units, hcut, TextUnit.areDecoded hcut.wellFormed, ?_⟩⟩
    show StringLiteral.escapedValue bytes (units.flatMap TextUnit.text) = _
    rw [StringLiteral.escapedValue, TextUnit.decode_flatMap hcut.wellFormed]
  | raw hmarks hopens h =>
    obtain ⟨count, middle, htake⟩ := take_of_ofRaw h hopens
    obtain ⟨bytes, hmarks⟩ := exists_byteMark_raw hmarks
    refine ⟨_, by rw [htake, hmarks, List.append_assoc, List.singleton_append,
      StringLiteral.read?_raw], fun hraw => ?_⟩
    exact absurd hraw (by simp)

/-! ### The text of format strings -/

namespace FormatBody

/-- What is passed as text is a unit, unless the text ends behind it. -/
theorem unit_of_textStride? {ahead : List Char} {n : Nat} (h : textStride? ahead = some n)
    (hne : ahead.drop n ≠ []) :
    ∃ unit : TextUnit, unit.WellFormed '\x22' true ∧ ahead.take n = unit.text ∧
      (unit = .char '\x7d' → (ahead.drop n).head? ≠ some '\x7d') := by
  cases ahead with
  | nil => simp [textStride?] at h
  | cons c rest =>
    simp only [textStride?] at h
    split at h
    · simp at h
    next hquote =>
    split at h
    · simp at h
    next hopening =>
    split at h
    · next hescape =>
      obtain ⟨k, hlength, rfl⟩ := Option.map_eq_some_iff.mp h
      rw [Nat.add_comm, List.drop_succ_cons] at hne
      have hrest : rest ≠ [] := by
        rintro rfl
        simp at hne
      obtain ⟨form, hform, rfl, back, rfl⟩ := Escape.exists_form hlength hrest
      refine ⟨.escape form, hform, ?_, by simp⟩
      rw [Nat.add_comm, List.take_succ_cons, List.take_left, hescape]
      rfl
    next hescape =>
    split at h
    · next hdoubled =>
      obtain rfl := Option.some.inj h
      have hbrace : (c = '\x7b' ∨ c = '\x7d') ∧ rest.head? = some c := by
        by_cases hc : c = '\x7b' <;> simp_all
      obtain ⟨hbrace, hhead⟩ := hbrace
      obtain ⟨back, rfl⟩ := List.head?_eq_some_iff.mp hhead
      exact ⟨.brace c, ⟨rfl, hbrace⟩, rfl, by simp⟩
    · next hdoubled =>
      obtain rfl := Option.some.inj h
      simp only [Bool.or_eq_true, Bool.and_eq_true, decide_eq_true_eq, beq_iff_eq, not_or,
        not_and] at hdoubled
      refine ⟨.char c, ⟨hquote, hescape, fun _ => hdoubled.1⟩, rfl, fun hc => ?_⟩
      obtain rfl := TextUnit.char.inj hc
      exact hdoubled.2 rfl

/-- How a text in a format string, which lies between two places of `text`, is cut: the units are
passed one by one when the end of the format string is looked for, whatever has been read
before, and are taken one by one when the text is decoded. -/
structure IsCut (text : List Char) (start stop : Nat) (units : List TextUnit) : Prop where
  written : (text.take stop).drop start = units.flatMap TextUnit.text
  wellFormed : ∀ unit ∈ units, unit.WellFormed '\x22' true
  apart : TextUnit.Apart units
  passed : ∀ replacement state, ∃ state', Passes (FormatBody.read.stop replacement) text start state
    (units.map TextUnit.text) stop state'
  decoded : Decodes Escape.formatStep (units.flatMap TextUnit.text)
    (units.map fun unit => (unit.text, unit.bytes))

/-- Text that has been passed has been cut. -/
theorem units_of_skims {text : List Char} {start n : Nat} (h : Skims (text.drop start) n)
    (hne : text.drop (start + n) ≠ []) :
    ∃ units : List TextUnit, (text.drop start).take n = units.flatMap TextUnit.text ∧
      (∀ unit ∈ units, unit.WellFormed '\x22' true) ∧ TextUnit.Apart units ∧
      ∀ replacement state, ∃ state', Passes (FormatBody.read.stop replacement) text start state
        (units.map TextUnit.text) (start + n) state' := by
  generalize hahead : text.drop start = ahead at h
  induction h generalizing start with
  | nil => exact ⟨[], rfl, by simp, trivial, fun _ state => ⟨state, .nil⟩⟩
  | @cons ahead n m hstride hrest ih =>
    subst hahead
    rw [← Nat.add_assoc] at hne
    obtain ⟨units, hwritten, hunits, happart, hpasses⟩ := ih hne List.drop_drop.symm
    -- What ends the format string is behind the piece, so the text does not end within it.
    have hbehind : (text.drop start).drop n ≠ [] := by
      intro hnil
      rw [List.drop_drop] at hnil
      rw [← List.drop_drop, hnil] at hne
      simp at hne
    obtain ⟨unit, hunit, htake, halone⟩ := unit_of_textStride? hstride hbehind
    refine ⟨unit :: units, ?_, List.forall_mem_cons.mpr ⟨hunit, hunits⟩,
      ⟨fun hbrace hhead => ?_, happart⟩, fun replacement state => ?_⟩
    · rw [List.take_add, htake, hwritten, List.flatMap_cons]
    · rw [← hwritten, List.head?_take] at hhead
      split at hhead
      · simp at hhead
      · exact halone hbrace hhead
    · have hpos := textStride?_pos hstride
      obtain ⟨state', hrest⟩ := hpasses replacement (state.inText start)
      refine ⟨state', ?_⟩
      have hnext : start + 1 + (n - 1) = start + n := by omega
      have hpiece : (text.drop start).take (1 + (n - 1)) = unit.text := by
        rw [Nat.add_sub_cancel' hpos, htake]
      rw [List.map_cons, ← hpiece, ← Nat.add_assoc]
      refine .cons (stop_of_textStride? hstride) ?_
      rwa [hnext]

/-- The texts between the replacements of a format string have been passed. -/
theorem Parts.skims {replacement : Option TokenKind → List Char → Except LexicalFault Replacement}
    {text : List Char} {before previous : Option TokenKind} {parts : List FormatPart}
    {position : Nat} (h : Parts replacement text before parts previous position) :
    ∀ start stop, .text start stop ∈ parts →
      start < stop ∧ stop ≤ position ∧ Skims (text.drop start) (stop - start) := by
  induction h with
  | nil => simp
  | @text parts previous start stop hparts hlt hskims _ ih =>
    intro start' stop' hmem
    obtain heq | hmem := List.mem_cons.mp hmem
    · obtain ⟨rfl, rfl⟩ := FormatPart.text.inj heq
      exact ⟨hlt, Nat.le_refl _, hskims⟩
    · obtain ⟨hlt', hle, hskims'⟩ := ih start' stop' hmem
      exact ⟨hlt', by omega, hskims'⟩
  | replacement hparts _ _ ih =>
    intro start' stop' hmem
    obtain heq | hmem := List.mem_cons.mp hmem
    · simp at heq
    · obtain ⟨hlt', hle, hskims'⟩ := ih start' stop' hmem
      exact ⟨hlt', by omega, hskims'⟩

/-- The texts of a format string that has been read have been cut. -/
theorem exists_cut {replacement : Option TokenKind → List Char → Except LexicalFault Replacement}
    {before : Before} {text : List Char} {body : FormatBody}
    (h : read replacement before text = .ok body) {start stop : Nat}
    (hpart : .text start stop ∈ body.parts) :
    ∃ units, stop < body.length ∧ IsCut text start stop units := by
  have hends := parts_of_read h
  obtain ⟨previous, hparts⟩ := hends.parts
  obtain ⟨hlt, hle, hskims⟩ := hparts.skims start stop (List.mem_reverse.mpr hpart)
  have hstop : start + (stop - start) = stop := Nat.add_sub_cancel' (Nat.le_of_lt hlt)
  have hpos := hends.length_pos
  have hne : text.drop (start + (stop - start)) ≠ [] := by
    have hlength := hends.length_le
    rw [hstop, ne_eq, List.drop_eq_nil_iff]
    omega
  obtain ⟨units, hwritten, hunits, happart, hpasses⟩ := units_of_skims hskims hne
  rw [← List.drop_take] at hwritten
  rw [hstop] at hpasses
  exact ⟨units, by omega, hwritten, hunits, happart, hpasses,
    TextUnit.decodes_format hunits happart⟩

end FormatBody

/-! ### Sources -/

/-- The pieces of a format string that has been recognised are those that have been read when its
end was looked for. -/
theorem Lexeme.formatPieces_of_recognized {levels : Nat} (hlevels : levels ≤ mostLevels)
    {before : Before} {cursor : Cursor} {lexeme : Lexeme}
    (h : recognizeWith (replacement levels) before cursor.rest = .ok lexeme)
    (hkind : lexeme.kind = .formatString) :
    ∃ body, FormatBody.read (replacement levels) before cursor.rest = .ok body ∧
      lexeme.length = body.length ∧
      (cursor.token lexeme).formatPieces = .ok (body.parts.map (·.piece cursor)) := by
  obtain ⟨body, hbody, hlength⟩ := formatBody_of_recognized (recognized_of_ok h) hkind
  have htext : (cursor.token lexeme).text.toList = cursor.rest.take body.length := by
    rw [Cursor.token, String.toList_ofList, hlength]
  have hplace : (Cursor.within (cursor.token lexeme).text.toList
      (cursor.token lexeme).span).IsPartOf cursor :=
    ⟨htext ▸ List.take_prefix _ _, rfl, rfl, rfl⟩
  exact ⟨body, hbody, hlength, (Token.rereads hlevels hbody htext hplace).1⟩

/-- Strings are decoded as they have been recognised. The strings and format strings that a scanner
reads have been recognised somewhere, and so have those within replacements, at some number of
levels. Whatever has been recognised as a string without the mark of a raw one, and all text of
what has been recognised as a format string, is decoded in the units in which its end has been
looked for, and what is stored is what these stand for. -/
theorem Scanner.decodes_strings :
    (∀ (scanner behind : Scanner) (token : Token), scanner.read = (.ok token, behind) →
      token.kind ∈ [.string, .formatString] →
      ∃ (before : Before) (cursor : Cursor) (lexeme : Lexeme),
        recognizeWith (replacement mostLevels) before cursor.rest = .ok lexeme ∧
        token = cursor.token lexeme) ∧
    ∀ (levels : Nat) (before : Before) (cursor : Cursor) (lexeme : Lexeme), levels ≤ mostLevels →
      recognizeWith (replacement levels) before cursor.rest = .ok lexeme →
      (lexeme.kind = .string → ∃ literal,
        StringLiteral.read? (cursor.token lexeme).text = some literal ∧
        (literal.raw = false → ∃ bytes quote units,
          StringLiteral.IsCut before cursor.rest lexeme bytes quote units ∧
          TextUnit.AreDecoded units ∧
          literal.value =
            if bytes then .bytes (units.flatMap TextUnit.bytes)
            else .text (String.ofList (Utf8.decode (units.flatMap TextUnit.bytes))))) ∧
      (lexeme.kind = .formatString → ∃ pieces,
        (cursor.token lexeme).formatPieces = .ok pieces ∧
        ∀ raw span, .text raw span ∈ pieces → ∃ start stop units,
          raw = (cursor.rest.take stop).drop start ∧ stop < lexeme.length ∧
          FormatBody.IsCut cursor.rest start stop units ∧
          TextUnit.AreDecoded units ∧
          Escape.decodeFormat raw = units.flatMap TextUnit.bytes ∧
          ∀ enter, Grammar.segment enter (.text raw span) =
            pure (.text (String.ofList raw)
              (String.ofList (Utf8.decode (units.flatMap TextUnit.bytes))) span)) := by
  refine ⟨fun scanner behind token h hkind => ?_, fun levels before cursor lexeme hlevels h =>
    ⟨fun hkind => exists_string h hkind, fun hkind => ?_⟩⟩
  · have hagain : token.kind ∈ readAgain := by
      simp only [readAgain, decoded, List.mem_cons] at hkind ⊢
      tauto
    obtain ⟨lexeme, -, -, hlexeme, htoken⟩ := (readAs_of_read h).outer hagain
    exact ⟨_, _, lexeme, hlexeme, htoken⟩
  · obtain ⟨body, hbody, hlength, hpieces⟩ := formatPieces_of_recognized hlevels h hkind
    refine ⟨_, hpieces, fun raw span hmem => ?_⟩
    obtain ⟨part, hpart, hpiece⟩ := List.mem_map.mp hmem
    cases part with
    | replacement => simp [FormatPart.piece] at hpiece
    | text start stop =>
      rw [FormatPart.piece, FormatPiece.text.injEq] at hpiece
      obtain ⟨rfl, rfl⟩ := hpiece
      obtain ⟨units, hlt, hcut⟩ := FormatBody.exists_cut hbody hpart
      have hdecode : Escape.decodeFormat ((cursor.rest.take stop).drop start) =
          units.flatMap TextUnit.bytes := by
        rw [hcut.written, TextUnit.decodeFormat_flatMap hcut.wellFormed hcut.apart]
      refine ⟨start, stop, units, rfl, hlength ▸ hlt, hcut, TextUnit.areDecoded hcut.wellFormed,
        hdecode, fun enter => ?_⟩
      rw [Grammar.segment, hdecode]

/-- A string of a byte escape. -/
theorem Scanner.decodes_strings_byte :
    ∃ bytes quote units, StringLiteral.IsCut ⟨none, none⟩ ['\x22', '\\', 'x', 'e', '9', '\x22']
      ⟨.string, 6⟩ bytes quote units ∧ TextUnit.AreDecoded units := by
  obtain ⟨literal, hread, hcut⟩ := (Scanner.decodes_strings.2 mostLevels ⟨none, none⟩
    (.ofSource ['\x22', '\\', 'x', 'e', '9', '\x22']) ⟨.string, 6⟩ (Nat.le_refl _)
    (by decide +kernel)).1 rfl
  have hplain : (StringLiteral.read? "\"\\xe9\"").map (·.raw) = some false := by decide +kernel
  have htext : (Cursor.token (.ofSource ['\x22', '\\', 'x', 'e', '9', '\x22'])
      ⟨.string, 6⟩).text = "\"\\xe9\"" := by decide +kernel
  rw [htext] at hread
  rw [hread, Option.map_some] at hplain
  obtain ⟨bytes, quote, units, hcut, hdecoded, -⟩ := hcut (Option.some.inj hplain)
  exact ⟨bytes, quote, units, hcut, hdecoded⟩

-- A byte outside ASCII is no text, and a surrogate is no scalar value.
example : StringLiteral.read? "\"é\\xe9\\u\x7bd800\x7d\"" =
    some ⟨"\"é\\xe9\\u\x7bd800\x7d\"", .text "é\ufffd\ufffd", false⟩ := by
  decide +kernel

end PipelineLang
