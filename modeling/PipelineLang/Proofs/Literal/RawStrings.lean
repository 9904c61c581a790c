import PipelineLang.Proofs.Rereading
import PipelineLang.Proofs.RoundTrip

/-!
# Raw strings

A raw string ends at the first quote behind which there are as many fences as opened it. What is
between its quotes may hold quotes and fewer fences, and is its value as it stands.

## Main definitions

- `RawString.closer`, `RawString.opener` — what closes and opens a raw string
- `RawString.spell`, `RawString.literal` — a raw string as it is written, and as it is read
- `RawString.IsFirst` — nothing before its end closes a raw string

## Main results

- `RawString.isFirst_iff` — this is so if the closer does not occur in what is between the quotes
- `Lexeme.ofRaw_eq_ok_iff` — what is recognised as a raw string
- `Program.reads_raw_strings` — whatever can be written as a raw string is read as it, and
  whatever is read as a raw string has been written as it

## Design notes

A closer starts with the only quote in it. So if it is found within a text and another closer
behind it, it lies within the text alone.
-/

namespace PipelineLang

open Lexeme

namespace RawString

/-- A quote and the fences behind it. -/
def closer (count : Nat) : List Char := '\x22' :: List.replicate count '#'

/-- The fences and the quote behind them. -/
def opener (count : Nat) : List Char := List.replicate count '#' ++ ['\x22']

/-- A raw string with `count` fences on either side of `body`. -/
def spell (bytes : Bool) (count : Nat) (body : List Char) : List Char :=
  StringLiteral.byteMark bytes ++ 'r' :: (opener count ++ (body ++ closer count))

/-- The closer that is behind `body` is the first one. -/
def IsFirst (count : Nat) (body rest : List Char) : Prop :=
  ∀ i < body.length, ¬ closer count <+: (body ++ (closer count ++ rest)).drop i

/-- The source that is a raw string and nothing else. -/
def source (bytes : Bool) (count : Nat) (body : String) : String :=
  String.ofList (spell bytes count body.toList)

/-- The literal that a raw string is read as. -/
def literal (bytes : Bool) (count : Nat) (body : String) : StringLiteral :=
  ⟨source bytes count body, if bytes then .bytes (Utf8.encode body.toList) else .text body, true⟩

@[simp] theorem length_closer (count : Nat) : (closer count).length = count + 1 := by
  simp [closer]

@[simp] theorem length_opener (count : Nat) : (opener count).length = count + 1 := by
  simp [opener]

/-- A closer that starts before another one ends before it. -/
theorem prefix_of_prefix_append {count : Nat} {text rest : List Char} (hne : text ≠ [])
    (h : closer count <+: text ++ (closer count ++ rest)) : closer count <+: text := by
  obtain hshort | hlong := List.prefix_or_prefix_of_prefix h (List.prefix_append text _)
  · exact hshort
  · -- What is left of the closer would start with the quote of the other one.
    obtain ⟨left, hleft⟩ := hlong
    rw [← hleft, List.prefix_append_right_inj] at h
    cases left with
    | nil => exact ⟨[], by rw [List.append_nil] at hleft ⊢; exact hleft.symm⟩
    | cons c left =>
      obtain ⟨first, tail, rfl⟩ := List.exists_cons_of_ne_nil hne
      have hfirst : first = '\x22' := (List.cons.inj hleft).1
      have hfences : tail ++ c :: left = List.replicate count '#' := (List.cons.inj hleft).2
      have hquote : c = first := (List.cons_prefix_cons.mp h).1
      have hmem : c ∈ List.replicate count '#' := by
        rw [← hfences]
        exact List.mem_append_right tail List.mem_cons_self
      have hfence : c = '#' := List.eq_of_mem_replicate hmem
      rw [hquote, hfirst] at hfence
      exact absurd hfence (by decide)

/-- The closer behind a text is the first one if the text holds none. -/
theorem isFirst_iff {count : Nat} {body rest : List Char} :
    IsFirst count body rest ↔ ¬ closer count <:+: body := by
  constructor
  · rintro h ⟨front, back, rfl⟩
    have hlt : front.length < (front ++ closer count ++ back).length := by
      rw [List.length_append, List.length_append, length_closer]
      omega
    refine h front.length hlt ?_
    simp only [List.append_assoc, List.drop_left]
    exact List.prefix_append _ _
  · intro h i hi hprefix
    rw [List.drop_append_of_le_length (Nat.le_of_lt hi)] at hprefix
    have hne : body.drop i ≠ [] := by
      rw [ne_eq, List.drop_eq_nil_iff]
      omega
    exact h ((prefix_of_prefix_append hne hprefix).isInfix.trans (List.drop_suffix i body).isInfix)

end RawString

open RawString

/-! ### Recognising raw strings -/

namespace Lexeme

variable {before : Before} {count : Nat} {lexeme : Lexeme}

theorem ofRaw.stop_of_closer {position : Nat} {rest : List Char} :
    stop before count position () (closer count ++ rest) =
      .done (.ok ⟨.string, position + (count + 1)⟩) := by
  have hfences : (List.replicate count fence).isPrefixOf (List.replicate count '#' ++ rest) := by
    rw [List.isPrefixOf_iff_prefix]
    exact List.prefix_append _ _
  rw [closer, List.cons_append, stop, if_pos (by simpa using hfences), Nat.add_assoc,
    Nat.add_comm 1]

theorem ofRaw.stop_of_not_closer {position : Nat} {c : Char} {rest : List Char}
    (h : ¬ closer count <+: c :: rest) : stop before count position () (c :: rest) = .go 0 () := by
  rw [stop, if_neg]
  simp only [Bool.and_eq_true, decide_eq_true_eq, List.isPrefixOf_iff_prefix]
  rintro ⟨rfl, hfences⟩
  exact h (List.cons_prefix_cons.mpr ⟨rfl, hfences⟩)

/-- The walk along a raw string ends at its first closer. -/
theorem ofRaw.walk_eq_ok_iff {position : Nat} {text : List Char} :
    walk (stop before count) (finish before count) 0 position () text = .ok lexeme ↔
      ∃ body rest, text = body ++ (closer count ++ rest) ∧ IsFirst count body rest ∧
        lexeme = ⟨.string, position + body.length + (count + 1)⟩ := by
  induction text generalizing position with
  | nil =>
    rw [walk, finish]
    refine ⟨by simp, ?_⟩
    rintro ⟨body, rest, hnil, -⟩
    simp [closer] at hnil
  | cons c text ih =>
    by_cases hcloser : closer count <+: c :: text
    · obtain ⟨rest, hrest⟩ := hcloser
      rw [walk, ← hrest, stop_of_closer]
      constructor
      · intro h
        refine ⟨[], rest, rfl, by simp [IsFirst], ?_⟩
        exact (Except.ok.inj h).symm
      · rintro ⟨body, rest', hsplit, hfirst, rfl⟩
        cases body with
        | nil => rfl
        | cons d body =>
          refine absurd ?_ (hfirst 0 (Nat.succ_pos _))
          rw [List.drop_zero, ← hsplit]
          exact List.prefix_append _ _
    · rw [walk, stop_of_not_closer hcloser]
      dsimp only
      rw [ih]
      constructor
      · rintro ⟨body, rest, rfl, hfirst, rfl⟩
        refine ⟨c :: body, rest, rfl, fun i hi => ?_, by simp; omega⟩
        cases i with
        | zero => exact hcloser
        | succ i => exact hfirst i (Nat.lt_of_succ_lt_succ hi)
      · rintro ⟨body, rest, hsplit, hfirst, rfl⟩
        cases body with
        | nil => exact absurd ⟨rest, hsplit.symm⟩ hcloser
        | cons d body =>
          obtain ⟨rfl, rfl⟩ := List.cons.inj hsplit
          exact ⟨body, rest, rfl, fun i hi => hfirst (i + 1) (Nat.succ_lt_succ hi), by simp; omega⟩

theorem fenceCount_opener (count : Nat) (rest : List Char) :
    fenceCount (opener count ++ rest) = count := by
  rw [opener, List.append_assoc]
  exact fenceCount_fences count rest

theorem opensRaw_opener (count : Nat) (rest : List Char) : opensRaw (opener count ++ rest) := by
  rw [opener, List.append_assoc]
  exact opensRaw_fences count rest

/-- What opens a raw string. -/
theorem exists_of_opensRaw {text : List Char} (h : opensRaw text) :
    ∃ count rest, text = opener count ++ rest := by
  rw [opensRaw, beq_iff_eq] at h
  obtain ⟨rest, hrest⟩ := List.head?_eq_some_iff.mp h
  refine ⟨fenceCount text, rest, ?_⟩
  rw [opener, List.append_assoc, List.singleton_append, ← hrest, ← fence, ← fenceCount_spec,
    List.take_append_drop]

/-- A raw string is recognised if it has few enough fences and is closed somewhere, and it ends
with its first closer. -/
theorem ofRaw_eq_ok_iff {front rest : List Char} :
    ofRaw before front.length (front ++ (opener count ++ rest)) = .ok lexeme ↔
      count ≤ LexicalCause.mostFences ∧ ∃ body behind, rest = body ++ (closer count ++ behind) ∧
        IsFirst count body behind ∧
        lexeme = ⟨.string, front.length + (count + 1) + body.length + (count + 1)⟩ := by
  have hbehind : (front ++ (opener count ++ rest)).drop (front.length + (count + 1)) = rest := by
    rw [← List.drop_drop, List.drop_left, ← length_opener, List.drop_left]
  simp only [ofRaw, List.drop_left, fenceCount_opener]
  rw [Nat.add_assoc front.length count 1, hbehind]
  split
  · next hmany =>
    refine ⟨by simp, ?_⟩
    rintro ⟨hfew, -⟩
    omega
  · next hfew =>
    rw [ofRaw.walk_eq_ok_iff]
    exact ⟨fun h => ⟨Nat.not_lt.mp hfew, h⟩, fun h => h.2⟩

theorem length_spell (bytes : Bool) (count : Nat) (body : List Char) :
    (spell bytes count body).length =
      (StringLiteral.byteMark bytes ++ ['r']).length + (count + 1) + body.length + (count + 1) := by
  simp [spell]
  omega

/-- Behind its marks, a raw string is told by what opens it. -/
theorem recognizeWith_raw
    {replacement : Option TokenKind → List Char → Except LexicalFault Replacement} {before : Before}
    (bytes : Bool) {rest : List Char} (h : opensRaw rest) :
    recognizeWith replacement before ((StringLiteral.byteMark bytes ++ ['r']) ++ rest) =
      ofRaw before (StringLiteral.byteMark bytes ++ ['r']).length
        ((StringLiteral.byteMark bytes ++ ['r']) ++ rest) := by
  cases bytes with
  | false =>
    show recognizeWith replacement before ('r' :: rest) = ofRaw before 1 ('r' :: rest)
    rw [recognizeWith]
    · simp [h]
    all_goals simp
  | true =>
    show recognizeWith replacement before ('b' :: 'r' :: rest) = ofRaw before 2 ('b' :: 'r' :: rest)
    rw [recognizeWith]
    · simp [h]
    all_goals simp

/-- What can be spelled as a raw string is recognised as one, wherever it stands. -/
theorem recognizeWith_spell
    {replacement : Option TokenKind → List Char → Except LexicalFault Replacement}
    (bytes : Bool) (hcount : count ≤ LexicalCause.mostFences) {body : List Char}
    (hbody : ¬ closer count <:+: body) (before : Before) (rest : List Char) :
    recognizeWith replacement before (spell bytes count body ++ rest) =
      .ok ⟨.string, (spell bytes count body).length⟩ := by
  have hsplit : spell bytes count body ++ rest = (StringLiteral.byteMark bytes ++ ['r']) ++
      (opener count ++ (body ++ (closer count ++ rest))) := by simp [spell]
  rw [hsplit, recognizeWith_raw bytes (opensRaw_opener count _), ofRaw_eq_ok_iff]
  exact ⟨hcount, body, rest, rfl, isFirst_iff.mpr hbody, by rw [length_spell]⟩

theorem read?_source (bytes : Bool) (count : Nat) (body : String) :
    StringLiteral.read? (RawString.source bytes count body) =
      some (RawString.literal bytes count body) := by
  have hread : StringLiteral.read? (RawString.source bytes count body) =
      some ⟨RawString.source bytes count body,
        StringLiteral.verbatimValue bytes body.toList, true⟩ :=
    StringLiteral.read?_raw bytes count body.toList
  rw [hread, StringLiteral.verbatimValue, String.ofList_toList]
  rfl

/-- What is recognised as a raw string has been spelled as one, and ends with its first closer. -/
theorem spell_of_recognized
    {replacement : Option TokenKind → List Char → Except LexicalFault Replacement}
    {text : List Char} (h : recognizeWith replacement before text = .ok lexeme)
    (hkind : lexeme.kind = .string) {literal : StringLiteral}
    (hread : StringLiteral.read? (String.ofList (text.take lexeme.length)) = some literal)
    (hraw : literal.raw = true) :
    ∃ bytes count body rest, count ≤ LexicalCause.mostFences ∧
      text = spell bytes count body ++ rest ∧ IsFirst count body rest ∧
      lexeme.length = (spell bytes count body).length ∧
      literal = RawString.literal bytes count (String.ofList body) := by
  cases recognizedString_of_ok h hkind with
  | plain hmarks hquote h =>
    obtain ⟨quote, middle, hhead, htake⟩ := take_of_ofQuoted h
    rw [hhead, Option.some.injEq, Option.some.injEq] at hquote
    obtain ⟨bytes, hmarks⟩ := exists_byteMark hmarks
    rw [htake, hmarks, StringLiteral.read?_plain bytes hquote] at hread
    obtain rfl := Option.some.inj hread
    exact absurd hraw (by simp)
  | @raw lead hmarks hopens h =>
    obtain ⟨bytes, hmarks⟩ := exists_byteMark_raw hmarks
    obtain ⟨count, behind, hbehind⟩ := exists_of_opensRaw hopens
    have hsplit : text = (StringLiteral.byteMark bytes ++ ['r']) ++ (opener count ++ behind) := by
      rw [← hmarks, ← hbehind, List.take_append_drop]
    have hlead : lead = (StringLiteral.byteMark bytes ++ ['r']).length := by
      have hlength := congrArg List.length hbehind
      rw [← hmarks, List.length_take]
      rw [List.length_drop, List.length_append, length_opener] at hlength
      omega
    rw [hsplit, hlead, ofRaw_eq_ok_iff] at h
    obtain ⟨hcount, body, rest, rfl, hfirst, hlexeme⟩ := h
    have hlength : lexeme.length = (spell bytes count body).length := by
      rw [hlexeme, length_spell]
    have htext : text = spell bytes count body ++ rest := by
      rw [hsplit]
      simp [spell]
    refine ⟨bytes, count, body, rest, hcount, htext, hfirst, hlength, ?_⟩
    have hread' := read?_source bytes count (String.ofList body)
    rw [RawString.source, String.toList_ofList] at hread'
    rw [htext, hlength, List.take_left, hread'] at hread
    exact (Option.some.inj hread).symm

end Lexeme

/-! ### Sources -/

namespace Scanner

/-- A source that is spelled as a raw string holds one token. -/
theorem reads_spell (bytes : Bool) {count : Nat} (hcount : count ≤ LexicalCause.mostFences)
    {body : List Char} (hbody : ¬ closer count <:+: body) :
    ∃ line column, (ofSource (spell bytes count body)).Reads
      [⟨.string, String.ofList (spell bytes count body),
          ⟨0, byteCount (spell bytes count body), 1, 1⟩⟩,
        ⟨.eof, "", ⟨byteCount (spell bytes count body), byteCount (spell bytes count body), line,
          column⟩⟩] := by
  have hlexeme : recognize ⟨none, none⟩ (spell bytes count body ++ []) =
      .ok ⟨.string, (spell bytes count body).length⟩ :=
    recognizeWith_spell bytes hcount hbody ⟨none, none⟩ []
  have hplace : (ofSource (spell bytes count body)).passGap =
      ⟨⟨spell bytes count body, 0, 1, 1, none⟩, .start, none, false⟩ := by
    cases bytes <;> rfl
  have hopening : (ofSource (spell bytes count body)).passGap.opening? = none := by
    cases bytes <;> rfl
  have hphase : (ofSource (spell bytes count body)).phase ≠ .frontmatter :=
    fun hphase => absurd (show Phase.start = .frontmatter from hphase) (by decide)
  have hread := read_of_opening? hphase hopening
  rw [hplace] at hread
  rw [List.append_nil] at hlexeme
  generalize spell bytes count body = source at hlexeme hread ⊢
  -- Behind the string the source has ended.
  obtain ⟨behind, hbehind⟩ : ∃ behind, Scanner.passLexeme
      ⟨⟨source, 0, 1, 1, none⟩, .start, none, false⟩ ⟨.string, source.length⟩ = behind := ⟨_, rfl⟩
  have hcursor : behind.cursor = Cursor.advanceBy ⟨source, 0, 1, 1, none⟩ source.length := by
    rw [← hbehind]
    rfl
  have hrest : behind.cursor.rest = [] := by
    rw [hcursor, Cursor.rest_advanceBy, List.drop_length]
  have hoffset : behind.cursor.offset = byteCount source := by
    rw [hcursor, Cursor.offset_advanceBy, List.take_length, Nat.zero_add]
  have hgap : behind.passGap.cursor = behind.cursor := by
    show behind.cursor.advanceBy (Gap.length behind.cursor.rest) = _
    rw [hrest]
    rfl
  have hstring := hread.trans (readProgram_of_lexeme hlexeme (by simp))
  rw [hbehind] at hstring
  have hend := read_eof (by rw [← hbehind]; rfl) (hgap.symm ▸ hrest)
  rw [hgap] at hend
  have htoken : Scanner.tokenOf ⟨⟨source, 0, 1, 1, none⟩, .start, none, false⟩ .string
      source.length = ⟨.string, String.ofList source, ⟨0, byteCount source, 1, 1⟩⟩ := by
    simp only [tokenOf, List.take_length, Cursor.spanBetween, Cursor.offset_advanceBy,
      Nat.zero_add]
    rfl
  have hstop : behind.cursor.token ⟨.eof, 0⟩ = ⟨.eof, "", ⟨byteCount source, byteCount source,
      behind.cursor.line, behind.cursor.column⟩⟩ := by
    simp only [Cursor.token, List.take_zero, Cursor.spanBetween, Cursor.advanceBy, hoffset]
  rw [htoken] at hstring
  rw [hstop] at hend
  exact ⟨_, _, .more hstring (by simp) (.last hend rfl)⟩

end Scanner

namespace Program

open Grammar

variable {bytes : Bool} {count : Nat} {body : String}

/-- A raw string that is assigned to a name is read as its literal. -/
theorem ofSource_raw (limit : Nat) (hcount : count ≤ LexicalCause.mostFences)
    (hbody : ¬ closer count <:+: body.toList) :
    ∃ target span span' pipelineSpan programSpan,
      ofSource (limit + 1) ("x = " ++ RawString.source bytes count body) =
        .ok ⟨none, some ⟨[.assignment target
          (.literal (.string (RawString.literal bytes count body)) span') span], pipelineSpan⟩,
          programSpan⟩ := by
  have hread := read?_source bytes count body
  have htext : (RawString.literal bytes count body).text = RawString.source bytes count body := rfl
  generalize RawString.literal bytes count body = literal at hread htext ⊢
  have hlegible : (Expr.literal (.string literal) .zero).Legible := by
    show Literal.ofText? .string literal.text = some (.string literal)
    rw [htext, Literal.ofText?, hread]
    rfl
  have hlaid : LaidOut recognize Before.Operand (Expr.literal (.string literal) .zero).layout.toList
      ((Expr.literal (.string literal) .zero).words .layout) := by
    show LaidOut recognize Before.Operand literal.text.toList [(.string, literal.text)]
    rw [htext, RawString.source, String.toList_ofList]
    exact laidOut_word (by decide) fun before rest _ _ =>
      recognizeWith_spell bytes hcount hbody before rest
  obtain ⟨tokens, hreads, hwords⟩ := reads_assignment hlaid (by simp [Expr.words])
  have htarget : (Selector.field ⟨false, [⟨⟨"x", .zero⟩, false⟩], .zero⟩).Legible := .inr (by simp)
  have hreadable : (Expr.literal (.string literal) .zero).All Expr.Readable :=
    .intro ⟨trivial, hlegible⟩ (by simp [Expr.children])
  obtain ⟨target, found, span, programSpan, hok, -, hfound⟩ :=
    ofTokens_assignment htarget hreadable (Nat.succ_pos limit) hwords
  obtain ⟨span', rfl⟩ : ∃ span', found = .literal (.string literal) span' := by
    cases found <;> simp [Expr.unplaced] at hfound
    exact ⟨_, by rw [hfound]⟩
  have hsource : ("x = " ++ RawString.source bytes count body).toList =
      'x' :: ' ' :: '=' :: ' ' :: (Expr.literal (.string literal) .zero).layout.toList := by
    show _ = 'x' :: ' ' :: '=' :: ' ' :: literal.text.toList
    simp [htext]
  have htokenize : tokenize ("x = " ++ RawString.source bytes count body) = .ok tokens := by
    rw [tokenize, hsource]
    exact Scanner.tokens?_of_reads rfl hreads
  refine ⟨target, span, span', span, programSpan, ?_⟩
  rw [ofSource_of_tokenize htokenize, hok]
  rfl

/-- Raw strings are read as they are spelled. With at most eight fences, and no quote in its body
that has as many fences behind it, a raw string is one token of a source and has its body as its
value. And whatever a scanner reads as a raw string, or recognises as one within a replacement, is
spelled in this way: behind the quote that opens it its body goes up to the first quote that has
as many fences behind it as opened it, and is its value. -/
theorem reads_raw_strings :
    (∀ (bytes : Bool) (count : Nat) (body : String), count ≤ 8 →
      ¬ closer count <:+: body.toList →
      (∃ line column, tokenize (RawString.source bytes count body) = .ok
        [⟨.string, RawString.source bytes count body,
            ⟨0, byteCount (spell bytes count body.toList), 1, 1⟩⟩,
          ⟨.eof, "", ⟨byteCount (spell bytes count body.toList),
            byteCount (spell bytes count body.toList), line, column⟩⟩]) ∧
      Literal.ofText? .string (RawString.source bytes count body) =
        some (.string (RawString.literal bytes count body)) ∧
      ∀ limit, ∃ target span span' pipelineSpan programSpan,
        ofSource (limit + 1) ("x = " ++ RawString.source bytes count body) =
          .ok ⟨none, some ⟨[.assignment target
            (.literal (.string (RawString.literal bytes count body)) span') span], pipelineSpan⟩,
            programSpan⟩) ∧
    (∀ (scanner behind : Scanner) (token : Token), scanner.read = (.ok token, behind) →
      token.kind = .string → ∃ (before : Before) (cursor : Cursor) (lexeme : Lexeme),
        recognizeWith (replacement mostLevels) before cursor.rest = .ok lexeme ∧
        token = cursor.token lexeme) ∧
    ∀ (levels : Nat) (before : Before) (cursor : Cursor) (lexeme : Lexeme),
      recognizeWith (replacement levels) before cursor.rest = .ok lexeme →
      lexeme.kind = .string → ∃ literal,
        StringLiteral.read? (cursor.token lexeme).text = some literal ∧
        (literal.raw = true → ∃ bytes count body rest, count ≤ 8 ∧
          cursor.rest = spell bytes count body ++ rest ∧ IsFirst count body rest ∧
          (cursor.token lexeme).text = RawString.source bytes count (String.ofList body) ∧
          literal = RawString.literal bytes count (String.ofList body)) := by
  refine ⟨fun bytes count body hcount hbody => ⟨?_, ?_, fun limit =>
    ofSource_raw limit hcount hbody⟩, fun scanner behind token h hkind => ?_,
    fun levels before cursor lexeme h hkind => ?_⟩
  · obtain ⟨line, column, hreads⟩ := Scanner.reads_spell bytes hcount hbody
    refine ⟨line, column, ?_⟩
    rw [tokenize, RawString.source, String.toList_ofList]
    exact Scanner.tokens?_of_reads rfl hreads
  · rw [Literal.ofText?, read?_source]
    rfl
  · obtain ⟨lexeme, -, -, hlexeme, htoken⟩ :=
      (Scanner.readAs_of_read h).outer (by simp [hkind, readAgain, decoded])
    exact ⟨_, _, lexeme, hlexeme, htoken⟩
  · obtain ⟨literal, hread⟩ :=
      Option.isSome_iff_exists.mp (isSome_string (recognizedString_of_ok h hkind))
    refine ⟨literal, hread, fun hraw => ?_⟩
    obtain ⟨bytes, count, body, rest, hcount, htext, hfirst, hlength, hliteral⟩ :=
      spell_of_recognized h hkind hread hraw
    refine ⟨bytes, count, body, rest, hcount, htext, hfirst, ?_, hliteral⟩
    rw [Cursor.token, htext, hlength, List.take_left, RawString.source, String.toList_ofList]

/-- A quote with no fence behind it does not close a string with one fence. -/
theorem reads_raw_strings_quote :
    Literal.ofText? .string "r#\"a\"b\"#" =
        some (.string ⟨"r#\"a\"b\"#", .text "a\"b", true⟩) ∧
      ∃ literal, StringLiteral.read? "br\"\"" = some literal ∧
        ∃ bytes count body rest, count ≤ 8 ∧
          "br\"\"|".toList = spell bytes count body ++ rest ∧ IsFirst count body rest ∧
          literal = RawString.literal bytes count (String.ofList body) := by
  have hbody : ¬ closer 1 <:+: "a\"b".toList := by decide
  obtain ⟨-, hliteral, -⟩ := reads_raw_strings.1 false 1 "a\"b" (by decide) hbody
  refine ⟨hliteral, ?_⟩
  obtain ⟨literal, hread, hraw⟩ := reads_raw_strings.2.2 mostLevels ⟨none, none⟩
    (.ofSource "br\"\"|".toList) ⟨.string, 4⟩ (by decide +kernel) rfl
  have htext : (Cursor.token (.ofSource "br\"\"|".toList) ⟨.string, 4⟩).text = "br\"\"" := by
    decide +kernel
  have hmark : (StringLiteral.read? "br\"\"").map (·.raw) = some true := by decide +kernel
  rw [htext] at hread
  rw [hread, Option.map_some] at hmark
  obtain ⟨bytes, count, body, rest, hcount, hrest, hfirst, -, hliteral⟩ :=
    hraw (Option.some.inj hmark)
  exact ⟨literal, hread, bytes, count, body, rest, hcount, hrest, hfirst, hliteral⟩

end Program

end PipelineLang
