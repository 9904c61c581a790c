import PipelineLang.Proofs.Token.Place

/-!
# Nothing is lost between tokens

The tokens of a source and the gaps between them are the source, character by character.

## Main definitions

- `IsGap` — the texts that may stand between tokens
- `LeavesGap` — a gap lies between two places of a source
- `Lossless` — tokens and gaps make up a source

## Main results

- `Gap.isGap_take_length` — what a scanner passes over is a gap
- `Scanner.ReadAs.gap` — one token, and the gap before it
- `lossless_of_tokenize` — all tokens of a source

## Design notes

A gap is described apart from `Gap.length`, which measures one: by blanks, and by
continuations of a line.
-/

namespace PipelineLang

/-- A text of blanks and continuations. A continuation is a backslash, blanks and a line
feed. -/
inductive IsGap : List Char → Prop
  | nil : IsGap []
  | blank {c rest} (hc : Ascii.isBlank c) (hrest : IsGap rest) : IsGap (c :: rest)
  | continuation {blanks rest} (hblanks : ∀ c ∈ blanks, Ascii.isBlank c) (hrest : IsGap rest) :
    IsGap ('\\' :: (blanks ++ '\n' :: rest))

/-- The bytes of a source from `start` up to `stop` are a gap. -/
def LeavesGap (source : List Char) (start stop : Nat) : Prop :=
  ∃ front gap back, source = front ++ (gap ++ back) ∧ start = byteCount front ∧
    stop = byteCount (front ++ gap) ∧ IsGap gap

/-- Tokens and gaps make up a source. -/
structure Lossless (source : List Char) (tokens : List Token) : Prop where
  /-- The text of each token is what the source has between the bytes of its span. -/
  covers : ∀ token ∈ tokens, token.span.Covers source token.text.toList
  /-- No token starts before an earlier one has ended. -/
  ordered : tokens.Pairwise fun token later => token.span.stop ≤ later.span.start
  /-- Each token but the end has text. -/
  nonempty : ∀ token ∈ tokens, token.kind ≠ .eof → token.span.start < token.span.stop
  /-- There is one end, behind all other tokens and behind all bytes. -/
  ending : ∃ others stop, tokens = others ++ [stop] ∧ (∀ token ∈ others, token.kind ≠ .eof) ∧
    stop.kind = .eof ∧ stop.span.start = byteCount source ∧ stop.span.stop = byteCount source
  /-- A gap lies between each token and the next one. -/
  gaps : tokens.IsChain fun token next => LeavesGap source token.span.stop next.span.start
  /-- A gap lies before the first token, behind the byte order mark if there is one. -/
  leading : ∀ token ∈ tokens.head?, LeavesGap source
    (if source.head? = some Cursor.byteOrderMark then Cursor.byteOrderMark.utf8Size else 0)
    token.span.start

namespace Gap

/-- A continuation behind its backslash: blanks, then a line feed. -/
theorem take_continuation? {text : List Char} {n : Nat} (h : continuation? text = some n) :
    ∃ blanks, (∀ c ∈ blanks, Ascii.isBlank c) ∧ text.take n = blanks ++ ['\n'] := by
  induction text generalizing n with
  | nil => simp [continuation?] at h
  | cons c rest ih =>
    rw [continuation?] at h
    split at h
    · next hline =>
      obtain rfl := Option.some.inj h
      exact ⟨[], by simp, by simp [hline]⟩
    split at h
    · next hblank =>
      obtain ⟨m, hm, rfl⟩ := Option.map_eq_some_iff.mp h
      obtain ⟨blanks, hblanks, htake⟩ := ih hm
      refine ⟨c :: blanks, List.forall_mem_cons.mpr ⟨hblank, hblanks⟩, ?_⟩
      rw [Nat.add_comm, List.take_succ_cons, htake, List.cons_append]
    · simp at h

theorem continuation?_le {text : List Char} {n : Nat} (h : continuation? text = some n) :
    n ≤ text.length := by
  induction text generalizing n with
  | nil => simp [continuation?] at h
  | cons c rest ih =>
    rw [continuation?] at h
    split at h
    · obtain rfl := Option.some.inj h
      simp
    split at h
    · obtain ⟨m, hm, rfl⟩ := Option.map_eq_some_iff.mp h
      have := ih hm
      rw [List.length_cons]
      omega
    · simp at h

/-- The characters that are passed without a look come first. -/
theorem lengthFrom_of_le {skip : Nat} {text : List Char} (h : skip ≤ text.length) :
    lengthFrom skip text = skip + length (text.drop skip) := by
  induction text generalizing skip with
  | nil =>
    obtain rfl : skip = 0 := Nat.le_zero.mp h
    rfl
  | cons c rest ih =>
    cases skip with
    | zero => rw [List.drop_zero, Nat.zero_add, length]
    | succ skip =>
      have hskip : skip ≤ rest.length := Nat.le_of_succ_le_succ h
      rw [lengthFrom, ih hskip, List.drop_succ_cons]
      omega

/-- The gap at the head of a text is a gap. -/
theorem isGap_take_length (text : List Char) : IsGap (text.take (length text)) := by
  -- A continuation is passed at once, so the induction is on the number of characters ahead.
  induction hcount : text.length using Nat.strong_induction_on generalizing text with
  | _ count ih =>
    subst hcount
    cases text with
    | nil => exact .nil
    | cons c rest =>
      rw [length, lengthFrom]
      split
      · next hblank =>
        rw [Nat.add_comm, List.take_succ_cons]
        exact .blank hblank (ih rest.length (Nat.lt_succ_self _) rest rfl)
      split
      · next hslash =>
        subst hslash
        split
        · next n hn =>
          obtain ⟨blanks, hblanks, htake⟩ := take_continuation? hn
          have hle := continuation?_le hn
          have hbehind : (rest.drop n).length < ('\\' :: rest).length := by
            rw [List.length_drop, List.length_cons]
            omega
          have hsplit : ('\\' :: rest).take (1 + lengthFrom n rest) =
              '\\' :: (blanks ++ '\n' :: (rest.drop n).take (length (rest.drop n))) := by
            rw [lengthFrom_of_le hle, Nat.add_comm, List.take_succ_cons, List.take_add, htake]
            simp
          rw [hsplit]
          exact .continuation hblanks (ih _ hbehind (rest.drop n) rfl)
        · exact .nil
      · exact .nil

end Gap

namespace Cursor

theorem StandsIn.leavesGap {source : List Char} {here : Cursor} (h : here.StandsIn source) :
    LeavesGap source here.offset (here.advanceBy (Gap.length here.rest)).offset := by
  obtain ⟨passed, hsource, hoffset⟩ := h
  refine ⟨passed, here.rest.take (Gap.length here.rest), here.rest.drop (Gap.length here.rest),
    ?_, hoffset, ?_, Gap.isGap_take_length _⟩
  · rw [List.take_append_drop, hsource]
  · rw [offset_advanceBy, byteCount_append, hoffset]

theorem StandsIn.leavesNone {source : List Char} {here : Cursor} (h : here.StandsIn source) :
    LeavesGap source here.offset here.offset := by
  obtain ⟨passed, hsource, hoffset⟩ := h
  exact ⟨passed, [], here.rest, hsource, hoffset, by rw [List.append_nil]; exact hoffset, .nil⟩

/-- A cursor with nothing ahead stands behind all bytes. -/
theorem StandsIn.offset_of_rest {source : List Char} {here : Cursor} (h : here.StandsIn source)
    (hrest : here.rest = []) : here.offset = byteCount source := by
  obtain ⟨passed, hsource, hoffset⟩ := h
  rw [hrest, List.append_nil] at hsource
  rw [hsource, hoffset]

theorem byteCount_pos {text : List Char} (h : text ≠ []) : 0 < byteCount text := by
  cases text with
  | nil => exact absurd rfl h
  | cons c rest =>
    have := Char.utf8Size_pos c
    rw [byteCount_cons]
    omega

theorem offset_ofSource (source : List Char) : (ofSource source).offset =
    if source.head? = some byteOrderMark then byteOrderMark.utf8Size else 0 := by
  cases source with
  | nil => rfl
  | cons c source =>
    rw [ofSource, List.head?_cons]
    by_cases hc : c = byteOrderMark
    · rw [if_pos hc, if_pos (congrArg some hc), hc]
    · rw [if_neg hc, if_neg (fun h => hc (Option.some.inj h))]

end Cursor

namespace Lexeme

/-- The end is read at the end only. -/
theorem Recognized.eq_nil
    {replacement : Option TokenKind → List Char → Except LexicalFault Replacement}
    {before : Before} {text : List Char} {lexeme : Lexeme}
    (h : Recognized replacement before text lexeme) (hkind : lexeme.kind = .eof) : text = [] := by
  cases h with
  | eof => rfl
  | newline | lineComment | format | dollar => simp [ofLineComment] at hkind
  | blockComment h => simp [(ofBlockComment_delimited _ _ _ h).1] at hkind
  | quoted h => simp [(ofQuoted_delimited _ _ _ _ h).1] at hkind
  | raw h => simp [(ofRaw_delimited _ _ _ _ h).1] at hkind
  | @digit c rest h =>
    have := (ofDigit_spec h rest).2
    simp [hkind] at this
  | @colon rest =>
    have := (ofColon_spec before rest).2
    simp [hkind] at this
  | @word c rest h =>
    obtain hmem | ⟨spelling, hspelling⟩ := ofWord_kind before h rest
    · simp [hkind] at hmem
    · simp [hkind, TokenKind.spelling?] at hspelling
  | punctuation h =>
    have hkinds : ∀ entry ∈ Lexeme.punctuation, entry.2 ≠ .eof := by decide
    exact absurd hkind (hkinds _ (ofPunctuation?_spec h).1)

end Lexeme

namespace Scanner

theorem start_tokenOf (scanner : Scanner) (kind : TokenKind) (length : Nat) :
    (scanner.tokenOf kind length).span.start = scanner.cursor.offset := rfl

theorem stop_tokenOf (scanner : Scanner) (kind : TokenKind) (length : Nat) :
    (scanner.tokenOf kind length).span.stop = (scanner.pass length).cursor.offset := rfl

/-- A token that takes a character is not empty. -/
theorem tokenOf_nonempty {scanner : Scanner} (kind : TokenKind) {length : Nat}
    (hrest : scanner.cursor.rest ≠ []) (hlength : 0 < length) :
    (scanner.tokenOf kind length).span.start < (scanner.tokenOf kind length).span.stop := by
  have hne : scanner.cursor.rest.take length ≠ [] := by
    rw [ne_eq, List.take_eq_nil_iff]
    exact not_or.mpr ⟨Nat.ne_of_gt hlength, hrest⟩
  have hpos := Cursor.byteCount_pos hne
  rw [start_tokenOf, stop_tokenOf, pass, Cursor.offset_advanceBy]
  omega

/-- What one token of a scanner takes: a gap, and the text of the token. -/
structure Steps (source : List Char) (scanner behind : Scanner) (token : Token) : Prop where
  gap : LeavesGap source scanner.cursor.offset token.span.start
  behind : token.kind ≠ .eof →
    token.span.start < token.span.stop ∧ behind.cursor.offset = token.span.stop
  ending : token.kind = .eof →
    token.span.start = byteCount source ∧ token.span.stop = byteCount source

theorem ReadAs.gap {source : List Char} {scanner behind : Scanner} {token : Token}
    (h : ReadAs scanner token behind) (hsource : scanner.cursor.StandsIn source) :
    Steps source scanner behind token := by
  have hgap : LeavesGap source scanner.cursor.offset scanner.passGap.cursor.offset :=
    hsource.leavesGap
  cases h with
  | frontmatterEnd hphase hrest =>
    have hend := hsource.offset_of_rest hrest
    exact ⟨hsource.leavesNone, fun h => absurd rfl h, fun _ => ⟨hend, hend⟩⟩
  | frontmatterClose hphase hlength =>
    obtain ⟨hrest, hpos⟩ := delimiter?_pos hlength
    exact ⟨hsource.leavesNone, fun _ => ⟨tokenOf_nonempty _ hrest hpos, rfl⟩, nofun⟩
  | frontmatterBody hphase hrest hnone =>
    have hpos := bodyLength_pos hrest hnone
    exact ⟨hsource.leavesNone, fun _ => ⟨tokenOf_nonempty _ hrest hpos, rfl⟩, nofun⟩
  | frontmatterOpen hphase hlength =>
    refine ⟨hgap, fun _ => ?_, nofun⟩
    unfold opening? at hlength
    split at hlength
    · obtain ⟨hrest, hpos⟩ := delimiter?_pos hlength
      exact ⟨tokenOf_nonempty _ hrest hpos, rfl⟩
    · simp at hlength
  | eof hphase hopening heof =>
    have hrest := (Lexeme.recognized_of_ok heof).eq_nil rfl
    have hend := (show scanner.passGap.cursor.StandsIn source from
      hsource.advanceBy _).offset_of_rest hrest
    exact ⟨hgap, fun h => absurd rfl h, fun _ => ⟨hend, hend⟩⟩
  | lexeme hphase hopening hlexeme hkind =>
    obtain ⟨hrest, hpos⟩ := (Lexeme.recognized_of_ok hlexeme).length_pos hkind
    exact ⟨hgap, fun _ => ⟨tokenOf_nonempty _ hrest hpos, rfl⟩, fun h => absurd h hkind⟩

/-- What the tokens of a scanner take: gaps, and their texts. -/
theorem Reads.gaps {source : List Char} {scanner : Scanner} {tokens : List Token}
    (h : Reads scanner tokens) (hsource : scanner.cursor.StandsIn source) :
    (∀ token ∈ tokens.head?, LeavesGap source scanner.cursor.offset token.span.start) ∧
      (tokens.IsChain fun token next => LeavesGap source token.span.stop next.span.start) ∧
      (∀ token ∈ tokens, token.kind ≠ .eof → token.span.start < token.span.stop) ∧
      ∀ token ∈ tokens, token.kind = .eof →
        token.span.start = byteCount source ∧ token.span.stop = byteCount source := by
  induction h with
  | last hread hkind =>
    have hsteps := (readAs_of_read hread).gap hsource
    refine ⟨?_, .singleton _, ?_, ?_⟩
    · rintro _ ⟨⟩
      exact hsteps.gap
    · rw [List.forall_mem_singleton]
      exact fun h => absurd hkind h
    · rw [List.forall_mem_singleton]
      exact hsteps.ending
  | @more scanner token behind tokens hread hkind htokens ih =>
    have hsteps := (readAs_of_read hread).gap hsource
    obtain ⟨hfirst, hchain, hnonempty, hending⟩ := ih ((readAs_of_read hread).standsIn hsource).2
    obtain ⟨hpos, hbehind⟩ := hsteps.behind hkind
    refine ⟨?_, ?_, ?_, ?_⟩
    · rintro _ ⟨⟩
      exact hsteps.gap
    · cases tokens with
      | nil => exact .singleton _
      | cons next tokens =>
        have hnext := hfirst next rfl
        rw [hbehind] at hnext
        exact .cons_cons hnext hchain
    · rw [List.forall_mem_cons]
      exact ⟨fun _ => hpos, hnonempty⟩
    · rw [List.forall_mem_cons]
      exact ⟨fun h => absurd h hkind, hending⟩

end Scanner

theorem LeavesGap.le {source : List Char} {start stop : Nat} (h : LeavesGap source start stop) :
    start ≤ stop := by
  obtain ⟨front, gap, back, -, rfl, rfl, -⟩ := h
  rw [byteCount_append]
  exact Nat.le_add_right _ _

theorem Span.Covers.le {source : List Char} {span : Span} {text : List Char}
    (h : span.Covers source text) : span.start ≤ span.stop := by
  obtain ⟨front, back, -, hstart, hstop⟩ := h
  rw [hstart, hstop, byteCount_append]
  exact Nat.le_add_right _ _

/-- Tokens with gaps between them are in order. -/
theorem pairwise_of_gaps {source : List Char} {tokens : List Token}
    (hcovers : ∀ token ∈ tokens, token.span.Covers source token.text.toList)
    (h : tokens.IsChain fun token next => LeavesGap source token.span.stop next.span.start) :
    tokens.Pairwise fun token later => token.span.stop ≤ later.span.start := by
  induction tokens with
  | nil => exact .nil
  | cons token rest ih =>
    rw [List.forall_mem_cons] at hcovers
    have hrest := ih hcovers.2 h.tail
    refine List.pairwise_cons.mpr ⟨?_, hrest⟩
    cases rest with
    | nil => simp
    | cons next others =>
      -- What is behind the next token starts behind its end, and so behind its start.
      have hnext : token.span.stop ≤ next.span.start := (h.rel).le
      have hpos : next.span.start ≤ next.span.stop := (hcovers.2 next List.mem_cons_self).le
      rw [List.forall_mem_cons]
      refine ⟨hnext, fun later hlater => ?_⟩
      have := (List.pairwise_cons.mp hrest).1 later hlater
      omega

/-- The tokens of a source and the gaps between them are the source. -/
theorem lossless_of_tokenize {source : String} {tokens : List Token}
    (h : tokenize source = .ok tokens) : Lossless source.toList tokens := by
  have hreads := Scanner.reads_of_tokenize h
  have hcovers : ∀ token ∈ tokens, token.span.Covers source.toList token.text.toList :=
    fun token htoken => (standsIn_of_tokenize h token htoken).covers
  obtain ⟨hleading, hgaps, hnonempty, hending⟩ :=
    hreads.gaps (Cursor.standsIn_ofSource source.toList)
  obtain ⟨others, stop, rfl, hstop, hothers⟩ := hreads.eof
  refine ⟨hcovers, pairwise_of_gaps hcovers hgaps, hnonempty, ?_, hgaps, ?_⟩
  · exact ⟨others, stop, rfl, hothers, hstop, hending stop (by simp) hstop⟩
  · rw [← Cursor.offset_ofSource]
    exact hleading

/-- Between a word and a string there are a space, a continuation and a space. -/
theorem lossless_of_tokenize_continuation :
    Lossless "\ufeffp \\\t\n \"é\"".toList
      [⟨.identifier, "p", ⟨3, 4, 1, 1⟩⟩, ⟨.string, "\"é\"", ⟨9, 13, 2, 2⟩⟩,
        ⟨.eof, "", ⟨13, 13, 2, 5⟩⟩] :=
  lossless_of_tokenize (by decide +kernel)

end PipelineLang
