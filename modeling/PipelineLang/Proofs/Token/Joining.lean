import PipelineLang.Proofs.Token.Extent
import PipelineLang.Proofs.Token.Moved
import PipelineLang.Proofs.Token.Rereading

/-!
# Lines that are put behind a source

The tokens of a source do not depend on the lines behind it, and the tokens of these lines do
not depend on the source before them, apart from where they stand. Frontmatter is the
exception: it opens at the head of a source only, and the line that opens it has an end.

## Main definitions

- `Shift.past` — from the start of a source to the line behind a text
- `firstToken?` — the first token that is neither a line end nor a comment
- `Scanner.Leads` — a scanner does what another one does, and goes on behind its text

## Main results

- `Scanner.Leads.read` — both read the same token
- `Scanner.Leads.reads`, `Scanner.Leads.reads_line` — and the same tokens, up to the end or to
  the line behind it
- `Scanner.tokens?_joined` — the tokens of a source and of the lines behind it
-/

namespace PipelineLang

/-- From the start of a source to the line behind `text`. -/
def Shift.past (text : List Char) : Shift := ⟨byteCount text + 1, 1 + text.count '\n'⟩

/-- The first of some tokens that is neither a line end nor a comment. -/
def firstToken? (tokens : List Token) : Option Token :=
  tokens.find? fun token => !([TokenKind.newline, .comment].contains token.kind)

theorem firstToken?_cons_of_trivial {token : Token} {tokens : List Token}
    (h : token.kind ∈ [TokenKind.newline, .comment]) :
    firstToken? (token :: tokens) = firstToken? tokens :=
  List.find?_cons_of_neg (by simpa [or_iff_not_imp_left] using h)

namespace Cursor

/-- Where a cursor is placed, the text that it has passed leads. -/
theorem leadsTo_of_rest {source passed : List Char} {here : Cursor} (hplaced : here.IsPlaced source)
    (hstands : here.StandsIn source) (hsource : source = passed ++ here.rest) :
    LeadsTo passed here.offset here.line here.column := by
  obtain ⟨passed', hsource', hoffset⟩ := hstands
  obtain rfl : passed' = passed := List.append_cancel_right (hsource'.symm.trans hsource)
  obtain ⟨other, beyond, hother, hleads, -⟩ := hplaced
  have hcount := charactersBefore_byteCount other (here.rest ++ beyond)
  rw [← hother, ← hleads.offset_eq, hoffset, hsource, charactersBefore_byteCount] at hcount
  obtain rfl := List.append_inj_left (hsource'.symm.trans hother) hcount
  exact hleads

theorem atLineStart_eq {here other : Cursor} (h : here.last = other.last) :
    here.atLineStart = other.atLineStart := by
  rw [atLineStart, atLineStart, h]

end Cursor

/-- A token that starts with a dash is a minus sign. -/
theorem Lexeme.recognize_dash {before : Before} {text : List Char} {lexeme : Lexeme}
    (h : recognize before ('-' :: text) = .ok lexeme) : lexeme.kind = .minus := by
  have hopen : IsOpen '-' text := ⟨by decide, by decide, fun h => absurd h (by decide)⟩
  have hpunctuation : ofPunctuation? ('-' :: text) = some ⟨.minus, 1⟩ := by
    simp [ofPunctuation?, punctuation]
  rw [recognize, recognizeWith_open hopen] at h
  simp only [recognizeOpen, hpunctuation] at h
  obtain rfl := Except.ok.inj (show Except.ok _ = Except.ok lexeme from h)
  rfl

namespace Scanner

variable {scanner longer behind : Scanner} {back tail : List Char} {token : Token}
  {tokens : List Token}

/-- A scanner does what another one does, and goes on behind its text with the text `back`. -/
structure Leads (back : List Char) (scanner longer : Scanner) : Prop where
  rest : longer.cursor.rest = scanner.cursor.rest ++ back
  place : scanner.cursor.IsPartOf longer.cursor
  before : scanner.before.Alike longer.before
  lineStart : scanner.cursor.atLineStart = longer.cursor.atLineStart
  outside : scanner.phase ≠ .frontmatter
  phase : longer.phase = .program ∨ longer.phase = scanner.phase

namespace Leads

section

variable (h : Leads back scanner longer)

include h

theorem outside_longer : longer.phase ≠ .frontmatter := by
  obtain hphase | hphase := h.phase
  · rw [hphase]
    decide
  · rw [hphase]
    exact h.outside

theorem tokenOf (kind : TokenKind) {length : Nat} (hle : length ≤ scanner.cursor.rest.length) :
    longer.tokenOf kind length = scanner.tokenOf kind length :=
  (h.place.token (show (Lexeme.mk kind length).length ≤ _ from hle)).symm

theorem pass {n : Nat} (hle : n ≤ scanner.cursor.rest.length) :
    Leads back (scanner.pass n) (longer.pass n) := by
  have hle' : n ≤ longer.cursor.rest.length := by
    rw [h.rest, List.length_append]
    omega
  refine ⟨?_, h.place.advanceBy hle, ?_, ?_, h.outside, h.phase⟩
  · rw [rest_pass, rest_pass, h.rest, List.drop_append_of_le_length hle]
  · rw [before_pass hle, before_pass hle', h.rest, Before.pass_append hle]
    exact h.before.pass _ _
  · obtain rfl | hpos := Nat.eq_zero_or_pos n
    · exact h.lineStart
    · refine Cursor.atLineStart_eq ?_
      show (scanner.cursor.advanceBy n).last = (longer.cursor.advanceBy n).last
      rw [Cursor.last_advanceBy hpos hle, Cursor.last_advanceBy hpos hle', h.rest,
        List.drop_append_of_le_length (by omega), List.drop_eq_getElem_cons (by omega)]
      rfl

theorem passGap (hback : Lined back)
    (hslash : scanner.passGap.cursor.rest.head? ≠ some '\\') :
    Leads back scanner.passGap longer.passGap := by
  rw [rest_passGap] at hslash
  have hgap : Gap.length longer.cursor.rest = Gap.length scanner.cursor.rest := by
    rw [h.rest, Gap.length_lined hback hslash]
  rw [Scanner.passGap, Scanner.passGap, hgap]
  exact h.pass (Gap.length_le _)

theorem passLexeme {lexeme : Lexeme} (hle : lexeme.length ≤ scanner.cursor.rest.length) :
    Leads back (scanner.passLexeme lexeme) (longer.passLexeme lexeme) := by
  have hpass := h.pass hle
  have hle' : lexeme.length ≤ longer.cursor.rest.length := by
    rw [h.rest, List.length_append]
    omega
  refine ⟨hpass.rest, hpass.place, ?_, hpass.lineStart, ?_, ?_⟩
  · rw [before_passLexeme hle, before_passLexeme hle', h.rest, Before.passToken_append hle]
    exact h.before.passToken _ _
  · show scanner.phaseBehind lexeme.kind ≠ .frontmatter
    unfold phaseBehind
    split
    · exact h.outside
    · decide
  · show longer.phaseBehind lexeme.kind = .program ∨
      longer.phaseBehind lexeme.kind = scanner.phaseBehind lexeme.kind
    unfold phaseBehind
    split
    · exact h.phase
    · exact .inl rfl

/-- No frontmatter opens where the other scanner reads a token. -/
theorem opening?_eq_none (hopening : scanner.opening? = none)
    (hdash : back = [] ∨ (scanner.phase = .start → longer.cursor.rest.head? ≠ some '-')) :
    longer.opening? = none := by
  obtain hphase | hphase := h.phase
  · exact opening?_of_phase (by rw [hphase]; decide)
  obtain rfl | hdash := hdash
  · have hrest := h.rest
    rw [List.append_nil] at hrest
    rwa [opening?, hphase, hrest, ← h.lineStart]
  by_cases hstart : scanner.phase = .start
  · exact opening?_of_head (hdash hstart)
  · exact opening?_of_phase (by rwa [hphase])

/-- Both scanners read the same token. -/
theorem read (hback : Lined back) (hread : scanner.read = (.ok token, behind))
    (hkind : token.kind ≠ .eof) (hopen : token.kind ≠ .frontmatterOpen)
    (hminus : back = [] ∨ (scanner.phase = .start → token.kind ≠ .minus)) :
    ∃ behind', longer.read = (.ok token, behind') ∧ Leads back behind behind' := by
  cases readAs_of_read hread with
  | frontmatterEnd hphase => exact absurd hphase h.outside
  | frontmatterClose hphase => exact absurd hphase h.outside
  | frontmatterBody hphase => exact absurd hphase h.outside
  | frontmatterOpen => exact absurd rfl hopen
  | eof => exact absurd rfl hkind
  | @lexeme lexeme hphase hopening hlexeme hkind =>
    have hrecognized := Lexeme.recognized_of_ok hlexeme
    have hne : scanner.passGap.cursor.rest ≠ [] := (hrecognized.length_pos hkind).1
    obtain ⟨c, rest, hrest⟩ := List.exists_cons_of_ne_nil hne
    have hgap : Leads back scanner.passGap longer.passGap := by
      refine h.passGap hback ?_
      rw [hrest, List.head?_cons]
      rintro ⟨⟩
      rw [hrest] at hlexeme
      exact Lexeme.recognizeWith_gap (by simp) hlexeme
    have hdash : back = [] ∨ (scanner.passGap.phase = .start →
        longer.passGap.cursor.rest.head? ≠ some '-') := by
      refine hminus.imp id fun hminus hstart => ?_
      rw [hgap.rest, hrest, List.cons_append, List.head?_cons]
      rintro ⟨⟩
      rw [hrest] at hlexeme
      exact hminus hstart (Lexeme.recognize_dash hlexeme)
    have hlexeme' := Lexeme.recognize_lined hgap.before hne hback hlexeme
    rw [← hgap.rest] at hlexeme'
    refine ⟨longer.passGap.passLexeme lexeme, ?_, hgap.passLexeme hrecognized.length_le⟩
    rw [read_of_opening? h.outside_longer (hgap.opening?_eq_none hopening hdash),
      readProgram_of_lexeme hlexeme' hkind, hgap.tokenOf _ hrecognized.length_le]

/-- Where one scanner reads the end, the other one is behind the same gap. -/
theorem passGap_of_eof (hback : Lined back) (hread : scanner.read = (.ok token, behind))
    (hkind : token.kind = .eof) : Leads back scanner.passGap longer.passGap ∧
      scanner.passGap.cursor.rest = [] ∧ token = scanner.passGap.tokenOf .eof 0 := by
  have hgap : scanner.passGap.cursor.rest = [] → Leads back scanner.passGap longer.passGap :=
    fun hnil => h.passGap hback (by simp [hnil])
  cases readAs_of_read hread with
  | frontmatterEnd hphase => exact absurd hphase h.outside
  | frontmatterClose hphase => exact absurd hphase h.outside
  | frontmatterBody hphase => exact absurd hphase h.outside
  | frontmatterOpen => cases hkind
  | eof hphase hopening hlexeme =>
    have hnil := (Lexeme.recognized_of_ok hlexeme).eq_nil rfl
    exact ⟨hgap hnil, hnil, rfl⟩
  | lexeme hphase hopening hlexeme hother => exact absurd hkind hother

end

/-- Where one scanner reads the end, the other one reads the end of a line. -/
theorem read_line (h : Leads ('\n' :: tail) scanner longer)
    (hread : scanner.read = (.ok token, behind)) (hkind : token.kind = .eof) :
    ∃ line next, longer.read = (.ok line, next) ∧ line.kind = .newline ∧
      next.cursor.rest = tail ∧ next.before = ⟨some .newline, some '\n'⟩ ∧
      (next.phase = .start ∨ next.phase = .program) := by
  obtain ⟨hgap, hnil, -⟩ := h.passGap_of_eof (lined_cons tail) hread hkind
  have hrest : longer.passGap.cursor.rest = '\n' :: tail := by
    rw [hgap.rest, hnil, List.nil_append]
  have hnewline : Lexeme.recognize longer.passGap.before longer.passGap.cursor.rest =
      .ok ⟨.newline, 1⟩ := by
    rw [hrest]
    rfl
  have hopening : longer.passGap.opening? = none :=
    opening?_of_head (by simp [hrest])
  have hbefore : (longer.passGap.passLexeme ⟨.newline, 1⟩).before =
      ⟨some .newline, some '\n'⟩ := by
    rw [before_passLexeme (by simp [hrest]), hrest]
    rfl
  refine ⟨longer.passGap.tokenOf .newline 1, longer.passGap.passLexeme ⟨.newline, 1⟩, ?_, rfl, ?_,
    hbefore, ?_⟩
  · rw [read_of_opening? h.outside_longer hopening, readProgram_of_lexeme hnewline (by simp)]
  · show (longer.passGap.pass 1).cursor.rest = tail
    rw [rest_pass, hrest]
    rfl
  · have houtside := h.outside_longer
    show longer.phase = .start ∨ longer.phase = .program
    cases hphase : longer.phase with
    | start => exact .inl rfl
    | program => exact .inr rfl
    | frontmatter => exact absurd hphase houtside

/-- Both scanners read the same tokens if they come to the end at the same place. -/
theorem reads (h : Leads [] scanner longer) (hreads : scanner.Reads tokens)
    (hplain : ∀ token ∈ tokens, token.kind ≠ .frontmatterOpen) : longer.Reads tokens := by
  induction hreads generalizing longer with
  | @last scanner token behind hread hkind =>
    obtain ⟨hgap, hnil, rfl⟩ := h.passGap_of_eof lined_nil hread hkind
    have hrest : longer.passGap.cursor.rest = [] := by
      rw [hgap.rest, hnil, List.append_nil]
    have hopening : longer.passGap.opening? = none := opening?_of_head (by simp [hrest])
    have hread' : longer.read = (.ok (scanner.passGap.tokenOf .eof 0), longer.passGap) := by
      rw [read_of_opening? h.outside_longer hopening, readProgram_of_nil hrest,
        hgap.tokenOf _ (Nat.zero_le _)]
    exact .last hread' rfl
  | more hread hkind _ ih =>
    rw [List.forall_mem_cons] at hplain
    obtain ⟨next, hread', hnext⟩ := h.read lined_nil hread hkind hplain.1 (.inl rfl)
    exact .more hread' hkind (ih hnext hplain.2)

end Leads

/-- A scanner at the head of the line `tail`, which is the last part of a source. -/
structure StartsLine (source tail : List Char) (scanner : Scanner) : Prop where
  rest : scanner.cursor.rest = tail
  before : scanner.before = ⟨some .newline, some '\n'⟩
  phase : scanner.phase = .start ∨ scanner.phase = .program
  placed : scanner.cursor.IsPlaced source
  stands : scanner.cursor.StandsIn source

/-- Only line ends and comments leave it open whether frontmatter comes. -/
theorem ReadAs.of_phase (h : ReadAs scanner token behind) (hkind : token.kind ≠ .eof)
    (hstart : behind.phase = .start) :
    scanner.phase = .start ∧ token.kind ∈ [TokenKind.newline, .comment] := by
  cases h with
  | frontmatterEnd | eof => exact absurd rfl hkind
  | frontmatterClose | frontmatterOpen => cases hstart
  | frontmatterBody hphase => exact absurd (hphase.symm.trans hstart) (by decide)
  | @lexeme lexeme =>
    have hbehind : scanner.passGap.phaseBehind lexeme.kind = .start := hstart
    unfold phaseBehind at hbehind
    split at hbehind
    · next hkind => exact ⟨hbehind, by simpa [tokenOf] using hkind⟩
    · cases hbehind

/-- Behind a token, a scanner still has its place in the source. -/
theorem place_of_read {source : List Char} (hread : scanner.read = (.ok token, behind))
    (hplaced : scanner.cursor.IsPlaced source) (hstands : scanner.cursor.StandsIn source) :
    behind.cursor.IsPlaced source ∧ behind.cursor.StandsIn source := by
  have hplaced' := (isPlaced_read hplaced).2
  rw [hread] at hplaced'
  exact ⟨hplaced', ((readAs_of_read hread).standsIn hstands).2⟩

/-- The tokens before the last line of a source are those of the text before it. -/
theorem Leads.reads_line {source : List Char} (h : Leads ('\n' :: tail) scanner longer)
    (hreads : scanner.Reads tokens) (hplain : ∀ token ∈ tokens, token.kind ≠ .frontmatterOpen)
    (hminus : scanner.phase = .start → ∀ token ∈ firstToken? tokens, token.kind ≠ .minus)
    (hplaced : longer.cursor.IsPlaced source) (hstands : longer.cursor.StandsIn source) :
    ∃ front stop line next, tokens = front ++ [stop] ∧ (∀ token ∈ front, token.kind ≠ .eof) ∧
      stop.kind = .eof ∧ line.kind = .newline ∧ StartsLine source tail next ∧
      ∀ others, next.Reads others → longer.Reads (front ++ line :: others) := by
  induction hreads generalizing longer with
  | @last scanner token behind hread hkind =>
    obtain ⟨line, next, hread', hline, hrest, hbefore, hphase⟩ := h.read_line hread hkind
    obtain ⟨hplaced', hstands'⟩ := place_of_read hread' hplaced hstands
    exact ⟨[], token, line, next, rfl, by simp, hkind, hline,
      ⟨hrest, hbefore, hphase, hplaced', hstands'⟩,
      fun others hothers => .more hread' (by rw [hline]; decide) hothers⟩
  | @more scanner token behind tokens hread hkind _ ih =>
    rw [List.forall_mem_cons] at hplain
    obtain ⟨longer', hread', hnext⟩ := h.read (lined_cons tail) hread hkind hplain.1
      (.inr fun hstart hdash => hminus hstart token (by simp [firstToken?, hdash]) hdash)
    obtain ⟨hplaced', hstands'⟩ := place_of_read hread' hplaced hstands
    have hminus' : behind.phase = .start → ∀ token ∈ firstToken? tokens, token.kind ≠ .minus := by
      intro hstart
      obtain ⟨hstart', htrivial⟩ := (readAs_of_read hread).of_phase hkind hstart
      rw [← firstToken?_cons_of_trivial htrivial]
      exact hminus hstart'
    obtain ⟨front, stop, line, next, rfl, hfront, hstop, hline, hnext, hothers⟩ :=
      ih hnext hplain.2 hminus' hplaced' hstands'
    exact ⟨token :: front, stop, line, next, rfl, List.forall_mem_cons.mpr ⟨hkind, hfront⟩, hstop,
      hline, hnext, fun others h => .more hread' hkind (hothers others h)⟩

/-- Frontmatter opens with the first token that is neither a line end nor a comment. -/
theorem Reads.firstToken?_of_open (h : Reads scanner tokens)
    (hopen : ∃ token ∈ tokens, token.kind = .frontmatterOpen) :
    scanner.phase = .start ∧ ∃ token ∈ firstToken? tokens, token.kind = .frontmatterOpen := by
  induction h with
  | last _ hkind => simp [hkind] at hopen
  | @more scanner token behind tokens hread hkind _ ih =>
    by_cases hhere : token.kind = .frontmatterOpen
    · refine ⟨?_, token, by simp [firstToken?, hhere], hhere⟩
      cases readAs_of_read hread with
      | frontmatterEnd | frontmatterClose | frontmatterBody | eof => cases hhere
      | frontmatterOpen _ hlength =>
        by_contra hphase
        have hnone : scanner.passGap.opening? = none := opening?_of_phase hphase
        rw [hnone] at hlength
        cases hlength
      | @lexeme lexeme _ _ hlexeme _ =>
        have hkind : lexeme.kind = .frontmatterOpen := hhere
        have hother := (Lexeme.recognized_of_ok hlexeme).dollar_or_other
        simp [hkind, Lexeme.unspelled] at hother
    · obtain ⟨other, hmem, hother⟩ := hopen
      have hmem' : other ∈ tokens :=
        (List.mem_cons.mp hmem).resolve_left fun hsame => hhere (hsame ▸ hother)
      obtain ⟨hstart, hfirst⟩ := ih ⟨other, hmem', hother⟩
      obtain ⟨hstart', htrivial⟩ := (readAs_of_read hread).of_phase hkind hstart
      refine ⟨hstart', ?_⟩
      rwa [firstToken?_cons_of_trivial htrivial]

/-! ### The heads of sources -/

theorem leads_ofSource (source tail : List Char) :
    Leads ('\n' :: tail) (ofSource source) (ofSource (source ++ '\n' :: tail)) := by
  have hhead : ∀ (text back : List Char) (offset : Nat), Leads back
      ⟨⟨text, offset, 1, 1, none⟩, .start, none, false⟩
      ⟨⟨text ++ back, offset, 1, 1, none⟩, .start, none, false⟩ := fun text back offset =>
    ⟨rfl, ⟨List.prefix_append _ _, rfl, rfl, rfl⟩, ⟨rfl, rfl, rfl⟩, rfl, by simp, .inr rfl⟩
  cases source with
  | nil => exact hhead [] _ 0
  | cons c source =>
    rw [List.cons_append, ofSource, ofSource, Cursor.ofSource, Cursor.ofSource]
    split
    · exact hhead source _ _
    · exact hhead (c :: source) _ 0

/-- A scanner that does what one further back does reads the same tokens, further on. -/
theorem Leads.reads_moved {shift : Shift} (h : Leads [] (moved shift (ofSource tail)) scanner)
    (htokens : (ofSource tail).tokens? = .ok tokens)
    (hplain : ∀ token ∈ tokens, token.kind ≠ .frontmatterOpen) :
    scanner.Reads (moved shift tokens) := by
  have hmoved : (moved shift (ofSource tail)).tokens? = .ok (moved shift tokens) := by
    rw [tokens?_moved, htokens]
    rfl
  exact h.reads (reads_of_tokens? rfl hmoved) (List.forall_mem_map.mpr hplain)

/-- What stands at the head of a line is read as if it stood alone, but for its place, where
nothing of a statement is before it. -/
theorem leads_behind {source : List Char} (hrest : scanner.cursor.rest = tail)
    (hlast : scanner.cursor.last = some '\n') (hbefore : Before.Alike ⟨none, none⟩ scanner.before)
    (hphase : scanner.phase = .start ∨ scanner.phase = .program)
    (hplaced : scanner.cursor.IsPlaced (source ++ '\n' :: tail))
    (hstands : scanner.cursor.StandsIn (source ++ '\n' :: tail))
    (hmark : tail.head? ≠ some Cursor.byteOrderMark) :
    Leads [] (moved (.past source) (ofSource tail)) scanner := by
  have hplace : LeadsTo (source ++ ['\n']) _ _ _ :=
    Cursor.leadsTo_of_rest hplaced hstands (by rw [hrest, List.append_assoc]; rfl)
  have hline : LeadsTo (source ++ ['\n']) (byteCount source + '\n'.utf8Size)
      (1 + source.count '\n' + 1) 1 := LeadsTo.lineFeed ⟨rfl, rfl, rfl⟩
  rw [ofSource_of_head hmark]
  refine ⟨by rw [hrest, List.append_nil]; rfl, ⟨?_, ?_, ?_, ?_⟩, hbefore, ?_, by simp, ?_⟩
  · rw [hrest]
    exact List.prefix_rfl
  · rw [hplace.offset_eq, ← hline.offset_eq]
    exact Nat.zero_add _
  · rw [hplace.line_eq, ← hline.line_eq]
    exact Nat.add_comm _ _
  · rw [hplace.column_eq, ← hline.column_eq]
    rfl
  · rw [Cursor.atLineStart, Cursor.atLineStart, hlast]
    rfl
  · exact hphase.symm.imp id fun hstart => hstart

/-- The last line of a source is read as if it stood alone, but for its place. -/
theorem StartsLine.leads {source : List Char}
    (h : StartsLine (source ++ '\n' :: tail) tail scanner)
    (hmark : tail.head? ≠ some Cursor.byteOrderMark) :
    Leads [] (moved (.past source) (ofSource tail)) scanner := by
  have hlast : scanner.cursor.last = some '\n' := congrArg Before.last h.before
  have hbefore : Before.Alike ⟨none, none⟩ scanner.before := by
    rw [h.before]
    exact ⟨rfl, rfl, rfl⟩
  exact leads_behind h.rest hlast hbefore h.phase h.placed h.stands hmark

/-- The tokens of a source with another one behind it, on a line of its own. -/
theorem tokens?_joined {source : List Char} {others : List Token}
    (hfirst : (ofSource source).tokens? = .ok tokens)
    (hplain : ∀ token ∈ firstToken? tokens, token.kind ∉ [TokenKind.frontmatterOpen, .minus])
    (hsecond : (ofSource tail).tokens? = .ok others)
    (hplain' : ∀ token ∈ others, token.kind ≠ .frontmatterOpen)
    (hmark : tail.head? ≠ some Cursor.byteOrderMark) :
    ∃ front stop line, tokens = front ++ [stop] ∧ (∀ token ∈ front, token.kind ≠ .eof) ∧
      stop.kind = .eof ∧ line.kind = .newline ∧
      (ofSource (source ++ '\n' :: tail)).tokens? =
        .ok (front ++ line :: moved (.past source) others) := by
  have hopen : ∀ token ∈ tokens, token.kind ≠ .frontmatterOpen := by
    intro token htoken hkind
    obtain ⟨-, token, hmem, hkind⟩ :=
      (reads_of_tokens? rfl hfirst).firstToken?_of_open ⟨token, htoken, hkind⟩
    exact hplain token hmem (by simp [hkind])
  obtain ⟨front, stop, line, next, htokens, hfront, hstop, hline, hnext, hothers⟩ :=
    (leads_ofSource source tail).reads_line (reads_of_tokens? rfl hfirst) hopen
      (fun _ token hmem hkind => hplain token hmem (by simp [hkind]))
      (Cursor.isPlaced_ofSource _) (Cursor.standsIn_ofSource _)
  have hreads := (hnext.leads hmark).reads_moved hsecond hplain'
  exact ⟨front, stop, line, htokens, hfront, hstop, hline,
    tokens?_of_reads rfl (hothers _ hreads)⟩

end Scanner

end PipelineLang
