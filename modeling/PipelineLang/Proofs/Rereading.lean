import PipelineLang.Proofs.Grammar.Accuracy
import PipelineLang.Proofs.Literal.Decoding
import PipelineLang.Proofs.Token.Rereading

/-!
# What has been read can be read again

Once the tokens of a source are found, their texts are read again: strings, subnets and
durations for their values, and format strings for their pieces and for the tokens in their
replacements.

## Main definitions

- `Scans` — what is recognised in a source when it is read for the first time
- `Token.IsRecognized` — the text of a token has been recognised

## Main results

- `Scans.exists_recognized` — all of it has been recognised, at some number of levels
- `Program.reads_again` — all of it can be read again, and the grammar never fails over it

## Design notes

The tokens that the grammar sees of a replacement come from a scanner of its own. They have
been recognised with all levels left, so nothing about the levels is asked of them.
-/

namespace PipelineLang

open Lexeme

/-- What is recognised in a source when it is read for the first time: by the scanner of the
source, with all levels left, and while the end of a replacement is looked for, with one level
less than the format string that it lies in. -/
inductive Scans (source : List Char) : (levels : Nat) → Cursor → Lexeme → Prop
  | outer {count scanner lexeme} (hscanner : (Scanner.ofSource source).after count = scanner)
    (hphase : scanner.phase ≠ .frontmatter) (hopening : scanner.passGap.opening? = none)
    (h : recognize scanner.passGap.before scanner.passGap.cursor.rest = .ok lexeme) :
    Scans source mostLevels scanner.passGap.cursor lexeme
  | inner {levels cursor before body start innerStop stop seen position lexeme}
    (hformat : Scans source (levels + 1) cursor ⟨.formatString, body.length⟩)
    (hbody : FormatBody.read (replacement (levels + 1)) before cursor.rest = .ok body)
    (hpart : .replacement start innerStop stop ∈ body.parts)
    (hseen : Replacement.Sees (recognizeWith (replacement levels)) (cursor.rest.drop start) 1
      (.opening (cursor.rest.drop start)) seen (innerStop - start))
    (hlexeme : (position, lexeme) ∈ seen) :
    Scans source levels (cursor.advanceBy (start + position)) lexeme

theorem Replacement.Sees.recognized {token : Before → List Char → Except LexicalFault Lexeme}
    {text : List Char} {start : Nat} {state : State} {seen : List (Nat × Lexeme)}
    {innerStop : Nat} (h : Sees token text start state seen innerStop) :
    ∀ entry ∈ seen, ∃ before, token before (text.drop entry.1) = .ok entry.2 := by
  induction h with
  | close => simp
  | token htoken _ _ _ ih => exact List.forall_mem_cons.mpr ⟨⟨_, htoken⟩, ih⟩

/-- What is recognised in a source has been recognised at the place of a cursor. -/
theorem Scans.exists_recognized {source : List Char} {levels : Nat} {cursor : Cursor}
    {lexeme : Lexeme} (h : Scans source levels cursor lexeme) :
    levels ≤ mostLevels ∧
      ∃ before, recognizeWith (replacement levels) before cursor.rest = .ok lexeme := by
  induction h with
  | outer _ _ _ h => exact ⟨Nat.le_refl _, _, h⟩
  | inner _ _ _ hseen hlexeme ih =>
    obtain ⟨before, hrecognized⟩ := hseen.recognized _ hlexeme
    rw [List.drop_drop, ← Cursor.rest_advanceBy] at hrecognized
    exact ⟨Nat.le_of_succ_le ih.1, before, hrecognized⟩

/-- The kinds of token whose text is read again by the grammar and may make it fail. -/
def readAgain : List TokenKind := .formatString :: decoded

/-! ### The tokens of scanners -/

/-- The text of a token has been recognised, if it is read again. -/
def Token.IsRecognized (token : Token) : Prop :=
  token.kind ∈ readAgain → ∃ before rest lexeme, recognize before rest = .ok lexeme ∧
    token.kind = lexeme.kind ∧ token.text.toList = rest.take lexeme.length

namespace Scanner

theorem after_succ (count : Nat) (scanner : Scanner) :
    after (count + 1) scanner = (after count scanner).read.2 := by
  induction count generalizing scanner with
  | zero => rfl
  | succ count ih => exact ih scanner.read.2

/-- A token that is read again has been read outside frontmatter. -/
theorem ReadAs.outer {scanner behind : Scanner} {token : Token} (h : ReadAs scanner token behind)
    (hkind : token.kind ∈ readAgain) :
    ∃ lexeme, scanner.phase ≠ .frontmatter ∧ scanner.passGap.opening? = none ∧
      recognize scanner.passGap.before scanner.passGap.cursor.rest = .ok lexeme ∧
      token = scanner.passGap.cursor.token lexeme := by
  cases h with
  | frontmatterEnd | frontmatterClose | frontmatterBody | frontmatterOpen | eof =>
    exact absurd hkind (by simp [tokenOf, readAgain, decoded])
  | @lexeme lexeme hphase hopening hlexeme _ => exact ⟨lexeme, hphase, hopening, hlexeme, rfl⟩

theorem Reads.isRecognized {scanner : Scanner} {tokens : List Token} (h : Reads scanner tokens) :
    ∀ token ∈ tokens, token.IsRecognized := by
  refine h.forall_of_readAs fun h hkind => ?_
  obtain ⟨lexeme, -, -, hlexeme, rfl⟩ := h.outer hkind
  exact ⟨_, _, lexeme, hlexeme, rfl, String.toList_ofList⟩

theorem Reads.scans {source : List Char} {scanner : Scanner} {tokens : List Token}
    (h : Reads scanner tokens) (count : Nat) (hscanner : (ofSource source).after count = scanner) :
    ∀ token ∈ tokens, token.kind ∈ readAgain →
      ∃ cursor lexeme, Scans source mostLevels cursor lexeme ∧ token = cursor.token lexeme := by
  have hread : ∀ {count : Nat} {scanner behind : Scanner} {token : Token},
      (ofSource source).after count = scanner → scanner.read = (.ok token, behind) →
      token.kind ∈ readAgain →
      ∃ cursor lexeme, Scans source mostLevels cursor lexeme ∧ token = cursor.token lexeme := by
    intro count scanner behind token hscanner hread hkind
    obtain ⟨lexeme, hphase, hopening, hlexeme, rfl⟩ := (readAs_of_read hread).outer hkind
    exact ⟨_, lexeme, .outer hscanner hphase hopening hlexeme, rfl⟩
  induction h generalizing count with
  | last h _ => exact List.forall_mem_singleton.mpr (hread hscanner h)
  | more h _ _ ih =>
    refine List.forall_mem_cons.mpr ⟨hread hscanner h, ih (count + 1) ?_⟩
    rw [after_succ, hscanner, h]

end Scanner

/-! ### What the grammar reads again -/

namespace Token.IsRecognized

variable {token : Token}

/-- The pieces of a format string can be told apart, and their replacements can be read. -/
theorem formatPieces (h : token.IsRecognized) (hkind : token.kind = .formatString) :
    ∃ pieces, token.formatPieces = .ok pieces ∧ ∀ inner innerSpan span,
      .replacement inner innerSpan span ∈ pieces →
      ∃ tokens, (Scanner.within inner innerSpan).tokens? = .ok tokens := by
  obtain ⟨before, rest, lexeme, hlexeme, hsame, htext⟩ := h (by simp [hkind, readAgain])
  obtain ⟨body, hbody, hlength⟩ :=
    formatBody_of_recognized (recognized_of_ok hlexeme) (hsame.symm.trans hkind)
  rw [hlength] at htext
  have hplace : (Cursor.within token.text.toList token.span).IsPartOf
      (Cursor.within rest token.span) := by
    refine ⟨?_, rfl, rfl, rfl⟩
    rw [htext]
    exact List.take_prefix _ _
  obtain ⟨hpieces, hreread⟩ := Token.rereads (Nat.le_refl _) hbody htext hplace
  refine ⟨_, hpieces, fun inner innerSpan span hmem => ?_⟩
  obtain ⟨part, hpart, hpiece⟩ := List.mem_map.mp hmem
  cases part with
  | text => simp [FormatPart.piece] at hpiece
  | replacement start innerStop stop =>
    rw [FormatPart.piece, FormatPiece.replacement.injEq] at hpiece
    obtain ⟨rfl, rfl, -⟩ := hpiece
    obtain ⟨_, _, -, -, htokens⟩ := hreread _ hpart
    exact ⟨_, htokens⟩

/-- A literal has a value. -/
theorem exists_value (h : token.IsRecognized) (hliteral : token.kind.isLiteral)
    (hkind : token.kind ≠ .formatString) :
    ∃ value, Literal.ofText? token.kind token.text = some value := by
  by_cases hdecoded : token.kind ∈ decoded
  · obtain ⟨before, rest, lexeme, hlexeme, hsame, htext⟩ :=
      h (List.mem_cons_of_mem _ hdecoded)
    rw [hsame] at hdecoded
    obtain ⟨value, hvalue⟩ := Lexeme.exists_value hlexeme hdecoded
    rw [← hsame, ← htext, String.ofList_toList] at hvalue
    exact ⟨value, hvalue⟩
  · cases hk : token.kind <;>
      simp [hk, TokenKind.isLiteral, decoded, Literal.ofText?] at hliteral hkind hdecoded ⊢

end Token.IsRecognized

/-- The errors of the grammar that are not about texts that are read again. -/
def SyntaxError.IsAboutTokens (error : SyntaxError) : Prop :=
  (∀ text, error.cause ≠ .invalidLiteral text) ∧ error.cause ≠ .malformedFormat

open Grammar in
theorem reports_isAboutTokens : Reports Token.IsRecognized SyntaxError.IsAboutTokens where
  unexpected _ _ _ := ⟨nofun, nofun⟩
  unclosed _ _ _ _ := ⟨nofun, nofun⟩
  nesting _ _ _ := ⟨nofun, nofun⟩
  literal token _ h _ hliteral hkind hnone := by
    obtain ⟨value, hvalue⟩ := h.exists_value hliteral hkind
    rw [hnone] at hvalue
    simp at hvalue
  key token _ h _ hkind hnone := by
    obtain ⟨value, hvalue⟩ := h.exists_value (by rw [hkind]; rfl) (by rw [hkind]; decide)
    simp [hkind, Literal.ofText?, hnone] at hvalue
  format token _ error h _ hkind herror := by
    obtain ⟨pieces, hpieces, -⟩ := h.formatPieces hkind
    rw [herror] at hpieces
    simp at hpieces
  inner token pieces inner innerSpan span h hkind hpieces hmem := by
    obtain ⟨pieces', hpieces', hinner⟩ := h.formatPieces hkind
    rw [hpieces] at hpieces'
    obtain rfl := Except.ok.inj hpieces'
    obtain ⟨tokens, htokens⟩ := hinner _ _ _ hmem
    refine ⟨fun next error _ herror => ?_, fun tokens htokens => ?_⟩
    · rw [htokens] at herror
      simp at herror
    · have hreads := Scanner.reads_of_tokens? rfl htokens
      exact TokenStream.holds_ofTokens hreads hreads.isRecognized

/-- Whatever has been recognised in a source can be read again. A source is never refused
because of a literal or a format string; each string, subnet and duration has a value; and each
format string, however deep it lies in others, is cut into the pieces that its end has been
found by, with the tokens in its replacements that have been seen then. -/
theorem Program.reads_again (limit : Nat) (source : String) :
    (∀ rejection, ofSource limit source = .error (.rejected rejection) →
      (∀ text, rejection.error.cause ≠ .invalidLiteral text) ∧
        rejection.error.cause ≠ .malformedFormat) ∧
    (∀ tokens, tokenize source = .ok tokens → ∀ token ∈ tokens,
      token.kind ∈ [.string, .subnet, .duration, .formatString] →
      ∃ cursor lexeme, Scans source.toList mostLevels cursor lexeme ∧
        token = cursor.token lexeme) ∧
    ∀ levels cursor lexeme, Scans source.toList levels cursor lexeme →
      (lexeme.kind ∈ [.string, .subnet, .duration] →
        ∃ value, Literal.ofText? lexeme.kind (cursor.token lexeme).text = some value) ∧
      (lexeme.kind = .formatString → ∃ before body,
        FormatBody.read (replacement levels) before cursor.rest = .ok body ∧
        lexeme.length = body.length ∧
        (cursor.token lexeme).formatPieces = .ok (body.parts.map (·.piece cursor)) ∧
        ∀ part ∈ body.parts, part.IsReread levels cursor) := by
  refine ⟨fun rejection h => ?_, fun tokens h token htoken hkind => ?_,
    fun levels cursor lexeme h => ?_⟩
  · rw [ofSource] at h
    cases htokens : tokenize source with
    | error error => simp [htokens] at h
    | ok tokens =>
      rw [htokens] at h
      dsimp only at h
      cases hparse : ofTokens limit tokens with
      | ok program => simp [hparse] at h
      | error rejected =>
        rw [hparse] at h
        obtain rfl := SourceError.rejected.inj (Except.error.inj h)
        have hreads := Scanner.reads_of_tokenize htokens
        exact error_of_ofTokens reports_isAboutTokens
          (TokenStream.holds_ofTokens hreads hreads.isRecognized) hparse
  · have hagain : token.kind ∈ readAgain := by
      simp only [readAgain, decoded, List.mem_cons] at hkind ⊢
      tauto
    exact (Scanner.reads_of_tokenize h).scans 0 rfl token htoken hagain
  · obtain ⟨hlevels, before, hlexeme⟩ := h.exists_recognized
    refine ⟨fun hkind => Lexeme.exists_value hlexeme hkind, fun hkind => ?_⟩
    obtain ⟨body, hbody, hlength⟩ := formatBody_of_recognized (recognized_of_ok hlexeme) hkind
    have htext : (cursor.token lexeme).text.toList = cursor.rest.take body.length := by
      rw [Cursor.token, String.toList_ofList, hlength]
    have hplace : (Cursor.within (cursor.token lexeme).text.toList
        (cursor.token lexeme).span).IsPartOf cursor := by
      refine ⟨?_, rfl, rfl, rfl⟩
      rw [htext]
      exact List.take_prefix _ _
    obtain ⟨hpieces, hreread⟩ := Token.rereads hlevels hbody htext hplace
    exact ⟨before, body, hbody, hlength, hpieces, hreread⟩

end PipelineLang
