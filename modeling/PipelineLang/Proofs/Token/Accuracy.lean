import PipelineLang.Proofs.Source.Accuracy
import PipelineLang.Proofs.Token.Format
import PipelineLang.Proofs.Token.Reading
import PipelineLang.Token.Format

/-!
# Where tokens and errors are

## Main definitions

- `LexicalFault.IsOrdered` — a fault does not end before it starts
- `Token.IsPlaced` — a token says where its text is
- `Scanner.after` — a scanner behind a number of tokens and errors

## Main results

- `Lexeme.orders_recognize` — the faults of a text are ordered
- `Scanner.isPlaced_read` — one token or error, and the scanner behind it
- `Scanner.isPlaced_after` — any number of them
- `Token.IsPlaced.formatPieces` — so are the pieces of a format string

## Design notes

The text of a format string is read again, from a cursor that starts where the token
starts. Such a cursor knows its place as one that has come along the whole source does,
so nothing is said about how deep format strings lie within each other.
-/

namespace PipelineLang

/-- A fault does not end before it starts. -/
def LexicalFault.IsOrdered (fault : LexicalFault) : Prop := fault.start ≤ fault.stop

/-- The faults of a result are ordered. -/
def Orders {α : Type} (result : Except LexicalFault α) : Prop :=
  ∀ fault, result = .error fault → fault.IsOrdered

theorem orders_error {α : Type} {fault : LexicalFault} (h : fault.IsOrdered) :
    Orders (.error fault : Except LexicalFault α) := by
  rintro _ ⟨⟩
  exact h

theorem orders_ok {α : Type} (a : α) : Orders (.ok a) := by
  rintro _ ⟨⟩

theorem Orders.map {α β : Type} {result : Except LexicalFault α} (h : Orders result)
    (f : α → β) : Orders (result.map f) := by
  cases result with
  | error fault => exact orders_error (h fault rfl)
  | ok a => exact orders_ok _

theorem LexicalFault.IsOrdered.shift {fault : LexicalFault} (h : fault.IsOrdered) (n : Nat) :
    (fault.shift n).IsOrdered := Nat.add_le_add_left h n

namespace Lexeme

theorem orders_ofQuoted (before : Before) (lead : Nat) (text : List Char) :
    Orders (ofQuoted before lead text) := by
  rw [ofQuoted]
  split
  · exact orders_error (Nat.zero_le _)
  · refine walk_induction (fun _ _ => orders_error (Nat.zero_le _)) ?_ _ _ _ _
    intro position state ahead result h
    unfold ofQuoted.stop at h
    repeat' split at h
    all_goals simp only [Stride.done.injEq, reduceCtorEq] at h
    all_goals subst h
    · exact orders_error (Nat.zero_le _)
    · exact orders_error (Nat.le_add_right _ _)
    · exact orders_ok _

theorem orders_ofRaw (before : Before) (lead : Nat) (text : List Char) :
    Orders (ofRaw before lead text) := by
  unfold ofRaw
  dsimp only
  split
  · exact orders_error (Nat.zero_le _)
  · refine walk_induction (fun _ _ => orders_error (Nat.zero_le _)) ?_ _ _ _ _
    intro position state ahead result h
    unfold ofRaw.stop at h
    repeat' split at h
    all_goals simp only [Stride.done.injEq, reduceCtorEq] at h
    all_goals subst h
    · exact orders_error (Nat.zero_le _)
    · exact orders_ok _

theorem orders_ofBlockComment (before : Before) (text : List Char) :
    Orders (ofBlockComment before text) := by
  refine walk_induction (fun _ _ => orders_error (Nat.zero_le _)) ?_ _ _ _ _
  intro position state ahead result h
  unfold ofBlockComment.stop at h
  split at h
  all_goals simp only [Stride.done.injEq, reduceCtorEq] at h
  subst h
  exact orders_ok _

end Lexeme

theorem FormatBody.orders_read
    {replacement : Option TokenKind → List Char → Except LexicalFault Replacement}
    (hreplacement : ∀ previous text, Orders (replacement previous text)) (before : Before)
    (text : List Char) : Orders (FormatBody.read replacement before text) := by
  refine walk_induction (P := Orders) (fun _ _ => orders_error (Nat.zero_le _)) ?_ _ _ _ _
  intro position state ahead result h
  unfold FormatBody.read.stop at h
  split at h
  · obtain rfl := Stride.done.inj h
    exact orders_error (Nat.zero_le _)
  · dsimp only at h
    split at h
    · obtain rfl := Stride.done.inj h
      exact orders_ok _
    split at h
    · split at h
      · next fault hfault =>
        obtain rfl := Stride.done.inj h
        exact orders_error ((hreplacement _ _ fault hfault).shift position)
      · simp at h
    split at h
    · split at h
      · simp at h
      · obtain rfl := Stride.done.inj h
        exact orders_error (Nat.le_add_right _ _)
    split at h
    all_goals simp at h

theorem Replacement.orders_read {token : Before → List Char → Except LexicalFault Lexeme}
    (htoken : ∀ before text, Orders (token before text)) (text : List Char) :
    Orders (Replacement.read token text) := by
  have hfinish : ∀ position state, Orders (read.finish position state) :=
    fun _ _ => orders_error (Nat.zero_le _)
  refine walk_induction (P := Orders) hfinish ?_ _ _ _ _
  intro position state ahead result h
  cases hresult : token (state.before.pass (Gap.length ahead) ahead)
      (ahead.drop (Gap.length ahead)) with
  | error fault =>
    rw [stop_error hresult] at h
    obtain rfl := Stride.done.inj h
    exact orders_error ((htoken _ _ fault hresult).shift _)
  | ok lexeme =>
    obtain ⟨kind, length⟩ := lexeme
    by_cases hkind : kind = .eof
    · subst hkind
      rw [stop_eof hresult] at h
      obtain rfl := Stride.done.inj h
      exact hfinish _ _
    · rw [stop_eq hresult hkind] at h
      split at h
      · obtain rfl := Stride.done.inj h
        exact orders_ok _
      · simp at h

namespace Lexeme

theorem orders_recognizeWith
    {replacement : Option TokenKind → List Char → Except LexicalFault Replacement}
    (hreplacement : ∀ previous text, Orders (replacement previous text)) (before : Before)
    (text : List Char) : Orders (recognizeWith replacement before text) := by
  unfold recognizeWith
  split
  · exact orders_ok _
  · exact orders_ok _
  · exact orders_ok _
  · exact orders_ofBlockComment _ _
  · exact orders_ofQuoted _ _ _
  · exact orders_ofQuoted _ _ _
  · dsimp only
    split
    · exact orders_ofQuoted _ _ _
    split
    · exact orders_ofRaw _ _ _
    split
    · exact orders_ofRaw _ _ _
    split
    · exact (FormatBody.orders_read hreplacement _ _).map _
    split
    · split
      · exact orders_error (Nat.zero_le _)
      · exact orders_ok _
    split
    · exact orders_ok _
    split
    · exact orders_ok _
    split
    · exact orders_ok _
    split
    · exact orders_ok _
    · exact orders_error (Nat.zero_le _)

theorem orders_replacement (levels : Nat) (previous : Option TokenKind) (text : List Char) :
    Orders (replacement levels previous text) := by
  induction levels generalizing previous text with
  | zero => exact orders_error (Nat.zero_le _)
  | succ levels ih =>
    exact Replacement.orders_read (fun before text => orders_recognizeWith ih before text) text

/-- The faults of a text are ordered. -/
theorem orders_recognize (before : Before) (text : List Char) :
    Orders (recognize before text) :=
  orders_recognizeWith (orders_replacement mostLevels) before text

end Lexeme

/-! ### Scanners -/

/-- A token says where its text is, and reading its text from there leads to right places. -/
structure Token.IsPlaced (source : List Char) (token : Token) : Prop where
  accurate : token.span.IsAccurate source
  within : (Cursor.within token.text.toList token.span).IsPlaced source

namespace Scanner

variable {source : List Char} {scanner : Scanner}

theorem isPlaced_tokenOf (h : scanner.cursor.IsPlaced source) (kind : TokenKind) (length : Nat) :
    (scanner.tokenOf kind length).IsPlaced source := by
  refine ⟨h.spanBetween (Nat.zero_le _), ?_⟩
  rw [tokenOf, String.toList_ofList]
  exact Cursor.isPlaced_within h (Nat.zero_le length)

/-- A token or an error says where it is. -/
def Tells (source : List Char) : Except LexicalError Token → Prop
  | .ok token => token.IsPlaced source
  | .error error => error.span.IsAccurate source

theorem isPlaced_readFrontmatter (h : scanner.cursor.IsPlaced source) :
    scanner.readFrontmatter.1.IsPlaced source ∧
      scanner.readFrontmatter.2.cursor.IsPlaced source := by
  unfold readFrontmatter
  split
  · exact ⟨isPlaced_tokenOf h _ _, h⟩
  · split
    · exact ⟨isPlaced_tokenOf h _ _, h.advanceBy _⟩
    · exact ⟨isPlaced_tokenOf h _ _, h.advanceBy _⟩

/-- The next token or error says where it is, and the scanner behind it knows its place. -/
theorem isPlaced_read (h : scanner.cursor.IsPlaced source) :
    Tells source scanner.read.1 ∧ scanner.read.2.cursor.IsPlaced source := by
  have hgap : scanner.passGap.cursor.IsPlaced source := h.advanceBy _
  unfold read
  split
  · exact isPlaced_readFrontmatter h
  · dsimp only
    split
    · exact ⟨isPlaced_tokenOf hgap _ _, hgap.advanceBy _⟩
    · unfold readProgram
      split
      · exact ⟨isPlaced_tokenOf hgap _ _, hgap⟩
      · exact ⟨isPlaced_tokenOf hgap _ _, hgap.advanceBy _⟩
      · next fault hfault =>
        exact ⟨hgap.spanBetween (Lexeme.orders_recognize _ _ fault hfault), hgap.advanceBy _⟩

/-- A scanner behind the next `count` tokens and errors. -/
def after : (count : Nat) → Scanner → Scanner
  | 0, scanner => scanner
  | count + 1, scanner => after count scanner.read.2

theorem isPlaced_after (h : scanner.cursor.IsPlaced source) (count : Nat) :
    (scanner.after count).cursor.IsPlaced source := by
  induction count generalizing scanner with
  | zero => exact h
  | succ count ih => exact ih (isPlaced_read h).2

theorem isPlaced_ofSource (source : List Char) : (ofSource source).cursor.IsPlaced source :=
  Cursor.isPlaced_ofSource source

theorem isPlaced_ofOffset (source : List Char) (offset : Nat) :
    (ofOffset source offset).cursor.IsPlaced source := by
  unfold ofOffset
  split
  · exact isPlaced_ofSource source
  · exact Cursor.isPlaced_ofOffset source offset

theorem isPlaced_tokensUpTo (h : scanner.cursor.IsPlaced source) (fuel : Nat) :
    (∀ token ∈ (tokensUpTo fuel scanner).1, token.IsPlaced source) ∧
      ∀ error ∈ (tokensUpTo fuel scanner).2, error.span.IsAccurate source := by
  induction fuel generalizing scanner with
  | zero => simp [tokensUpTo]
  | succ fuel ih =>
    obtain ⟨hfirst, hbehind⟩ := isPlaced_read h
    rw [tokensUpTo, next?]
    split
    · simp
    · next error behind hnext =>
      split at hnext
      · simp at hnext
      · simp only [Prod.mk.injEq, Option.some.injEq] at hnext
        rw [hnext.1] at hfirst
        refine ⟨by simp, ?_⟩
        rintro _ ⟨⟩
        exact hfirst
    · next token behind hnext =>
      split at hnext
      · simp at hnext
      · simp only [Prod.mk.injEq, Option.some.injEq] at hnext
        obtain ⟨hfound, rfl⟩ := hnext
        rw [hfound] at hfirst
        have hfollowing : ({ scanner.read.2 with finished := isLast scanner.read.1 } :
            Scanner).cursor.IsPlaced source := hbehind
        obtain ⟨htokens, herror⟩ := ih hfollowing
        exact ⟨List.forall_mem_cons.mpr ⟨hfirst, htokens⟩, herror⟩

/-- All tokens from a scanner on say where they are, and so does the error that ends them. -/
theorem isPlaced_tokens (h : scanner.cursor.IsPlaced source) :
    (∀ token ∈ scanner.tokens.1, token.IsPlaced source) ∧
      ∀ error ∈ scanner.tokens.2, error.span.IsAccurate source :=
  isPlaced_tokensUpTo h _

theorem isPlaced_tokens? (h : scanner.cursor.IsPlaced source) :
    (∀ tokens, scanner.tokens? = .ok tokens → ∀ token ∈ tokens, token.IsPlaced source) ∧
      ∀ error, scanner.tokens? = .error error → error.span.IsAccurate source := by
  obtain ⟨htokens, herror⟩ := isPlaced_tokens h
  rw [tokens?]
  split
  · next found hfound =>
    rw [hfound] at htokens
    refine ⟨?_, by simp⟩
    rintro _ ⟨⟩
    exact htokens
  · next error hfound =>
    rw [hfound] at herror
    refine ⟨by simp, ?_⟩
    rintro _ ⟨⟩
    exact herror error rfl

end Scanner

/-! ### The pieces of a format string -/

namespace FormatBody

variable {replacement : Option TokenKind → List Char → Except LexicalFault Replacement}
  {text : List Char} {before : Option TokenKind}

/-- A part ends behind its start, and what is between the braces of a replacement ends
behind the opening brace and before the end of the part. -/
def PartIsOrdered : FormatPart → Prop
  | .text start stop => start ≤ stop
  | .replacement start innerStop stop => start + 1 ≤ innerStop ∧ innerStop ≤ stop

theorem Parts.ordered {parts : List FormatPart} {previous : Option TokenKind} {position : Nat}
    (hbounds : ∀ ⦃previous text found⦄, replacement previous text = .ok found →
      1 ≤ found.innerStop)
    (h : Parts replacement text before parts previous position) :
    ∀ part ∈ parts, PartIsOrdered part := by
  induction h with
  | nil => simp
  | text hparts hlt _ _ ih => exact List.forall_mem_cons.mpr ⟨Nat.le_of_lt hlt, ih⟩
  | @replacement parts previous start found hparts hopening hfound ih =>
    have hpos := hbounds hfound
    refine List.forall_mem_cons.mpr ⟨⟨?_, ?_⟩, ih⟩
    · omega
    · rw [Replacement.length]
      omega

end FormatBody

/-- The place of a piece of a format string. -/
def FormatPiece.span : FormatPiece → Span
  | .text _ span => span
  | .replacement _ _ span => span

/-- A piece says where it is, and reading a replacement leads to right places. -/
structure FormatPiece.IsPlaced (source : List Char) (piece : FormatPiece) : Prop where
  accurate : piece.span.IsAccurate source
  within : ∀ inner innerSpan span, piece = .replacement inner innerSpan span →
    (Cursor.within inner innerSpan).IsPlaced source

theorem FormatPart.isPlaced_piece {source : List Char} {cursor : Cursor} {part : FormatPart}
    (h : cursor.IsPlaced source) (hordered : FormatBody.PartIsOrdered part) :
    (part.piece cursor).IsPlaced source := by
  cases part with
  | text start stop =>
    exact ⟨h.spanBetween hordered, by simp [piece]⟩
  | replacement start innerStop stop =>
    obtain ⟨hinner, hstop⟩ : start + 1 ≤ innerStop ∧ innerStop ≤ stop := hordered
    refine ⟨h.spanBetween (by omega : start ≤ stop), ?_⟩
    rintro inner innerSpan span hpiece
    rw [piece, FormatPiece.replacement.injEq] at hpiece
    obtain ⟨rfl, rfl, -⟩ := hpiece
    exact Cursor.isPlaced_within h hinner

/-- The pieces of a format string say where they are, and so does the error if its pieces
cannot be told apart. -/
theorem Token.IsPlaced.formatPieces {source : List Char} {token : Token}
    (h : token.IsPlaced source) :
    (∀ pieces, token.formatPieces = .ok pieces → ∀ piece ∈ pieces, piece.IsPlaced source) ∧
      ∀ error, token.formatPieces = .error error → error.span.IsAccurate source := by
  unfold Token.formatPieces
  dsimp only
  split
  · next body hbody =>
    refine ⟨?_, by simp⟩
    rintro _ ⟨⟩ piece hpiece
    obtain ⟨part, hpart, rfl⟩ := List.mem_map.mp hpiece
    obtain ⟨previous, hparts⟩ := (FormatBody.parts_of_read hbody).parts
    have hordered := hparts.ordered (fun _ _ _ hfound => (Lexeme.replacement_bounds hfound).1)
    exact FormatPart.isPlaced_piece h.within (hordered part (List.mem_reverse.mpr hpart))
  · next fault hfault =>
    refine ⟨by simp, ?_⟩
    rintro _ ⟨⟩
    exact h.within.spanBetween
      (FormatBody.orders_read (Lexeme.orders_replacement _) _ _ fault hfault)

end PipelineLang
