import PipelineLang.Proofs.Token.Accuracy
import PipelineLang.Proofs.Token.Joining

/-!
# Scanners that start within a source

A scanner may start at the end of a token at which the source has been cut before. It does
not know what lies before that place. Behind a line end, a pipe, an opening brace or
frontmatter this makes no difference: it reads what a scanner reads that has come along.

## Main definitions

- `Concurs` — two results differ in nothing but what a fault says of the token before it
- `Scanner.Alike` — two scanners see alike what lies before the same place
- `Scanner.Behind` — a scanner that has just read a token

## Main results

- `Lexeme.recognize_concurs` — a token does not depend on more than `Before.Alike` tells
- `Scanner.Alike.tokens_eq` — scanners that are alike read the same tokens and the same error
- `Scanner.tokens_ofOffset` — reading goes on at the end of such a token as if nothing had been

## Design notes

A fault tells which token was the last one before it. That is of use to a scanner that goes on
behind the fault and says nothing about the fault itself, so it is left out here.
-/

namespace PipelineLang

/-! ### Results -/

/-- Two results are the same, except for the tokens that faults say are the last ones before
them. -/
inductive Concurs {α : Type} : Except LexicalFault α → Except LexicalFault α → Prop
  | ok (a : α) : Concurs (.ok a) (.ok a)
  | error {cause start stop} (previous previous' : Option TokenKind) :
    Concurs (.error ⟨cause, start, stop, previous⟩) (.error ⟨cause, start, stop, previous'⟩)

namespace Concurs

variable {α β : Type} {found found' : Except LexicalFault α}

theorem refl (found : Except LexicalFault α) : Concurs found found := by
  cases found with
  | ok a => exact .ok a
  | error fault => exact .error fault.previous fault.previous

theorem map (h : Concurs found found') (f : α → β) : Concurs (found.map f) (found'.map f) := by
  cases h with
  | ok a => exact .ok (f a)
  | error previous previous' => exact .error previous previous'

end Concurs

/-- What a reader of replacements finds does not depend on the token before them. -/
def IgnoresPrevious (replacement : Option TokenKind → List Char → Except LexicalFault Replacement) :
    Prop :=
  ∀ previous previous' text, Concurs (replacement previous text) (replacement previous' text)

section

variable {before before' : Before} {text : List Char}

namespace Lexeme

theorem ofQuoted_concurs (before before' : Before) (lead : Nat) (text : List Char) :
    Concurs (ofQuoted before lead text) (ofQuoted before' lead text) := by
  rw [ofQuoted, ofQuoted]
  split
  · exact .error _ _
  · refine walk_alike (R := fun _ _ => True) (fun _ _ _ _ => .error _ _) ?_ _ _ _ trivial
    intro position _ _ ahead _
    unfold ofQuoted.stop
    split
    · exact .done (.error _ _)
    split
    · split
      · exact .go trivial
      · exact .done (.error _ _)
    split
    · exact .done (.ok _)
    · exact .go trivial

theorem ofRaw_concurs (before before' : Before) (lead : Nat) (text : List Char) :
    Concurs (ofRaw before lead text) (ofRaw before' lead text) := by
  unfold ofRaw
  dsimp only
  split
  · exact .error _ _
  · refine walk_alike (R := fun _ _ => True) (fun _ _ _ _ => .error _ _) ?_ _ _ _ trivial
    intro position _ _ ahead _
    unfold ofRaw.stop
    split
    · exact .done (.error _ _)
    split
    · exact .done (.ok _)
    · exact .go trivial

theorem ofBlockComment_concurs (before before' : Before) (text : List Char) :
    Concurs (ofBlockComment before text) (ofBlockComment before' text) := by
  refine walk_alike (R := fun _ _ => True) (fun _ _ _ _ => .error _ _) ?_ _ _ _ trivial
  intro position _ _ ahead _
  unfold ofBlockComment.stop
  split
  · exact .done (.ok _)
  · exact .go trivial

end Lexeme

theorem FormatBody.read_concurs
    {replacement : Option TokenKind → List Char → Except LexicalFault Replacement}
    (hignores : IgnoresPrevious replacement) (before before' : Before) (text : List Char) :
    Concurs (FormatBody.read replacement before text)
      (FormatBody.read replacement before' text) := by
  refine walk_alike (R := State.Alike) (fun _ _ _ _ => .error _ _) ?_ _ _ _ ⟨rfl, rfl⟩
  intro position state state' ahead halike
  unfold FormatBody.read.stop
  split
  · exact .done (.error _ _)
  dsimp only
  split
  · rw [halike.partsUpTo]
    exact .done (.ok _)
  split
  · next c rest _ _ =>
    have hfound := hignores state.previous state'.previous (c :: rest)
    generalize replacement state.previous (c :: rest) = found at hfound
    generalize replacement state'.previous (c :: rest) = found' at hfound
    cases hfound with
    | ok found => exact .go ⟨by rw [halike.partsUpTo], rfl⟩
    | error previous previous' => exact .done (.error _ _)
  split
  · split
    · exact .go (halike.inText position)
    · exact .done (.error _ _)
  split
  · exact .go (halike.inText position)
  · exact .go (halike.inText position)

namespace Lexeme

variable {replacement : Option TokenKind → List Char → Except LexicalFault Replacement}

theorem recognizeOpen_concurs (hignores : IgnoresPrevious replacement)
    (halike : before.Alike before')
    (c : Char) (rest : List Char) :
    Concurs (recognizeOpen replacement before c rest) (recognizeOpen replacement before' c rest)
      := by
  unfold recognizeOpen
  dsimp only
  split
  · exact ofQuoted_concurs _ _ _ _
  split
  · exact ofRaw_concurs _ _ _ _
  split
  · exact ofRaw_concurs _ _ _ _
  split
  · exact (FormatBody.read_concurs hignores _ _ _).map _
  split
  · split
    · exact .error _ _
    · exact .ok _
  split
  · exact .ok _
  split
  · next hcolon =>
    have heq : ofColon before (':' :: (rest ++ [])) = ofColon before' (':' :: rest) :=
      ofColon_append halike (closed_nil.breaks.spares [] : Spares before [] []).stops
    rw [List.append_nil] at heq
    rw [hcolon, heq]
    exact .ok _
  split
  · have heq : ofWord before (c :: rest ++ []) = ofWord before' (c :: rest) :=
      ofWord_append halike (closed_nil.breaks.spares _)
    rw [List.append_nil] at heq
    rw [heq]
    exact .ok _
  split
  · exact .ok _
  · exact .error _ _

/-- The token at the head of a text does not depend on more of what is before the text than
`Before.Alike` tells. -/
theorem recognizeWith_concurs (hignores : IgnoresPrevious replacement)
    (halike : before.Alike before')
    (text : List Char) :
    Concurs (recognizeWith replacement before text) (recognizeWith replacement before' text) := by
  cases text with
  | nil => exact .ok _
  | cons c rest =>
    by_cases hopen : IsOpen c rest
    · rw [recognizeWith_open hopen, recognizeWith_open hopen]
      exact recognizeOpen_concurs hignores halike c rest
    unfold recognizeWith
    split
    · exact .ok _
    · exact .ok _
    · exact .ok _
    · exact ofBlockComment_concurs _ _ _
    · exact ofQuoted_concurs _ _ _ _
    · exact ofQuoted_concurs _ _ _ _
    · next hline hcomment hblock hquote hquote' heq =>
      -- None of the first characters that are told apart comes first, so `c` is open.
      obtain ⟨rfl, rfl⟩ := List.cons.inj heq
      refine absurd ⟨?_, ⟨?_, ?_⟩, ?_⟩ hopen
      · rintro rfl
        exact hline rfl
      · rintro rfl
        exact hquote rfl
      · rintro rfl
        exact hquote' rfl
      · rintro rfl
        constructor
        · intro hhead
          obtain ⟨tail, rfl⟩ := List.head?_eq_some_iff.mp hhead
          exact hcomment tail rfl rfl
        · intro hhead
          obtain ⟨tail, rfl⟩ := List.head?_eq_some_iff.mp hhead
          exact hblock tail rfl rfl

/-- A replacement starts with an opening brace, whatever is before it; only where it is nested
too deep does the fault name the token there. -/
theorem ignoresPrevious_replacement (levels : Nat) :
    IgnoresPrevious (Lexeme.replacement levels) := by
  intro previous previous' text
  cases levels with
  | zero => exact .error _ _
  | succ levels => exact .refl _

theorem recognize_concurs (halike : before.Alike before') (text : List Char) :
    Concurs (recognize before text) (recognize before' text) :=
  recognizeWith_concurs (ignoresPrevious_replacement mostLevels) halike text

end Lexeme

end

/-! ### Scanners that are alike -/

namespace Scanner

variable {source : List Char} {scanner other behind : Scanner} {token : Token}

/-- Two scanners stand at the same place, behind the start of the program, and see alike what
lies before it. -/
structure Alike (scanner other : Scanner) : Prop where
  cursor : scanner.cursor = other.cursor
  phase : scanner.phase = .program
  phase_other : other.phase = .program
  before : scanner.before.Alike other.before

namespace Alike

variable (h : scanner.Alike other)

include h

theorem passGap : scanner.passGap.Alike other.passGap := by
  refine ⟨?_, h.phase, h.phase_other, ?_⟩
  · show scanner.cursor.advanceBy _ = other.cursor.advanceBy _
    rw [h.cursor]
  · rw [before_passGap, before_passGap, h.cursor]
    exact h.before.pass _ _

theorem tokenOf (kind : TokenKind) (length : Nat) :
    scanner.tokenOf kind length = other.tokenOf kind length := by
  rw [Scanner.tokenOf, Scanner.tokenOf, h.cursor]

theorem passLexeme {lexeme : Lexeme} (hle : lexeme.length ≤ scanner.cursor.rest.length) :
    (scanner.passLexeme lexeme).Alike (other.passLexeme lexeme) := by
  refine ⟨?_, ?_, ?_, ?_⟩
  · show scanner.cursor.advanceBy _ = other.cursor.advanceBy _
    rw [h.cursor]
  · show (if _ then scanner.phase else Phase.program) = .program
    rw [h.phase, ite_self]
  · show (if _ then other.phase else Phase.program) = .program
    rw [h.phase_other, ite_self]
  · rw [before_passLexeme hle, before_passLexeme (h.cursor ▸ hle), h.cursor]
    exact h.before.passToken _ _

/-- They read the same, and are alike again behind a token. -/
theorem read : scanner.read.1 = other.read.1 ∧
    ((scanner.read.1.isOk) → scanner.read.2.Alike other.read.2) := by
  have hgap := h.passGap
  rw [read_of_program h.phase, read_of_program h.phase_other]
  generalize scanner.passGap = scanner at hgap
  generalize other.passGap = other at hgap
  have hconcurs := Lexeme.recognize_concurs hgap.before scanner.cursor.rest
  generalize hfound : Lexeme.recognize scanner.before scanner.cursor.rest = found at hconcurs
  generalize hfound' : Lexeme.recognize other.before scanner.cursor.rest = found' at hconcurs
  rw [hgap.cursor] at hfound'
  cases hconcurs with
  | ok lexeme =>
    by_cases hkind : lexeme.kind = .eof
    · -- The end of the source is read where nothing is left of it.
      have hrest := (Lexeme.recognized_of_ok hfound).eq_nil hkind
      rw [readProgram_of_nil hrest, readProgram_of_nil (hgap.cursor ▸ hrest)]
      exact ⟨by rw [hgap.tokenOf], fun _ => hgap⟩
    · have hle := (Lexeme.recognized_of_ok hfound).length_le
      rw [readProgram_of_lexeme hfound hkind, readProgram_of_lexeme hfound' hkind]
      exact ⟨by rw [hgap.tokenOf], fun _ => hgap.passLexeme hle⟩
  | error previous previous' =>
    rw [readProgram_of_fault hfound, readProgram_of_fault hfound', hgap.cursor]
    exact ⟨rfl, nofun⟩

/-- It does not matter whether the last token has been handed out. -/
theorem handOut (last : Bool) :
    Scanner.Alike { scanner with finished := last } { other with finished := last } :=
  ⟨h.cursor, h.phase, h.phase_other, h.before⟩

theorem tokensUpTo_eq (hfinished : scanner.finished = other.finished) (fuel : Nat) :
    tokensUpTo fuel scanner = tokensUpTo fuel other := by
  induction fuel generalizing scanner other with
  | zero => rfl
  | succ fuel ih =>
    obtain ⟨hsame, hbehind⟩ := h.read
    cases hend : other.finished with
    | true => simp only [tokensUpTo, next?, hfinished, hend, if_pos]
    | false =>
      simp only [tokensUpTo, next?, hfinished, hend, Bool.false_eq_true, if_false, hsame]
      rw [hsame] at hbehind
      generalize other.read.1 = found at hbehind
      cases found with
      | error error => rfl
      | ok token =>
        simp only [ih ((hbehind rfl).handOut _) rfl]

/-- They read the same tokens, and the same error ends them. -/
theorem tokens_eq (hfinished : scanner.finished = other.finished) :
    scanner.tokens = other.tokens := by
  rw [tokens, tokens, h.cursor, h.tokensUpTo_eq hfinished]

end Alike

/-! ### The tokens behind a token -/

theorem tokensUpTo_of_finished (hfinished : scanner.finished = true) (fuel : Nat) :
    tokensUpTo fuel scanner = ([], none) := by
  cases fuel with
  | zero => rfl
  | succ fuel => simp [tokensUpTo, next?, hfinished]

/-- More turns than there are characters ahead are not needed. -/
theorem tokensUpTo_of_lt {fuel fuel' : Nat} (hfinished : scanner.finished = false)
    (hfuel : scanner.cursor.rest.length < fuel) (hfuel' : scanner.cursor.rest.length < fuel') :
    tokensUpTo fuel scanner = tokensUpTo fuel' scanner := by
  induction fuel generalizing scanner fuel' with
  | zero => omega
  | succ fuel ih =>
    obtain ⟨fuel', rfl⟩ := Nat.exists_eq_add_one_of_ne_zero (Nat.ne_zero_of_lt hfuel')
    cases hread : scanner.read with
    | mk found behind =>
      cases found with
      | error error => simp [tokensUpTo, next?, hfinished, hread]
      | ok token =>
        rw [tokensUpTo, tokensUpTo, next?_of_read hfinished hread]
        by_cases hkind : token.kind = .eof
        · have hend : ({ behind with finished := token.kind == .eof } : Scanner).finished = true :=
            beq_iff_eq.mpr hkind
          simp only [tokensUpTo_of_finished hend]
        · have hless := (readAs_of_read hread).progress hkind
          have hnext :
              ({ behind with finished := token.kind == .eof } : Scanner).finished = false :=
            beq_eq_false_iff_ne.mpr hkind
          have hrest : tokensUpTo fuel { behind with finished := token.kind == .eof } =
              tokensUpTo fuel' { behind with finished := token.kind == .eof } :=
            ih hnext (show behind.cursor.rest.length < fuel by omega)
              (show behind.cursor.rest.length < fuel' by omega)
          simp only [hrest]

theorem tokens_of_read (hfinished : scanner.finished = false)
    (hread : scanner.read = (.ok token, behind)) (hkind : token.kind ≠ .eof) :
    scanner.tokens = (token :: behind.tokens.1, behind.tokens.2) := by
  have hless := (readAs_of_read hread).progress hkind
  have hfalse := (readAs_of_read hread).finished.trans hfinished
  have hbehind : { behind with finished := token.kind == .eof } = behind := by
    rw [beq_eq_false_iff_ne.mpr hkind, ← hfalse]
  have hrest : tokensUpTo scanner.cursor.rest.length behind = behind.tokens :=
    tokensUpTo_of_lt hfalse hless (Nat.lt_succ_self _)
  rw [tokens, tokensUpTo, next?_of_read hfinished hread, hbehind]
  simp only [hrest]

/-- The tokens between two places of a scanner, none of which is the end. -/
inductive Passes : Scanner → List Token → Scanner → Prop
  | nil {here : Scanner} : Passes here [] here
  | cons {here mid last : Scanner} {token : Token} {tokens : List Token} (h : ReadAs here token mid)
    (hkind : token.kind ≠ .eof) (htokens : Passes mid tokens last) :
    Passes here (token :: tokens) last

/-- The first of the tokens from a scanner on is the one that it reads. -/
theorem exists_read_of_tokens {rest : List Token} {error : Option LexicalError}
    (hfinished : scanner.finished = false) (h : scanner.tokens = (token :: rest, error)) :
    ∃ behind, ReadAs scanner token behind ∧ behind.finished = false ∧
      (token.kind = .eof ∧ rest = [] ∨ token.kind ≠ .eof ∧ behind.tokens = (rest, error)) := by
  cases hread : scanner.read with
  | mk found behind =>
    cases found with
    | error fault =>
      rw [tokens, tokensUpTo] at h
      simp [next?, hfinished, hread] at h
    | ok first =>
      have has := readAs_of_read hread
      refine ⟨behind, ?_⟩
      by_cases hkind : first.kind = .eof
      · have hend : ({ behind with finished := first.kind == .eof } : Scanner).finished = true :=
          beq_iff_eq.mpr hkind
        rw [tokens, tokensUpTo, next?_of_read hfinished hread] at h
        simp only [tokensUpTo_of_finished hend, Prod.mk.injEq, List.cons.injEq] at h
        obtain ⟨⟨rfl, rfl⟩, -⟩ := h
        exact ⟨has, has.finished.trans hfinished, .inl ⟨hkind, rfl⟩⟩
      · rw [tokens_of_read hfinished hread hkind, Prod.mk.injEq, List.cons.injEq] at h
        obtain ⟨⟨rfl, rfl⟩, rfl⟩ := h
        exact ⟨has, has.finished.trans hfinished, .inr ⟨hkind, rfl⟩⟩

/-- The tokens of a scanner up to one of them are read by it, and the others are those of a
scanner behind it. -/
theorem passes_of_tokens {front back : List Token} {error : Option LexicalError}
    (hfinished : scanner.finished = false)
    (h : scanner.tokens = (front ++ token :: back, error)) (hkind : token.kind ≠ .eof) :
    ∃ mid behind, Passes scanner front mid ∧ ReadAs mid token behind ∧ behind.finished = false ∧
      behind.tokens = (back, error) := by
  induction front generalizing scanner with
  | nil =>
    obtain ⟨behind, hread, hfalse, ⟨heof, -⟩ | ⟨-, hback⟩⟩ := exists_read_of_tokens hfinished h
    · exact absurd heof hkind
    · exact ⟨scanner, behind, .nil, hread, hfalse, hback⟩
  | cons first front ih =>
    obtain ⟨next, hread, hfalse, ⟨-, hnil⟩ | ⟨hfirst, hrest⟩⟩ :=
      exists_read_of_tokens hfinished h
    · simp at hnil
    · obtain ⟨mid, behind, hpasses, hlast⟩ := ih hfalse hrest
      exact ⟨mid, behind, .cons hread hfirst hpasses, hlast⟩

/-! ### The place behind a token -/

/-- A scanner behind a token stands where the token ends. -/
theorem ReadAs.stop (h : ReadAs scanner token behind) : token.span.stop = behind.cursor.offset := by
  cases h <;> rfl

/-- A scanner passes characters only. -/
theorem ReadAs.cursor (h : ReadAs scanner token behind) :
    ∃ n, behind.cursor = scanner.cursor.advanceBy n := by
  cases h with
  | frontmatterEnd => exact ⟨0, rfl⟩
  | frontmatterClose | frontmatterBody => exact ⟨_, rfl⟩
  | eof => exact ⟨_, rfl⟩
  | frontmatterOpen | lexeme => exact ⟨_, (Cursor.advanceBy_add _ _ _).symm⟩

/-- A token behind which a statement starts is the last one before the scanner behind it, and
no frontmatter goes on there. -/
theorem ReadAs.opens (h : ReadAs scanner token behind)
    (hkind : token.kind ∈ Lexeme.statementOpeners) :
    behind.phase ≠ .frontmatter ∧ behind.previous = some token.kind := by
  cases h with
  | frontmatterEnd | frontmatterBody | frontmatterOpen | eof =>
    simp [tokenOf, Lexeme.statementOpeners] at hkind
  | frontmatterClose => exact ⟨by simp, rfl⟩
  | @lexeme lexeme hphase =>
    have hcomment : (lexeme.kind == .comment) = false := by
      rw [beq_eq_false_iff_ne]
      intro hcomment
      simp [tokenOf, hcomment, Lexeme.statementOpeners] at hkind
    refine ⟨?_, ?_⟩
    · show (if _ then scanner.phase else Phase.program) ≠ .frontmatter
      split
      · exact hphase
      · decide
    · simp only [Before.passToken, hcomment]
      rfl

theorem Passes.concat {tokens : List Token} (h : Passes other tokens scanner)
    (hread : ReadAs scanner token behind) (hkind : token.kind ≠ .eof) :
    Passes other (tokens ++ [token]) behind := by
  induction h with
  | nil => exact .cons hread hkind .nil
  | cons hfirst hother _ ih => exact .cons hfirst hother (ih hread)

theorem Passes.cursor {tokens : List Token} (h : Passes scanner tokens behind) :
    ∃ n, behind.cursor = scanner.cursor.advanceBy n := by
  induction h with
  | nil => exact ⟨0, rfl⟩
  | cons hread _ _ ih =>
    obtain ⟨m, hm⟩ := hread.cursor
    obtain ⟨n, hn⟩ := ih
    exact ⟨m + n, by rw [hn, hm, Cursor.advanceBy_add]⟩

/-- As long as frontmatter may open, nothing but line ends and comments has been read. -/
theorem Passes.of_phase {tokens : List Token} (h : Passes scanner tokens behind)
    (hstart : behind.phase = .start) :
    scanner.phase = .start ∧ ∀ token ∈ tokens, token.kind ∈ [TokenKind.newline, .comment] := by
  induction h with
  | nil => exact ⟨hstart, nofun⟩
  | cons hread hkind _ ih =>
    obtain ⟨hmid, hall⟩ := ih hstart
    obtain ⟨hphase, hfirst⟩ := hread.of_phase hkind hmid
    exact ⟨hphase, List.forall_mem_cons.mpr ⟨hfirst, hall⟩⟩

end Scanner

namespace Cursor

/-- At the end of a source, a cursor stays where it is. -/
theorem advanceBy_of_rest_eq_nil {here : Cursor} (h : here.rest = []) (n : Nat) :
    here.advanceBy n = here := by
  induction n with
  | zero => rfl
  | succ n ih =>
    have hstay : here.advance = here := by simp only [advance, h]
    rw [advanceBy, hstay, ih]

theorem advanceBy_min_length (here : Cursor) (n : Nat) :
    here.advanceBy (min n here.rest.length) = here.advanceBy n := by
  obtain hlt | hle := Nat.lt_or_ge here.rest.length n
  · have hend : (here.advanceBy here.rest.length).rest = [] := by
      rw [rest_advanceBy, List.drop_length]
    obtain ⟨more, rfl⟩ := Nat.exists_eq_add_of_le (Nat.le_of_lt hlt)
    rw [Nat.min_eq_right (Nat.le_of_lt hlt), advanceBy_add, advanceBy_of_rest_eq_nil hend]
  · rw [Nat.min_eq_left hle]

theorem StandsIn.length_rest_le {source : List Char} {here : Cursor} (h : here.StandsIn source) :
    here.rest.length ≤ source.length := by
  obtain ⟨passed, hsource, -⟩ := h
  rw [hsource, List.length_append]
  exact Nat.le_add_left _ _

/-- The place that a cursor has come to is the one that its offset leads to. -/
theorem ofOffset_advanceBy (source : List Char) (n : Nat) :
    ofOffset source ((ofSource source).advanceBy n).offset = (ofSource source).advanceBy n := by
  have hcount : charactersBefore (byteCount ((ofSource source).rest.take n))
      (ofSource source).rest = min n (ofSource source).rest.length := by
    have hbytes := charactersBefore_byteCount ((ofSource source).rest.take n)
      ((ofSource source).rest.drop n)
    rwa [List.take_append_drop, List.length_take] at hbytes
  rw [ofOffset, offset_advanceBy, Nat.add_sub_cancel_left, hcount, advanceBy_min_length]

end Cursor

namespace Scanner

open Lexeme

/-- A scanner that starts at the end of a token behind which statements start reads what is
read behind that token, if more than line ends and comments has come up to there. -/
theorem tokens_ofOffset {source : List Char} {front back : List Token} {token : Token}
    {error : Option LexicalError}
    (htokens : (ofSource source).tokens = (front ++ token :: back, error))
    (hopener : token.kind ∈ statementOpeners)
    (hbegun : ∃ other ∈ front ++ [token], other.kind ∉ [TokenKind.newline, .comment]) :
    (ofOffset source token.span.stop).tokens = (back, error) := by
  have hkind : token.kind ≠ .eof := by
    rintro heof
    simp [heof, statementOpeners] at hopener
  obtain ⟨mid, behind, hpasses, hread, hfinished, hback⟩ := passes_of_tokens rfl htokens hkind
  have hall := hpasses.concat hread hkind
  obtain ⟨n, hcursor⟩ := hall.cursor
  obtain ⟨houtside, hprevious⟩ := hread.opens hopener
  -- Something other than line ends and comments has been read, so the program has begun.
  have hphase : behind.phase = .program := by
    cases hphase : behind.phase with
    | program => rfl
    | frontmatter => exact absurd hphase houtside
    | start =>
      obtain ⟨other, hmem, hother⟩ := hbegun
      exact absurd ((hall.of_phase hphase).2 other hmem) hother
  have hplace : Cursor.ofOffset source token.span.stop = behind.cursor := by
    rw [hread.stop, hcursor]
    exact Cursor.ofOffset_advanceBy source n
  -- The token takes a character, so the place is not the start of the source.
  have hoffset : Cursor.charactersBefore token.span.stop source ≠ 0 := by
    have hstands : behind.cursor.StandsIn source :=
      hcursor ▸ (Cursor.standsIn_ofSource source).advanceBy n
    obtain ⟨passed, hsource, hbytes⟩ := hstands
    rw [hread.stop, hbytes, hsource, Cursor.charactersBefore_byteCount]
    intro hnone
    obtain ⟨m, hmid⟩ := hpasses.cursor
    have hless := hread.progress hkind
    have hlength := congrArg List.length hsource
    have hstart := (Cursor.standsIn_ofSource source).length_rest_le
    rw [hmid, Cursor.rest_advanceBy, List.length_drop] at hless
    rw [List.length_append, hnone] at hlength
    have : (ofSource source).cursor.rest.length = (Cursor.ofSource source).rest.length := rfl
    omega
  have halike : Scanner.Alike ⟨behind.cursor, .program, none, false⟩ behind := by
    refine ⟨rfl, rfl, hphase, ?_⟩
    have hnames : token.kind ≠ .identifier := by
      rintro hidentifier
      simp [hidentifier, statementOpeners] at hopener
    refine ⟨?_, ?_, rfl⟩
    · show false = (behind.previous == some .identifier)
      rw [hprevious]
      exact (beq_eq_false_iff_ne.mpr fun h => hnames (Option.some.inj h)).symm
    · show true = behind.previous.all statementOpeners.contains
      rw [hprevious]
      exact (List.contains_iff_mem.mpr hopener).symm
  rw [ofOffset, if_neg hoffset, hplace, halike.tokens_eq hfinished.symm, hback]

/-- The second line of `p` and `a1::b` is read as a path from its start on, though its text is
an address in other places. -/
theorem tokens_ofOffset_path :
    (ofOffset ['p', '\n', 'a', '1', ':', ':', 'b'] 2).tokens =
      ([⟨.identifier, "a1", ⟨2, 4, 2, 1⟩⟩, ⟨.moduleSep, "::", ⟨4, 6, 2, 3⟩⟩,
        ⟨.identifier, "b", ⟨6, 7, 2, 5⟩⟩, ⟨.eof, "", ⟨7, 7, 2, 6⟩⟩], none) := by
  have htokens : (ofSource ['p', '\n', 'a', '1', ':', ':', 'b']).tokens =
      ([⟨.identifier, "p", ⟨0, 1, 1, 1⟩⟩] ++ ⟨.newline, "\n", ⟨1, 2, 1, 2⟩⟩ ::
        [⟨.identifier, "a1", ⟨2, 4, 2, 1⟩⟩, ⟨.moduleSep, "::", ⟨4, 6, 2, 3⟩⟩,
          ⟨.identifier, "b", ⟨6, 7, 2, 5⟩⟩, ⟨.eof, "", ⟨7, 7, 2, 6⟩⟩], none) := by
    decide +kernel
  exact tokens_ofOffset htokens (by decide) ⟨_, List.mem_cons_self, by decide⟩

end Scanner

end PipelineLang
