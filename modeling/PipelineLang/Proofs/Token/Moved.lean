import PipelineLang.Grammar.TokenStream
import PipelineLang.Proofs.Syntax.Moved
import PipelineLang.Proofs.Token.Reading
import PipelineLang.Token.Format

/-!
# Scanners that are moved

What a scanner does depends on the text ahead and on what has been seen before, and not on
where it stands: a scanner that stands further on reads the same tokens further on.

## Main results

- `Scanner.read_moved`, `Scanner.tokens?_moved` — the tokens of a scanner that is moved
- `Token.formatPieces_moved` — the pieces of a format string that is moved
-/

namespace PipelineLang

variable {shift : Shift}

instance : Movable Cursor where
  moved shift here :=
    { here with offset := here.offset + shift.bytes, line := here.line + shift.lines }
  moved_zero _ := rfl

instance : Movable Scanner where
  moved shift scanner := { scanner with cursor := moved shift scanner.cursor }
  moved_zero _ := rfl

instance : Movable LexicalError where
  moved shift error := { error with span := moved shift error.span }
  moved_zero _ := rfl

instance {ε α : Type} [Movable ε] [Movable α] : Movable (Except ε α) where
  moved shift
    | .ok a => .ok (moved shift a)
    | .error e => .error (moved shift e)
  moved_zero found := by cases found <;> simp

instance : Movable FormatPiece where
  moved shift
    | .text raw span => .text raw (moved shift span)
    | .replacement inner innerSpan span =>
      .replacement inner (moved shift innerSpan) (moved shift span)
  moved_zero piece := by cases piece <;> simp

namespace Cursor

theorem advance_moved (here : Cursor) : (moved shift here).advance = moved shift here.advance := by
  obtain ⟨rest, offset, line, column, last⟩ := here
  cases rest with
  | nil => rfl
  | cons c rest =>
    simp only [advance, moved]
    split <;> simp only [Nat.add_right_comm]

theorem advanceBy_moved (here : Cursor) (n : Nat) :
    (moved shift here).advanceBy n = moved shift (here.advanceBy n) := by
  induction n generalizing here with
  | zero => rfl
  | succ n ih => rw [advanceBy, advanceBy, advance_moved, ih]

theorem spanBetween_moved (here : Cursor) (first last : Nat) :
    (moved shift here).spanBetween first last = moved shift (here.spanBetween first last) := by
  simp only [spanBetween, advanceBy_moved]
  rfl

end Cursor

namespace Scanner

@[simp] theorem rest_moved (scanner : Scanner) :
    (moved shift scanner).cursor.rest = scanner.cursor.rest := rfl

@[simp] theorem phase_moved (scanner : Scanner) :
    (moved shift scanner).phase = scanner.phase := rfl

@[simp] theorem finished_moved (scanner : Scanner) :
    (moved shift scanner).finished = scanner.finished := rfl

@[simp] theorem before_moved (scanner : Scanner) :
    (moved shift scanner).before = scanner.before := rfl

@[simp] theorem opening?_moved (scanner : Scanner) :
    (moved shift scanner).opening? = scanner.opening? := rfl

@[simp] theorem pass_moved (scanner : Scanner) (length : Nat) :
    (moved shift scanner).pass length = moved shift (scanner.pass length) := by
  show { moved shift scanner with cursor := (moved shift scanner.cursor).advanceBy length } = _
  rw [Cursor.advanceBy_moved]
  rfl

@[simp] theorem passGap_moved (scanner : Scanner) :
    (moved shift scanner).passGap = moved shift scanner.passGap := pass_moved _ _

@[simp] theorem tokenOf_moved (scanner : Scanner) (kind : TokenKind) (length : Nat) :
    (moved shift scanner).tokenOf kind length = moved shift (scanner.tokenOf kind length) := by
  show Token.mk kind _ ((moved shift scanner.cursor).spanBetween 0 length) = _
  rw [Cursor.spanBetween_moved]
  rfl

theorem readFrontmatter_moved (scanner : Scanner) :
    (moved shift scanner).readFrontmatter = moved shift scanner.readFrontmatter := by
  cases hrest : scanner.cursor.rest with
  | nil =>
    simp only [readFrontmatter, rest_moved, hrest, tokenOf_moved]
    rfl
  | cons c rest =>
    cases hdelimiter : Frontmatter.delimiter? true (c :: rest) <;>
      simp only [readFrontmatter, rest_moved, hrest, hdelimiter, tokenOf_moved, pass_moved] <;> rfl

theorem readProgram_moved (scanner : Scanner) :
    (moved shift scanner).readProgram = moved shift scanner.readProgram := by
  cases hlexeme : Lexeme.recognize scanner.before scanner.cursor.rest with
  | error fault =>
    have hspan : (moved shift scanner).cursor.spanBetween fault.start fault.stop =
        moved shift (scanner.cursor.spanBetween fault.start fault.stop) :=
      Cursor.spanBetween_moved _ _ _
    simp only [readProgram, before_moved, rest_moved, hlexeme, hspan, pass_moved]
    rfl
  | ok lexeme =>
    obtain ⟨kind, length⟩ := lexeme
    simp only [readProgram, before_moved, rest_moved, hlexeme, tokenOf_moved, pass_moved]
    cases kind <;> rfl

/-- A scanner that is moved reads the same token, moved. -/
theorem read_moved (scanner : Scanner) :
    (moved shift scanner).read = moved shift scanner.read := by
  by_cases hphase : scanner.phase = .frontmatter
  · simp only [read, phase_moved, if_pos hphase, readFrontmatter_moved]
    rfl
  · cases hopening : scanner.passGap.opening? <;>
      simp only [read, phase_moved, if_neg hphase, passGap_moved, opening?_moved, hopening,
        readProgram_moved, tokenOf_moved, pass_moved]
    rfl

theorem next?_moved (scanner : Scanner) :
    (moved shift scanner).next? = moved shift scanner.next? := by
  by_cases hfinished : scanner.finished
  · simp only [next?, finished_moved, if_pos hfinished]
    rfl
  · rcases hread : scanner.read with ⟨_ | token, behind⟩ <;>
      simp only [next?, finished_moved, if_neg hfinished, read_moved, hread] <;> rfl

theorem tokensUpTo_moved (fuel : Nat) (scanner : Scanner) :
    tokensUpTo fuel (moved shift scanner) = moved shift (tokensUpTo fuel scanner) := by
  induction fuel generalizing scanner with
  | zero => rfl
  | succ fuel ih =>
    rcases hnext : scanner.next? with ⟨_ | _ | token, behind⟩
    · simp only [tokensUpTo, next?_moved, hnext]
      rfl
    · simp only [tokensUpTo, next?_moved, hnext]
      rfl
    · have hmoved : (moved shift scanner).next? =
          (some (.ok (moved shift token)), moved shift behind) := by
        rw [next?_moved, hnext]
        rfl
      simp only [tokensUpTo, hmoved, hnext, ih]
      rfl

/-- The tokens of a scanner that is moved. -/
theorem tokens?_moved (scanner : Scanner) :
    (moved shift scanner).tokens? = moved shift scanner.tokens? := by
  have htokens : (moved shift scanner).tokens = moved shift scanner.tokens :=
    tokensUpTo_moved _ _
  rcases hfound : scanner.tokens with ⟨tokens, _ | error⟩ <;>
    simp only [tokens?, htokens, hfound] <;> rfl

end Scanner

theorem FormatPart.piece_moved (part : FormatPart) (cursor : Cursor) :
    part.piece (moved shift cursor) = moved shift (part.piece cursor) := by
  cases part <;> simp only [piece, Cursor.spanBetween_moved] <;> rfl

/-- The pieces of a format string that is moved. -/
theorem Token.formatPieces_moved (token : Token) :
    (moved shift token).formatPieces = moved shift token.formatPieces := by
  have hscanner : Scanner.within (moved shift token).text.toList (moved shift token).span =
      moved shift (Scanner.within token.text.toList token.span) := rfl
  cases hbody : FormatBody.read (Lexeme.replacement Lexeme.mostLevels)
      (Scanner.within token.text.toList token.span).before
      (Scanner.within token.text.toList token.span).cursor.rest with
  | ok body =>
    have hpieces : body.parts.map (·.piece (moved shift
        (Scanner.within token.text.toList token.span)).cursor) = moved shift
          (body.parts.map (·.piece (Scanner.within token.text.toList token.span).cursor)) := by
      rw [moved_list, List.map_map]
      exact List.map_congr_left fun part _ => part.piece_moved _
    simp only [formatPieces, hscanner, Scanner.before_moved, Scanner.rest_moved, hbody, hpieces]
    rfl
  | error fault =>
    have hspan : (moved shift (Scanner.within token.text.toList token.span)).cursor.spanBetween
        fault.start fault.stop = moved shift
          ((Scanner.within token.text.toList token.span).cursor.spanBetween
            fault.start fault.stop) := Cursor.spanBetween_moved _ _ _
    simp only [formatPieces, hscanner, Scanner.before_moved, Scanner.rest_moved, hbody, hspan]
    rfl

end PipelineLang
