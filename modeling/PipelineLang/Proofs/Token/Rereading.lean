import PipelineLang.Proofs.Token.Accuracy
import PipelineLang.Proofs.Token.Nesting
import PipelineLang.Token.Format

/-!
# Format strings are read again

The text of a format string is cut into pieces a second time, and the text of each of its
replacements is read a third time, from where it stands in the source. Nothing else comes of
it than the first time.

## Main definitions

- `Cursor.token`, `Cursor.tokensSeen` — the tokens that lexemes take at a place
- `Cursor.IsPartOf` — a cursor that sees less, from the same place on
- `FormatPart.IsReread` — a replacement is read again as it has been read first

## Main results

- `Scanner.reads_of_sees` — a scanner reads what has been seen before a closing brace
- `Token.rereads` — the pieces of a format string, and the tokens in its replacements

## Design notes

The second reader starts with other things before it, with all levels left, and at the end of
a text where a brace has been. `Narrows` says that none of this matters.
-/

namespace PipelineLang

namespace Cursor

/-- The token that a lexeme takes at the place of a cursor. -/
def token (here : Cursor) (lexeme : Lexeme) : Token :=
  ⟨lexeme.kind, String.ofList (here.rest.take lexeme.length), here.spanBetween 0 lexeme.length⟩

/-- The tokens of some lexemes behind a cursor, each with its position, and the end. -/
def tokensSeen (here : Cursor) (seen : List (Nat × Lexeme)) (stop : Nat) : List Token :=
  seen.map (fun (position, lexeme) => (here.advanceBy position).token lexeme) ++
    [(here.advanceBy stop).token ⟨.eof, 0⟩]

/-- A cursor sees a part of what another one sees, from the same place on. -/
structure IsPartOf (inner outer : Cursor) : Prop where
  rest : inner.rest <+: outer.rest
  offset : inner.offset = outer.offset
  line : inner.line = outer.line
  column : inner.column = outer.column

theorem advanceBy_add (here : Cursor) (m n : Nat) :
    here.advanceBy (m + n) = (here.advanceBy m).advanceBy n := by
  induction m generalizing here with
  | zero => rw [Nat.zero_add, advanceBy]
  | succ m ih => rw [Nat.succ_add, advanceBy, advanceBy, ih]

/-- The character just passed is the last one of those that have been passed. -/
theorem last_advanceBy {here : Cursor} {n : Nat} (hpos : 0 < n) (hle : n ≤ here.rest.length) :
    (here.advanceBy n).last = (here.rest.drop (n - 1)).head? := by
  obtain ⟨n, rfl⟩ := Nat.exists_eq_add_one_of_ne_zero (Nat.ne_of_gt hpos)
  rw [advanceBy_add, Nat.add_sub_cancel, ← rest_advanceBy]
  have hne : (here.advanceBy n).rest ≠ [] := by
    rw [rest_advanceBy, ne_eq, List.drop_eq_nil_iff]
    omega
  obtain ⟨c, rest, hrest⟩ := List.exists_cons_of_ne_nil hne
  simp only [advanceBy, advance, hrest]
  split <;> rfl

namespace IsPartOf

variable {inner outer : Cursor}

theorem advance (h : inner.IsPartOf outer) (hne : inner.rest ≠ []) :
    inner.advance.IsPartOf outer.advance := by
  obtain ⟨c, rest, hinner⟩ := List.exists_cons_of_ne_nil hne
  obtain ⟨beyond, houter⟩ := h.rest
  rw [hinner, List.cons_append] at houter
  have hbegins : rest <+: rest ++ beyond := ⟨beyond, rfl⟩
  simp only [Cursor.advance, hinner, ← houter]
  split
  · exact ⟨hbegins, by rw [h.offset], by rw [h.line], rfl⟩
  · exact ⟨hbegins, by rw [h.offset], h.line, by rw [h.column]⟩

theorem advanceBy (h : inner.IsPartOf outer) {n : Nat} (hle : n ≤ inner.rest.length) :
    (inner.advanceBy n).IsPartOf (outer.advanceBy n) := by
  induction n generalizing inner outer with
  | zero => exact h
  | succ n ih =>
    have hne : inner.rest ≠ [] := List.ne_nil_of_length_pos (by omega)
    refine ih (h.advance hne) ?_
    rw [rest_advance, List.length_drop]
    omega

theorem spanBetween (h : inner.IsPartOf outer) {first last : Nat}
    (hfirst : first ≤ inner.rest.length) (hlast : last ≤ inner.rest.length) :
    inner.spanBetween first last = outer.spanBetween first last := by
  have hstart := h.advanceBy hfirst
  simp only [Cursor.spanBetween, hstart.offset, hstart.line, hstart.column,
    (h.advanceBy hlast).offset]

theorem take (h : inner.IsPartOf outer) {n : Nat} (hle : n ≤ inner.rest.length) :
    inner.rest.take n = outer.rest.take n := by
  rw [List.prefix_iff_eq_take.mp h.rest, List.take_take, Nat.min_eq_left hle]

theorem token (h : inner.IsPartOf outer) {lexeme : Lexeme}
    (hle : lexeme.length ≤ inner.rest.length) : inner.token lexeme = outer.token lexeme := by
  rw [Cursor.token, Cursor.token, h.take hle, h.spanBetween (Nat.zero_le _) hle]

end IsPartOf

/-- A cursor within a part of what is ahead sees that part from its start on. -/
theorem isPartOf_within (here : Cursor) (first last : Nat) :
    (within ((here.rest.take last).drop first) (here.spanBetween first last)).IsPartOf
      (here.advanceBy first) := by
  refine ⟨?_, rfl, rfl, rfl⟩
  rw [rest_advanceBy, within, List.drop_take]
  exact List.take_prefix _ _

end Cursor

theorem Frontmatter.delimiter?_of_head {endsLine : Bool} {text : List Char}
    (h : text.head? ≠ some '-') : delimiter? endsLine text = none := by
  unfold delimiter?
  split
  · exact absurd rfl h
  · rfl

/-! ### A scanner in a replacement -/

namespace Scanner

theorem before_pass {scanner : Scanner} {n : Nat} (hle : n ≤ scanner.cursor.rest.length) :
    (scanner.pass n).before = scanner.before.pass n scanner.cursor.rest := by
  unfold Before.pass
  split
  · next hzero =>
    subst hzero
    rfl
  · next hne =>
    show (⟨scanner.previous, (scanner.cursor.advanceBy n).last⟩ : Before) = _
    rw [Cursor.last_advanceBy (Nat.pos_of_ne_zero hne) hle]
    rfl

theorem rest_passGap (scanner : Scanner) : scanner.passGap.cursor.rest =
    scanner.cursor.rest.drop (Gap.length scanner.cursor.rest) := rest_pass _ _

theorem before_passGap (scanner : Scanner) : scanner.passGap.before =
    scanner.before.pass (Gap.length scanner.cursor.rest) scanner.cursor.rest :=
  before_pass (Gap.length_le _)

/-- The scanner behind a lexeme at its place. -/
def passLexeme (scanner : Scanner) (lexeme : Lexeme) : Scanner :=
  { scanner.pass lexeme.length with
    phase := scanner.phaseBehind lexeme.kind
    previous := (scanner.before.passToken lexeme scanner.cursor.rest).previous }

theorem before_passLexeme {scanner : Scanner} {lexeme : Lexeme}
    (hle : lexeme.length ≤ scanner.cursor.rest.length) :
    (scanner.passLexeme lexeme).before = scanner.before.passToken lexeme scanner.cursor.rest := by
  have hlast : (scanner.pass lexeme.length).cursor.last = _ :=
    congrArg Before.last (before_pass hle)
  show (⟨(scanner.before.passToken lexeme scanner.cursor.rest).previous,
    (scanner.pass lexeme.length).cursor.last⟩ : Before) = _
  rw [hlast, Before.passToken]
  split <;> rfl

theorem opening?_of_phase {scanner : Scanner} (h : scanner.phase ≠ .start) :
    scanner.opening? = none := by
  rw [opening?, if_neg (by simp [h])]

theorem ofSource_of_head {source : List Char} (h : source.head? ≠ some Cursor.byteOrderMark) :
    ofSource source = ⟨⟨source, 0, 1, 1, none⟩, .start, none, false⟩ := by
  cases source with
  | nil => rfl
  | cons c source =>
    have hc : c ≠ Cursor.byteOrderMark := by simpa using h
    rw [ofSource, Cursor.ofSource, if_neg hc]

theorem opening?_of_head {scanner : Scanner} (h : scanner.cursor.rest.head? ≠ some '-') :
    scanner.opening? = none := by
  rw [opening?, Frontmatter.delimiter?_of_head h, ite_self]

theorem read_of_opening? {scanner : Scanner} (hphase : scanner.phase ≠ .frontmatter)
    (hopening : scanner.passGap.opening? = none) : scanner.read = scanner.passGap.readProgram := by
  simp only [read, if_neg hphase, hopening]

theorem read_of_program {scanner : Scanner} (h : scanner.phase = .program) :
    scanner.read = scanner.passGap.readProgram :=
  read_of_opening? (by rw [h]; decide) (opening?_of_phase (by rw [passGap, pass, h]; decide))

theorem readProgram_of_lexeme {scanner : Scanner} {lexeme : Lexeme}
    (h : Lexeme.recognize scanner.before scanner.cursor.rest = .ok lexeme)
    (hkind : lexeme.kind ≠ .eof) : scanner.readProgram =
      (.ok (scanner.tokenOf lexeme.kind lexeme.length), scanner.passLexeme lexeme) := by
  obtain ⟨kind, length⟩ := lexeme
  simp only [readProgram, h]
  split
  · next heof =>
    cases heof
    exact absurd rfl hkind
  · next hlexeme =>
    cases hlexeme
    rfl
  · next hfault => cases hfault

theorem readProgram_of_fault {scanner : Scanner} {fault : LexicalFault}
    (h : Lexeme.recognize scanner.before scanner.cursor.rest = .error fault) :
    scanner.readProgram =
      (.error ⟨fault.cause, scanner.cursor.spanBetween fault.start fault.stop⟩,
        { scanner.pass fault.stop with
          phase := scanner.phaseBehindFault, previous := fault.previous }) := by
  rw [readProgram, h]

theorem readProgram_of_nil {scanner : Scanner} (h : scanner.cursor.rest = []) :
    scanner.readProgram = (.ok (scanner.tokenOf .eof 0), scanner) := by
  rw [readProgram, h]
  rfl

/-- What a scanner reads where no frontmatter can open. -/
theorem read_lexeme {scanner : Scanner} (hphase : scanner.phase = .program) {lexeme : Lexeme}
    (hlexeme : Lexeme.recognize scanner.passGap.before scanner.passGap.cursor.rest = .ok lexeme)
    (hkind : lexeme.kind ≠ .eof) (hle : lexeme.length ≤ scanner.passGap.cursor.rest.length) :
    ∃ behind, scanner.read = (.ok (scanner.passGap.cursor.token lexeme), behind) ∧
      behind.phase = .program ∧ behind.cursor = scanner.passGap.cursor.advanceBy lexeme.length ∧
      behind.before = scanner.passGap.before.passToken lexeme scanner.passGap.cursor.rest := by
  refine ⟨scanner.passGap.passLexeme lexeme, ?_, ?_, rfl, before_passLexeme hle⟩
  · rw [read_of_program hphase, readProgram_of_lexeme hlexeme hkind]
    rfl
  · show (if _ then scanner.phase else Phase.program) = .program
    rw [hphase, ite_self]

theorem read_eof {scanner : Scanner} (hphase : scanner.phase = .program)
    (hrest : scanner.passGap.cursor.rest = []) :
    scanner.read = (.ok (scanner.passGap.cursor.token ⟨.eof, 0⟩), scanner.passGap) := by
  rw [read_of_program hphase, readProgram_of_nil hrest]
  rfl

/-- A scanner reads what has been seen before a closing brace if its text ends there. -/
theorem reads_of_sees {token : Before → List Char → Except LexicalFault Lexeme}
    (hnarrows : Narrows token Lexeme.recognize) (hprogress : Replacement.Progresses token)
    {front tail : List Char} {outer : Cursor} {position : Nat} {state : Replacement.State}
    {seen : List (Nat × Lexeme)} {innerStop : Nat}
    (h : Replacement.Sees token (front ++ '\x7d' :: tail) position state seen innerStop)
    (hstop : innerStop = front.length) {scanner : Scanner} (hphase : scanner.phase = .program)
    (hrest : scanner.cursor.rest = front.drop position)
    (hpart : scanner.cursor.IsPartOf (outer.advanceBy position))
    (halike : state.before.Alike scanner.before) :
    scanner.Reads (outer.tokensSeen seen innerStop) := by
  have hdrop : ∀ {position : Nat} (back : List Char), position ≤ front.length →
      (front ++ back).drop position = front.drop position ++ back :=
    fun back hle => List.drop_append_of_le_length hle
  induction h generalizing scanner with
  | @close position state length htoken hdepth =>
    have hle : position ≤ front.length := by omega
    have hgap : Gap.length ((front ++ '\x7d' :: tail).drop position) =
        Gap.length (front.drop position) := by
      rw [hdrop _ hle, Gap.length_append (closed_cons tail)]
    rw [hgap] at hstop ⊢
    have hend : scanner.passGap.cursor.rest = [] := by
      rw [rest_passGap, hrest, List.drop_drop, hstop, List.drop_length]
    have hplace : scanner.passGap.cursor.IsPartOf
        (outer.advanceBy (position + Gap.length (front.drop position))) := by
      rw [Cursor.advanceBy_add, passGap, hrest]
      exact hpart.advanceBy (by rw [hrest]; exact Gap.length_le _)
    have hread := read_eof hphase hend
    rw [hplace.token (Nat.zero_le _)] at hread
    exact .last hread rfl
  | @token position state lexeme seen innerStop htoken hkind hopen hseen ih =>
    have hlt := hseen.lt hprogress
    have hpos := (hprogress htoken hkind).2
    have hle : position ≤ front.length := by omega
    have hahead : Gap.length (front.drop position ++ '\x7d' :: tail) + lexeme.length ≤
        (front.drop position).length := by
      rw [← hdrop _ hle, List.length_drop]
      omega
    have hgap := Gap.length_append (closed_cons tail) (front.drop position)
    rw [← List.drop_drop, hdrop _ hle] at htoken
    have hlexeme := hnarrows.behindGap halike closed_nil htoken hpos hahead
    have hstate : state.Alike ⟨state.depth, scanner.before⟩ := ⟨rfl, halike⟩
    have hbehind := (hstate.behind closed_nil hahead).before
    rw [List.append_nil, ← hrest, ← before_passGap, ← rest_passGap] at hlexeme
    rw [List.append_nil] at hbehind
    rw [hgap] at hahead
    have hgapLe : Gap.length (front.drop position) ≤ scanner.cursor.rest.length := by
      rw [hrest]
      exact Gap.length_le _
    have hlength : lexeme.length ≤ scanner.passGap.cursor.rest.length := by
      rw [rest_passGap, hrest, List.length_drop]
      omega
    have hplace : scanner.passGap.cursor.IsPartOf
        (outer.advanceBy (position + Gap.length (front.drop position))) := by
      rw [Cursor.advanceBy_add, passGap, hrest]
      exact hpart.advanceBy hgapLe
    obtain ⟨behind, hread, hphase', hcursor, hbefore⟩ :=
      read_lexeme hphase hlexeme hkind hlength
    rw [hplace.token hlength] at hread
    rw [hdrop _ hle, hgap] at ih ⊢
    refine .more hread hkind (ih hstop hphase' ?_ ?_ ?_)
    · rw [hcursor, Cursor.rest_advanceBy, rest_passGap, hrest, List.drop_drop, List.drop_drop,
        Nat.add_assoc]
    · rw [hcursor, Cursor.advanceBy_add]
      exact hplace.advanceBy hlength
    · have hsame : (Replacement.State.behind ⟨state.depth, scanner.before⟩ lexeme
          (front.drop position)).before = behind.before := by
        rw [hbefore, before_passGap, rest_passGap, hrest]
        rfl
      rw [← hsame]
      exact hbehind

end Scanner

/-! ### The pieces of a format string -/

namespace FormatBody

variable {replacement : Option TokenKind → List Char → Except LexicalFault Replacement}
  {text : List Char} {before : Option TokenKind}

/-- Where a part of a format string comes from: it ends before a place, and a replacement has
been read where it starts. -/
def PartIsRead (replacement : Option TokenKind → List Char → Except LexicalFault Replacement)
    (text : List Char) (position : Nat) : FormatPart → Prop
  | .text start stop => start ≤ stop ∧ stop ≤ position
  | .replacement start innerStop stop => (text.drop start).head? = some '\x7b' ∧ stop ≤ position ∧
      ∃ previous found, replacement previous (text.drop start) = .ok found ∧
        innerStop = start + found.innerStop ∧ stop = start + found.length

theorem PartIsRead.mono {part : FormatPart} {position position' : Nat}
    (h : PartIsRead replacement text position part) (hle : position ≤ position') :
    PartIsRead replacement text position' part := by
  cases part with
  | text start stop => exact ⟨h.1, Nat.le_trans h.2 hle⟩
  | replacement start innerStop stop => exact ⟨h.1, Nat.le_trans h.2.1 hle, h.2.2⟩

theorem Parts.areRead {parts : List FormatPart} {previous : Option TokenKind} {position : Nat}
    (h : Parts replacement text before parts previous position) :
    ∀ part ∈ parts, PartIsRead replacement text position part := by
  induction h with
  | nil => simp
  | text hparts hlt _ _ ih =>
    refine List.forall_mem_cons.mpr ⟨⟨Nat.le_of_lt hlt, Nat.le_refl _⟩, fun part hpart => ?_⟩
    exact (ih part hpart).mono (Nat.le_of_lt hlt)
  | @replacement parts previous start found hparts hopening hfound ih =>
    refine List.forall_mem_cons.mpr
      ⟨⟨hopening, Nat.le_refl _, previous, found, hfound, rfl, rfl⟩, fun part hpart => ?_⟩
    exact (ih part hpart).mono (Nat.le_add_right _ _)

open Lexeme in
/-- A format string is read again from its own text, with all levels left. -/
theorem read_again {levels : Nat} (hlevels : levels ≤ mostLevels) {before before' : Before}
    {body : FormatBody} (hbody : read (Lexeme.replacement levels) before text = .ok body) :
    read (Lexeme.replacement mostLevels) before' (text.take body.length) = .ok body := by
  have hlength : (text.take body.length).length = body.length := by
    rw [List.length_take, Nat.min_eq_left (parts_of_read hbody).length_le]
  rw [← List.take_append_drop body.length text] at hbody
  have hread : read (Lexeme.replacement mostLevels) before' (text.take body.length ++ []) =
      .ok body :=
    read_within (agrees_replacement hlevels) hbody (Nat.le_of_eq hlength.symm)
  rwa [List.append_nil] at hread

end FormatBody

/-- What lies between the braces of a replacement is read again, by a scanner of its own, and
the tokens are those that have been seen when its end was looked for. -/
def FormatPart.IsReread (levels : Nat) (cursor : Cursor) : FormatPart → Prop
  | .text _ _ => True
  | .replacement start innerStop _ =>
    ∃ levels' seen, levels = levels' + 1 ∧
      Replacement.Sees (Lexeme.recognizeWith (Lexeme.replacement levels'))
        (cursor.rest.drop start) 1
        (.opening (cursor.rest.drop start)) seen (innerStop - start) ∧
      (Scanner.within ((cursor.rest.take innerStop).drop (start + 1))
        (cursor.spanBetween (start + 1) innerStop)).tokens? =
          .ok ((cursor.advanceBy start).tokensSeen seen (innerStop - start))

/-- A part is the same piece for a cursor that does not see what is behind it. -/
theorem FormatPart.piece_eq {replacement : Option TokenKind → List Char →
      Except LexicalFault Replacement} {inner outer : Cursor} {part : FormatPart} {position : Nat}
    (hpart : inner.IsPartOf outer) (h : FormatBody.PartIsRead replacement outer.rest position part)
    (hle : position ≤ inner.rest.length) : part.piece inner = part.piece outer := by
  cases part with
  | text start stop =>
    obtain ⟨hstart, hstop⟩ : start ≤ stop ∧ stop ≤ position := h
    rw [piece, piece, hpart.take (by omega), hpart.spanBetween (by omega) (by omega)]
  | replacement start innerStop stop =>
    obtain ⟨-, hstop, previous, found, -, rfl, rfl⟩ := h
    rw [Replacement.length] at hstop ⊢
    rw [piece, piece, hpart.take (by omega), hpart.spanBetween (by omega) (by omega),
      hpart.spanBetween (by omega) (by omega)]

open Lexeme in
/-- A replacement is read again as it has been read first. -/
theorem FormatPart.isReread {levels position : Nat} (hlevels : levels ≤ mostLevels)
    {cursor : Cursor} {part : FormatPart}
    (h : FormatBody.PartIsRead (Lexeme.replacement levels) cursor.rest position part) :
    part.IsReread levels cursor := by
  cases part with
  | text start stop => trivial
  | replacement start innerStop stop =>
    obtain ⟨hopening, -, previous, found, hfound, rfl, rfl⟩ := h
    cases levels with
    | zero => simp [Lexeme.replacement] at hfound
    | succ levels =>
      have hprogress := Replacement.progresses_recognizeWith (Lexeme.replacement levels)
      obtain ⟨seen, hseen⟩ := Replacement.sees_of_read hprogress hfound
      have hbounds := hseen.lt hprogress
      obtain ⟨tail, htail⟩ := hseen.closing
      refine ⟨levels, seen, rfl, by rwa [Nat.add_sub_cancel_left], ?_⟩
      -- The text is cut at the closing brace, and the scanner starts behind the opening one.
      have hcut : cursor.rest.drop start =
          (cursor.rest.drop start).take found.innerStop ++ '\x7d' :: tail := by
        rw [← htail, List.take_append_drop]
      have hinner : (cursor.rest.take (start + found.innerStop)).drop (start + 1) =
          ((cursor.rest.drop start).take found.innerStop).drop 1 := by
        rw [List.drop_take, List.drop_take, List.drop_drop]
        congr 1
        omega
      have hplace := Cursor.isPartOf_within cursor (start + 1) (start + found.innerStop)
      rw [Cursor.advanceBy_add] at hplace
      have halike : (Replacement.State.opening (cursor.rest.drop start)).before.Alike
          ⟨some .lParen, none⟩ := by
        rw [Replacement.State.opening, hopening]
        exact ⟨rfl, rfl, rfl⟩
      have hnarrows : Narrows (recognizeWith (Lexeme.replacement levels)) recognize :=
        narrows_recognizeWith (agrees_replacement (Nat.le_of_succ_le hlevels))
      generalize Replacement.State.opening (cursor.rest.drop start) = state at hseen halike
      rw [hcut] at hseen
      rw [Nat.add_sub_cancel_left]
      refine Scanner.tokens?_of_reads rfl ?_
      refine Scanner.reads_of_sees hnarrows hprogress hseen ?_ rfl hinner hplace halike
      rw [List.length_take]
      omega

open Lexeme in
/-- The pieces of a format string are those that its end has been found by, and what lies
between the braces of each is read again as it has been read first. -/
theorem Token.rereads {levels : Nat} (hlevels : levels ≤ mostLevels) {cursor : Cursor}
    {before : Before} {body : FormatBody}
    (hbody : FormatBody.read (Lexeme.replacement levels) before cursor.rest = .ok body)
    {token : Token} (htext : token.text.toList = cursor.rest.take body.length)
    (hplace : (Cursor.within token.text.toList token.span).IsPartOf cursor) :
    token.formatPieces = .ok (body.parts.map (·.piece cursor)) ∧
      ∀ part ∈ body.parts, part.IsReread levels cursor := by
  have hends := FormatBody.parts_of_read hbody
  have hle := hends.length_le
  obtain ⟨previous, hparts⟩ := hends.parts
  have hareRead : ∀ part ∈ body.parts, FormatBody.PartIsRead (Lexeme.replacement levels)
      cursor.rest (body.length - 1) part :=
    fun part hpart => hparts.areRead part (List.mem_reverse.mpr hpart)
  have hlength : token.text.toList.length = body.length := by
    rw [htext, List.length_take, Nat.min_eq_left hle]
  have hagain : FormatBody.read (Lexeme.replacement mostLevels)
      (Scanner.within token.text.toList token.span).before token.text.toList = .ok body := by
    rw [htext]
    exact FormatBody.read_again hlevels hbody
  refine ⟨?_, fun part hpart => FormatPart.isReread hlevels (hareRead part hpart)⟩
  have hpieces : body.parts.map (·.piece (Cursor.within token.text.toList token.span)) =
      body.parts.map (·.piece cursor) := by
    refine List.map_congr_left fun part hpart => ?_
    refine FormatPart.piece_eq hplace (hareRead part hpart) ?_
    show body.length - 1 ≤ token.text.toList.length
    omega
  rw [← hpieces]
  unfold Token.formatPieces
  dsimp only
  rw [show (Scanner.within token.text.toList token.span).cursor.rest = token.text.toList from rfl,
    hagain]
  rfl

end PipelineLang
