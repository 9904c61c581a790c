import PipelineLang.Proofs.Grammar.Containment
import PipelineLang.Proofs.Grammar.Everywhere
import PipelineLang.Proofs.Rereading

/-!
# The segments of format strings

The segments of a format string tile what is between its quotes: each starts where the one
before it stops, and nothing is left out.

## Main definitions

- `Span.Tiles` — spans that lie one right behind another
- `Expr.segments` — the segments of a format string
- `Segment.StandsIn`, `Expr.IsTiled` — where they are

## Main results

- `FormatBody.Parts.tiles` — what is read of a format string tiles what has been passed
- `Token.IsRecognized.tiled` — the pieces of a token tile it
- `Program.segments_tile` — the segments of all format strings of a program

## Design notes

What lies between the braces of a replacement is read by a scanner of its own, which says
where its tokens are in the whole source. So the same holds of the format strings in it.
-/

namespace PipelineLang

/-! ### Tilings -/

namespace Span

/-- Spans lie one right behind another, from the byte `start` up to the byte `stop`. -/
def Tiles : List Span → (start stop : Nat) → Prop
  | [], start, stop => start = stop
  | span :: spans, start, stop =>
    span.start = start ∧ span.start < span.stop ∧ Tiles spans span.stop stop

theorem Tiles.concat {spans : List Span} {span : Span} {start stop : Nat}
    (h : Tiles spans start stop) (hstart : span.start = stop) (hlt : span.start < span.stop) :
    Tiles (spans ++ [span]) start span.stop := by
  induction spans generalizing start with
  | nil => exact ⟨hstart.trans (Eq.symm h), hlt, rfl⟩
  | cons first spans ih =>
    obtain ⟨hfirst, hnonempty, hrest⟩ := h
    exact ⟨hfirst, hnonempty, ih hrest⟩

theorem Covers.lt {source text : List Char} {span : Span} (h : span.Covers source text)
    (hne : text ≠ []) : span.start < span.stop := by
  obtain ⟨c, text, rfl⟩ := List.exists_cons_of_ne_nil hne
  obtain ⟨front, back, -, hstart, hstop⟩ := h
  have hpos := Char.utf8Size_pos c
  rw [hstart, hstop, byteCount_append, byteCount_cons]
  omega

end Span

/-! ### Pieces -/

/-- Whether a piece is text. -/
def FormatPiece.IsText : FormatPiece → Prop
  | .text _ _ => True
  | .replacement _ _ _ => False

/-- Text stands where the piece says; of a replacement its braces stand there, and what is
between them. -/
def FormatPiece.IsExact (source : List Char) : FormatPiece → Prop
  | .text raw span => raw ≠ [] ∧ span.Covers source raw
  | .replacement inner innerSpan span => innerSpan.Covers source inner ∧
      span.Covers source ('\x7b' :: (inner ++ ['\x7d'])) ∧
      span.start < innerSpan.start ∧ innerSpan.stop < span.stop

theorem FormatPiece.IsExact.beyond {source : List Char} {piece : FormatPiece}
    (h : piece.IsExact source) (more : List Char) : piece.IsExact (source ++ more) := by
  cases piece with
  | text => exact ⟨h.1, h.2.beyond more⟩
  | replacement => exact ⟨h.1.beyond more, h.2.1.beyond more, h.2.2⟩

theorem FormatPiece.IsExact.lt {source : List Char} {piece : FormatPiece}
    (h : piece.IsExact source) : piece.span.start < piece.span.stop := by
  cases piece with
  | text => exact h.2.lt h.1
  | replacement => exact h.2.1.lt (List.cons_ne_nil _ _)

theorem isText_piece (part : FormatPart) (cursor : Cursor) :
    (part.piece cursor).IsText = FormatBody.IsText part := by
  cases part <;> rfl

theorem Cursor.StandsIn.offset_lt {source : List Char} {here : Cursor} (h : here.StandsIn source)
    {m n : Nat} (hlt : m < n) (hle : n ≤ here.rest.length) :
    (here.advanceBy m).offset < (here.advanceBy n).offset :=
  (h.covers_between (Nat.le_of_lt hlt)).lt (by
    rw [Ne, List.drop_eq_nil_iff, List.length_take]
    omega)

/-- A replacement ends with a closing brace. -/
theorem Lexeme.replacement_closing {levels : Nat} {previous : Option TokenKind}
    {text : List Char} {found : Replacement}
    (h : Lexeme.replacement levels previous text = .ok found) :
    ∃ tail, text.drop found.innerStop = '\x7d' :: tail := by
  cases levels with
  | zero => simp [Lexeme.replacement] at h
  | succ levels =>
    obtain ⟨seen, hseen⟩ :=
      Replacement.sees_of_read (Replacement.progresses_recognizeWith _) h
    exact hseen.closing

/-- A replacement stands in a text with its braces. -/
theorem take_replacement {levels start : Nat} {previous : Option TokenKind} {text : List Char}
    {found : Replacement} (hopening : (text.drop start).head? = some '\x7b')
    (hfound : Lexeme.replacement levels previous (text.drop start) = .ok found) :
    (text.take (start + found.length)).drop start =
      '\x7b' :: ((text.take (start + found.innerStop)).drop (start + 1) ++ ['\x7d']) := by
  obtain ⟨hpos, hlt⟩ := Lexeme.replacement_bounds hfound
  obtain ⟨tail, hclosing⟩ := Lexeme.replacement_closing hfound
  obtain ⟨rest, hrest⟩ := List.head?_eq_some_iff.mp hopening
  have hinner : (text.take (start + found.innerStop)).drop (start + 1) =
      rest.take (found.innerStop - 1) := by
    rw [List.drop_take, ← List.drop_drop, hrest, List.drop_one, List.tail_cons]
    congr 1
    omega
  rw [hinner, List.drop_take, Nat.add_sub_cancel_left, Replacement.length, List.take_add,
    hclosing, hrest, List.take_succ_cons, List.take_zero]
  obtain ⟨n, hn⟩ := Nat.exists_eq_add_of_le' hpos
  rw [hn, List.take_succ_cons, Nat.add_sub_cancel, List.cons_append]

namespace FormatBody

variable {levels : Nat} {text source : List Char} {before previous : Option TokenKind}
  {parts : List FormatPart} {position : Nat} {cursor : Cursor}

/-- What is read of a format string is exact, and it tiles what has been passed. -/
theorem Parts.tiles (h : Parts (Lexeme.replacement levels) text before parts previous position)
    (hcursor : cursor.StandsIn source) (htext : cursor.rest = text) (hle : position ≤ text.length) :
    (∀ part ∈ parts, (part.piece cursor).IsExact source) ∧
      Span.Tiles (parts.reverse.map fun part => (part.piece cursor).span)
        (cursor.advanceBy (Cursor.charactersBefore openingBytes text)).offset
        (cursor.advanceBy position).offset := by
  induction h with
  | nil => exact ⟨by simp, rfl⟩
  | @text parts previous start stop hparts hlt hskims hapart ih =>
    obtain ⟨hexact, htiles⟩ := ih (by omega)
    have hpiece : (FormatPart.piece cursor (.text start stop)).IsExact source := by
      refine ⟨?_, hcursor.covers_between (Nat.le_of_lt hlt)⟩
      rw [htext, Ne, List.drop_eq_nil_iff, List.length_take]
      omega
    rw [List.reverse_cons, List.map_append]
    exact ⟨List.forall_mem_cons.mpr ⟨hpiece, hexact⟩, htiles.concat rfl hpiece.lt⟩
  | @replacement parts previous start found hparts hopening hfound ih =>
    have hbounds := Lexeme.replacement_bounds hfound
    rw [Replacement.length] at hle
    obtain ⟨hexact, htiles⟩ := ih (by omega)
    have hpiece : (FormatPart.piece cursor (.replacement start (start + found.innerStop)
        (start + found.length))).IsExact source := by
      have hlength : start + found.length = start + found.innerStop + 1 := rfl
      refine ⟨hcursor.covers_between (by omega), ?_,
        hcursor.offset_lt (Nat.lt_succ_self start) (by rw [htext]; omega),
        hcursor.offset_lt (Nat.lt_succ_self _) (by rw [htext]; omega)⟩
      rw [← htext] at hopening hfound
      rw [← take_replacement hopening hfound]
      exact hcursor.covers_between (Nat.le_add_right _ _)
    rw [List.reverse_cons, List.map_append]
    exact ⟨List.forall_mem_cons.mpr ⟨hpiece, hexact⟩, htiles.concat rfl hpiece.lt⟩

/-- No text is next to other text. -/
theorem Parts.apart (h : Parts (Lexeme.replacement levels) text before parts previous position) :
    parts.IsChain fun part later => ¬ (IsText part ∧ IsText later) := by
  induction h with
  | nil => exact .nil
  | text _ _ _ hapart ih =>
    exact List.isChain_cons.mpr ⟨fun part hpart h => hapart part hpart h.2, ih⟩
  | replacement _ _ _ ih => exact List.isChain_cons.mpr ⟨fun _ _ h => h.1, ih⟩

theorem Parts.opening_le
    (h : Parts (Lexeme.replacement levels) text before parts previous position) :
    Cursor.charactersBefore openingBytes text ≤ position := by
  induction h with
  | nil => exact Nat.le_refl _
  | text _ hlt _ _ ih => exact ih.trans (Nat.le_of_lt hlt)
  | replacement _ _ _ ih => exact ih.trans (Nat.le_add_right _ _)

theorem charactersBefore_opening (tail : List Char) :
    Cursor.charactersBefore openingBytes ('f' :: '\x22' :: tail) = 2 :=
  Cursor.charactersBefore_byteCount ['f', '\x22'] tail

/-- A format string is what is between its quotes, with its mark and its quotes. -/
theorem take_body {before : Before} {body : FormatBody} {tail : List Char}
    (h : read (Lexeme.replacement levels) before ('f' :: '\x22' :: tail) = .ok body) :
    ∃ inner, ('f' :: '\x22' :: tail).take body.length = 'f' :: '\x22' :: (inner ++ ['\x22']) := by
  obtain ⟨hpos, ⟨previous, hparts⟩, hclosing⟩ := parts_of_read h
  have hle := hparts.opening_le
  rw [charactersBefore_opening] at hle
  obtain ⟨n, hn⟩ : ∃ n, body.length = n + 3 := ⟨body.length - 3, by omega⟩
  rw [hn] at hclosing ⊢
  obtain ⟨rest, hrest⟩ := List.head?_eq_some_iff.mp hclosing
  have hdrop : tail.drop n = '\x22' :: rest := hrest
  refine ⟨tail.take n, ?_⟩
  rw [List.take_succ_cons, List.take_succ_cons, List.take_add, hdrop]
  rfl

end FormatBody

/-! ### Tokens -/

/-- A format string token is cut into pieces that tile what is between its quotes. -/
theorem Token.IsRecognized.tiled {source : List Char} {token : Token} (h : token.IsRecognized)
    (hstands : token.StandsIn source) (hkind : token.kind = .formatString)
    {pieces : List FormatPiece} (hpieces : token.formatPieces = .ok pieces) :
    (∃ inner, token.span.Covers source ('f' :: '\x22' :: (inner ++ ['\x22']))) ∧
      Span.Tiles (pieces.map (·.span)) (token.span.start + 2) (token.span.stop - 1) ∧
      (∀ piece ∈ pieces, piece.IsExact source) ∧
      pieces.IsChain fun piece later => ¬ (piece.IsText ∧ later.IsText) := by
  obtain ⟨before, rest, lexeme, hlexeme, hsame, htext⟩ := h (by simp [hkind, readAgain])
  obtain ⟨tail, body, rfl, hbody, hlength⟩ :=
    Lexeme.format_of_recognized (Lexeme.recognized_of_ok hlexeme) (hsame.symm.trans hkind)
  rw [hlength] at htext
  obtain ⟨inner, hinner⟩ := FormatBody.take_body hbody
  have hagain : FormatBody.read (Lexeme.replacement Lexeme.mostLevels)
      (Scanner.within token.text.toList token.span).before token.text.toList = .ok body := by
    rw [htext]
    exact FormatBody.read_again (Nat.le_refl _) hbody
  have hsame : token.formatPieces =
      .ok (body.parts.map (·.piece (Cursor.within token.text.toList token.span))) := by
    unfold Token.formatPieces
    dsimp only
    rw [show (Scanner.within token.text.toList token.span).cursor.rest = token.text.toList from rfl,
      hagain]
    rfl
  obtain rfl := Except.ok.inj (hsame.symm.trans hpieces)
  obtain ⟨hpos, ⟨previous, hparts⟩, -⟩ := FormatBody.parts_of_read hagain
  have hcovers := hstands.covers
  have hlengthText : token.text.toList.length = body.length := by
    rw [htext, List.length_take, Nat.min_eq_left (FormatBody.parts_of_read hbody).length_le]
  generalize htokenText : token.text.toList = text at *
  rw [hinner] at htext
  obtain ⟨part, beyond, rfl, hstop, hcursor⟩ := Cursor.standsIn_within hcovers
  obtain ⟨hexact, htiles⟩ := hparts.tiles hcursor rfl (by omega)
  have hapart := hparts.apart
  rw [List.reverse_reverse] at htiles
  refine ⟨⟨inner, htext ▸ hcovers⟩, ?_, ?_, ?_⟩
  · have hstart : ((Cursor.within text token.span).advanceBy 2).offset = token.span.start + 2 := by
      rw [Cursor.offset_advanceBy, htext]
      rfl
    have hend : ((Cursor.within text token.span).advanceBy (body.length - 1)).offset =
        token.span.stop - 1 := by
      obtain ⟨front, back, -, hfirst, hlast⟩ := hcovers
      have htake : text.take (body.length - 1) = 'f' :: '\x22' :: inner := by
        rw [← hlengthText, htext, ← List.dropLast_eq_take, ← List.cons_append, ← List.cons_append,
          List.dropLast_concat]
      rw [Cursor.offset_advanceBy]
      show token.span.start + byteCount (text.take (body.length - 1)) = _
      rw [htake, hlast, hfirst, htext, byteCount_append]
      simp only [byteCount_cons, byteCount_append, byteCount_nil]
      have hquote : Char.utf8Size '\x22' = 1 := rfl
      omega
    rw [List.map_map, ← hstart, ← hend, ← FormatBody.charactersBefore_opening
      (inner ++ ['\x22']), ← htext]
    exact htiles
  · intro piece hpiece
    obtain ⟨part', hpart, rfl⟩ := List.mem_map.mp hpiece
    exact (hexact part' (List.mem_reverse.mpr hpart)).beyond beyond
  · rw [List.isChain_map]
    refine (List.isChain_reverse.mp hapart).imp fun part later h => ?_
    rw [isText_piece, isText_piece]
    exact fun hboth => h hboth.symm

/-! ### Segments -/

/-- Whether a segment is text. -/
def Segment.IsText : Segment → Prop
  | .text _ _ _ => True
  | .replacement _ _ => False

/-- Text is not empty and stands where the segment says. A replacement has its braces there,
and its expression lies between them. -/
def Segment.StandsIn (source : List Char) : Segment → Prop
  | .text raw _ span => raw ≠ "" ∧ span.Covers source raw.toList
  | .replacement value span => (∃ inner, span.Covers source ('\x7b' :: (inner ++ ['\x7d']))) ∧
      span.start < value.span.start ∧ value.span.stop < span.stop

/-- The segments of a format string tile what is between its quotes. -/
structure Span.IsTiledBy (source : List Char) (segments : List Segment) (span : Span) : Prop where
  /-- The format string has its mark and its quotes. -/
  quoted : ∃ inner, span.Covers source ('f' :: '\x22' :: (inner ++ ['\x22']))
  /-- Its segments lie one right behind another, from behind the opening quote up to the
  closing one. -/
  tiles : Span.Tiles (segments.map (·.span)) (span.start + 2) (span.stop - 1)
  stand : ∀ segment ∈ segments, segment.StandsIn source
  /-- No text is next to other text. -/
  apart : segments.IsChain fun segment later => ¬ (segment.IsText ∧ later.IsText)

/-- The segments of a format string. -/
def Expr.segments : Expr → List Segment
  | .format segments _ => segments
  | _ => []

theorem Expr.exists_eq_format {value : Expr} (h : value.segments ≠ []) :
    ∃ segments span, value = .format segments span := by
  cases value with
  | format segments span => exact ⟨segments, span, rfl⟩
  | _ => exact absurd rfl h

/-- If an expression is a format string, its segments tile it. -/
def Expr.IsTiled (source : List Char) : Expr → Prop
  | .format segments span => span.IsTiledBy source segments
  | _ => True

namespace Grammar

variable {source : List Char} {depth : Nat}

/-- The expression of a replacement lies where its tokens do. -/
theorem span_of_replacement {tokens : List Token} {value : Expr}
    (h : ReplacementOf (nestedTo depth) tokens value) {low high : Nat}
    (hbetween : ∀ token ∈ tokens, low ≤ token.span.start ∧ token.span.stop ≤ high) :
    low ≤ value.span.start ∧ value.span.stop ≤ high := by
  obtain ⟨-, hvalue, -⟩ := h
  have hlaid := laid_expression (laysAll_nestedTo depth) hvalue
  obtain ⟨⟨first, hfirst, hstart⟩, last, hlast, hstop⟩ := hlaid.bounds
  rw [span_expr_places] at hstart hstop
  rw [hstart, hstop]
  exact ⟨(hbetween first (by simp [List.mem_of_head? hfirst])).1,
    (hbetween last (by simp [hlast])).2⟩

/-- A segment is of the same sort as its piece, and where it is. -/
theorem SegmentOf.same {nested : Nested} {piece : FormatPiece} {segment : Segment}
    (h : SegmentOf nested piece segment) :
    segment.span = piece.span ∧ segment.IsText = piece.IsText := by
  cases h <;> exact ⟨rfl, rfl⟩

theorem SegmentOf.standsIn {piece : FormatPiece} {segment : Segment}
    (h : SegmentOf (nestedTo depth) piece segment) (hpiece : piece.IsExact source) :
    segment.StandsIn source := by
  cases h with
  | text =>
    obtain ⟨hne, hcovers⟩ := hpiece
    refine ⟨fun hempty => hne ?_, ?_⟩
    · have hnil := congrArg String.toList hempty
      rwa [String.toList_ofList, String.toList_empty] at hnil
    · rwa [String.toList_ofList]
  | @replacement inner innerSpan span tokens value htokens hvalue =>
    obtain ⟨hinner, hcovers, hstart, hstop⟩ := hpiece
    have hplace : (FormatPiece.replacement inner innerSpan innerSpan).StandsIn source :=
      ⟨hinner, Nat.le_refl _, Nat.le_refl _⟩
    obtain ⟨hlow, hhigh⟩ := span_of_replacement hvalue fun token htoken =>
      (hplace.tokens htokens).2 token ((TokenStream.rest_ofTokens_sublist tokens).subset htoken)
    exact ⟨⟨inner, hcovers⟩, Nat.lt_of_lt_of_le hstart hlow, Nat.lt_of_le_of_lt hhigh hstop⟩

theorem SegmentsOf.same {nested : Nested} {pieces : List FormatPiece} {segments : List Segment}
    (h : SegmentsOf nested pieces segments) :
    segments.map (·.span) = pieces.map (·.span) ∧
      segments.map (·.IsText) = pieces.map (·.IsText) := by
  induction h with
  | nil => exact ⟨rfl, rfl⟩
  | cons hsegment _ ih =>
    simp only [List.map_cons, hsegment.same.1, hsegment.same.2, ih.1, ih.2, and_self]

theorem SegmentsOf.standsIn {pieces : List FormatPiece} {segments : List Segment}
    (h : SegmentsOf (nestedTo depth) pieces segments)
    (hpieces : ∀ piece ∈ pieces, piece.IsExact source) :
    ∀ segment ∈ segments, segment.StandsIn source := by
  induction h with
  | nil => simp
  | cons hsegment _ ih =>
    rw [List.forall_mem_cons] at hpieces ⊢
    exact ⟨hsegment.standsIn hpieces.1, ih hpieces.2⟩

/-- What is known of the tokens of a source, or of a replacement in it. -/
structure AreFound (source : List Char) (tokens : List Token) : Prop where
  ordered : AreOrdered source tokens
  recognized : ∀ token ∈ tokens, token.IsRecognized

theorem AreFound.sublist {tokens others : List Token} (h : AreFound source tokens)
    (hsub : others.Sublist tokens) : AreFound source others :=
  ⟨h.ordered.sublist hsub, fun token htoken => h.recognized token (hsub.subset htoken)⟩

theorem primary_isTiled {before taken ahead : List Token} {value : Expr}
    (h : PrimaryAt (nestedTo depth) before taken ahead value)
    (hfound : AreFound source (before ++ taken ++ ahead)) : value.IsTiled source := by
  cases h with
  | @format _ token _ pieces segments htoken hpieces hsegments =>
    have hmem : token ∈ before ++ [token] ++ ahead := by simp
    obtain ⟨hquoted, htiles, hexact, hapart⟩ := (hfound.recognized token hmem).tiled
      (hfound.ordered.stand token hmem) htoken hpieces
    obtain ⟨hspans, htexts⟩ := hsegments.same
    refine ⟨hquoted, hspans ▸ htiles, hsegments.standsIn hexact, ?_⟩
    have htransfer : ∀ {α : Type} (isText : α → Prop) (items : List α),
        (items.map isText).IsChain (fun a b => ¬ (a ∧ b)) ↔
          items.IsChain fun item later => ¬ (isText item ∧ isText later) :=
      fun isText items => List.isChain_map isText
    rw [← htransfer, htexts, htransfer]
    exact hapart
  | name =>
    rw [nameOrPlaceholder]
    split <;> trivial
  | _ => trivial

/-- The rules for single nodes bring about that segments tile their format strings. -/
theorem local_isTiled (source : List Char) :
    Local (AreFound source) (fun _ => True) (Expr.IsTiled source) where
  context := context_true
  inner {tokens token pieces text span place others} hfound hmem _ hpieces hpiece hothers := by
    have hplace := (((hfound.ordered.stand token hmem).pieces hpieces).1 _ hpiece).1
    have hall : AreFound source others :=
      ⟨(hplace.tokens hothers).1, (Scanner.reads_of_tokens? rfl hothers).isRecognized⟩
    exact hall.sublist (TokenStream.rest_ofTokens_sublist others)
  primary h _ hfound := primary_isTiled h hfound
  suffix {depth before taken ahead receiver suffix} _ _ _ := by cases suffix <;> trivial
  unary _ := trivial
  lambda _ _ _ := trivial
  binary _ _ := trivial

end Grammar

namespace Program

/-- In every program, the segments of each format string tile what is between its quotes, also
of those that lie in replacements of others. Text is not empty, is what the source has at its
place and is not next to other text. A replacement has its braces at its place and its
expression between them. -/
theorem segments_tile (limit : Nat) (source : String) (program : Program)
    (h : ofSource limit source = .ok program) :
    ∀ value ∈ program.expressions, value.All (Expr.IsTiled source.toList) := by
  obtain ⟨tokens, htokens, hprogram⟩ := exists_tokens_of_ok h
  have hreads := Scanner.reads_of_tokenize htokens
  have hfound : Grammar.AreFound source.toList tokens :=
    ⟨(hreads.areOrdered (Cursor.standsIn_ofSource source.toList)).1, hreads.isRecognized⟩
  exact all_of_derivation (Grammar.local_isTiled source.toList) (fun _ => trivial)
    (hfound.sublist (TokenStream.rest_ofTokens_sublist tokens))
    ((ofTokens_takes limit tokens).1 program hprogram)

/-- A format string with a text and a replacement, in which there is another format string. -/
theorem segments_tile_nested : ∃ program segments span,
    ofSource 8 "p f\"a\x7bf\"\x7bx\x7d\"\x7d\"" = .ok program ∧
      .format segments span ∈ program.expressions ∧
      segments.map (fun segment => segment.value?.map fun inner => inner.segments.length) =
        [none, some 1] ∧
      ∀ value ∈ program.expressions,
        value.All (Expr.IsTiled "p f\"a\x7bf\"\x7bx\x7d\"\x7d\"".toList) := by
  have hsegments : (ofSource 8 "p f\"a\x7bf\"\x7bx\x7d\"\x7d\"").toOption.map
      (fun program => program.expressions.map fun value =>
        value.segments.map fun segment => segment.value?.map fun inner => inner.segments.length) =
      some [[none, some 1]] := by decide +kernel
  generalize hprogram : ofSource 8 "p f\"a\x7bf\"\x7bx\x7d\"\x7d\"" = result at hsegments ⊢
  cases result with
  | error error => cases hsegments
  | ok program =>
    rw [Except.toOption, Option.map_some, Option.some.injEq, List.map_eq_singleton_iff] at hsegments
    obtain ⟨value, hvalues, hsegments⟩ := hsegments
    obtain ⟨segments, span, rfl⟩ :=
      value.exists_eq_format fun hnil => by simp [hnil] at hsegments
    refine ⟨program, segments, span, rfl, ?_, hsegments, segments_tile 8 _ program hprogram⟩
    rw [hvalues]
    exact List.mem_singleton_self _

end Program

end PipelineLang
