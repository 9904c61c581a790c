import PipelineLang.Proofs.Grammar.Accuracy
import PipelineLang.Proofs.Token.Rereading

/-!
# Nodes contain their parts

## Main definitions

- `AreOrdered` — tokens stand in a source, one behind another
- `Places.IsNested` — a node contains its parts, which lie one behind another

## Main results

- `Token.StandsIn.pieces` — a format string contains its pieces
- `Places.Laid.nested` — a tree over ordered tokens is nested
- `Program.nested` — so are the trees of programs and of fragments

## Design notes

A node ends with its last token or with its last part. The two differ where that part is a
metadata expression: its place is that of its sign, and the selector in it goes on behind it.
So each node but this one contains its parts, and this one never does.
-/

namespace PipelineLang

open TokenStream Places

/-! ### Tokens in order -/

/-- A text that stands in a source stands in each longer one. -/
theorem Span.Covers.beyond {source text : List Char} {span : Span} (h : span.Covers source text)
    (more : List Char) : span.Covers (source ++ more) text := by
  obtain ⟨front, back, rfl, hstart, hstop⟩ := h
  exact ⟨front, back ++ more, by simp, hstart, hstop⟩

theorem Token.StandsIn.beyond {source : List Char} {token : Token} (h : token.StandsIn source)
    (more : List Char) : token.StandsIn (source ++ more) :=
  { h with covers := h.covers.beyond more }

theorem Span.Covers.stop_le {source text : List Char} {span : Span} (h : span.Covers source text) :
    span.stop ≤ byteCount source := by
  obtain ⟨front, back, rfl, -, hstop⟩ := h
  rw [hstop, ← List.append_assoc, byteCount_append _ back]
  exact Nat.le_add_right _ _

/-- Tokens stand in a source, one behind another. -/
structure AreOrdered (source : List Char) (tokens : List Token) : Prop where
  stand : ∀ token ∈ tokens, token.StandsIn source
  ordered : tokens.Pairwise fun token later => token.span.stop ≤ later.span.start
  nonempty : ∀ token ∈ tokens, token.kind ≠ .eof → token.span.start < token.span.stop

namespace AreOrdered

variable {source : List Char} {tokens others : List Token}

theorem sublist (h : AreOrdered source tokens) (hsub : others.Sublist tokens) :
    AreOrdered source others :=
  ⟨fun token htoken => h.stand token (hsub.subset htoken), h.ordered.sublist hsub,
    fun token htoken => h.nonempty token (hsub.subset htoken)⟩

theorem start_le (h : AreOrdered source tokens) {first token : Token}
    (hfirst : tokens.head? = some first) (htoken : token ∈ tokens) :
    first.span.start ≤ token.span.start := by
  obtain ⟨rest, rfl⟩ := List.head?_eq_some_iff.mp hfirst
  obtain rfl | hmem := List.mem_cons.mp htoken
  · exact Nat.le_refl _
  · have hle := (h.stand first List.mem_cons_self).covers.le
    have hordered := (List.pairwise_cons.mp h.ordered).1 token hmem
    omega

theorem le_stop (h : AreOrdered source tokens) {last token : Token}
    (hlast : tokens.getLast? = some last) (htoken : token ∈ tokens) :
    token.span.stop ≤ last.span.stop := by
  obtain ⟨front, rfl⟩ := List.getLast?_eq_some_iff.mp hlast
  obtain hmem | hmem := List.mem_append.mp htoken
  · have hle := (h.stand last (by simp)).covers.le
    have hordered := (List.pairwise_append.mp h.ordered).2.2 token hmem last (by simp)
    omega
  · obtain rfl := List.mem_singleton.mp hmem
    exact Nat.le_refl _

end AreOrdered

/-- The tokens of a scanner are ordered, and none of them starts before the scanner. -/
theorem Scanner.Reads.areOrdered {source : List Char} {scanner : Scanner} {tokens : List Token}
    (h : scanner.Reads tokens) (hsource : scanner.cursor.StandsIn source) :
    AreOrdered source tokens ∧ ∀ token ∈ tokens, scanner.cursor.offset ≤ token.span.start := by
  have hstand := h.standsIn hsource
  obtain ⟨hleading, hgaps, hnonempty, -⟩ := h.gaps hsource
  have hordered : AreOrdered source tokens :=
    ⟨hstand, pairwise_of_gaps (fun token htoken => (hstand token htoken).covers) hgaps, hnonempty⟩
  refine ⟨hordered, fun token htoken => ?_⟩
  obtain ⟨first, hfirst⟩ : ∃ first, tokens.head? = some first :=
    Option.ne_none_iff_exists'.mp fun hnone => by
      rw [List.head?_eq_none_iff.mp hnone] at htoken
      simp at htoken
  exact Nat.le_trans (hleading first hfirst).le (hordered.start_le hfirst htoken)

/-! ### The pieces of a format string -/

namespace Cursor

theorem offset_le_advanceBy (here : Cursor) (n : Nat) :
    here.offset ≤ (here.advanceBy n).offset := by
  rw [offset_advanceBy]
  exact Nat.le_add_right _ _

theorem offset_mono (here : Cursor) {m n : Nat} (hle : m ≤ n) :
    (here.advanceBy m).offset ≤ (here.advanceBy n).offset := by
  obtain ⟨extra, rfl⟩ := Nat.exists_eq_add_of_le hle
  rw [advanceBy_add]
  exact offset_le_advanceBy _ _

/-- The span between two places covers what lies between them. -/
theorem StandsIn.covers_between {source : List Char} {here : Cursor} (h : here.StandsIn source)
    {first last : Nat} (hle : first ≤ last) :
    (here.spanBetween first last).Covers source ((here.rest.take last).drop first) := by
  have hcovers := (h.advanceBy first).covers (last - first)
  rw [rest_advanceBy, ← List.drop_take] at hcovers
  obtain ⟨front, back, hsource, hfirst, hlast⟩ := hcovers
  refine ⟨front, back, hsource, hfirst, ?_⟩
  rw [← hlast]
  simp only [spanBetween, ← advanceBy_add, Nat.add_sub_cancel' hle]

/-- A cursor in a part of a source stands in the source up to the end of that part. -/
theorem standsIn_within {source text : List Char} {span : Span} (h : span.Covers source text) :
    ∃ part beyond, source = part ++ beyond ∧ span.stop = byteCount part ∧
      (within text span).StandsIn part := by
  obtain ⟨front, back, rfl, hstart, hstop⟩ := h
  exact ⟨front ++ text, back, by rw [List.append_assoc], hstop, front, rfl, hstart⟩

end Cursor

/-- What is between the braces of a piece stands there, and the piece contains it. -/
def FormatPiece.StandsIn (source : List Char) : FormatPiece → Prop
  | .text _ _ => True
  | .replacement inner innerSpan span => innerSpan.Covers source inner ∧
      span.start ≤ innerSpan.start ∧ innerSpan.stop ≤ span.stop

theorem FormatPart.standsIn_piece {source : List Char} {cursor : Cursor} {part : FormatPart}
    (h : cursor.StandsIn source) (hordered : FormatBody.PartIsOrdered part) :
    (part.piece cursor).StandsIn source := by
  cases part with
  | text start stop => trivial
  | replacement start innerStop stop =>
    obtain ⟨hinner, hstop⟩ : start + 1 ≤ innerStop ∧ innerStop ≤ stop := hordered
    exact ⟨h.covers_between hinner, cursor.offset_mono (Nat.le_succ start),
      cursor.offset_mono hstop⟩

/-- The pieces of a format string lie one behind another, up to where it has been read. -/
theorem FormatBody.Parts.pieces_ordered {replacement : Option TokenKind → List Char →
      Except LexicalFault Replacement} {text : List Char} {before previous : Option TokenKind}
    {parts : List FormatPart} {position : Nat}
    (h : Parts replacement text before parts previous position) (cursor : Cursor) :
    (∀ part ∈ parts, (part.piece cursor).span.stop ≤ (cursor.advanceBy position).offset) ∧
      parts.Pairwise fun later part =>
        (part.piece cursor).span.stop ≤ (later.piece cursor).span.start := by
  induction h with
  | nil => simp
  | text _ hlt _ _ ih =>
    refine ⟨List.forall_mem_cons.mpr ⟨Nat.le_refl _, fun part hpart => ?_⟩,
      List.pairwise_cons.mpr ih⟩
    exact Nat.le_trans (ih.1 part hpart) (cursor.offset_mono (Nat.le_of_lt hlt))
  | replacement _ _ _ ih =>
    refine ⟨List.forall_mem_cons.mpr ⟨Nat.le_refl _, fun part hpart => ?_⟩,
      List.pairwise_cons.mpr ih⟩
    exact Nat.le_trans (ih.1 part hpart) (cursor.offset_mono (Nat.le_add_right _ _))

/-- A format string contains its pieces, which lie one behind another. -/
theorem Token.StandsIn.pieces {source : List Char} {token : Token} (h : token.StandsIn source)
    {pieces : List FormatPiece} (hpieces : token.formatPieces = .ok pieces) :
    (∀ piece ∈ pieces, piece.StandsIn source ∧ token.span.start ≤ piece.span.start ∧
        piece.span.stop ≤ token.span.stop) ∧
      pieces.Pairwise fun piece later => piece.span.stop ≤ later.span.start := by
  unfold Token.formatPieces at hpieces
  dsimp only at hpieces
  split at hpieces
  · next body hbody =>
    obtain rfl := Except.ok.inj hpieces
    obtain ⟨previous, hparts⟩ := (FormatBody.parts_of_read hbody).parts
    obtain ⟨part, beyond, rfl, hstop, hstands⟩ := Cursor.standsIn_within h.covers
    generalize hcursor : (Scanner.within token.text.toList token.span).cursor = cursor at *
    replace hcursor : Cursor.within token.text.toList token.span = cursor := hcursor
    rw [hcursor] at hstands
    have hend : ∀ n, (cursor.advanceBy n).offset ≤ token.span.stop := by
      intro n
      obtain ⟨passed, hpassed, hoffset⟩ := hstands.advanceBy n
      rw [hstop, hpassed, hoffset, byteCount_append]
      exact Nat.le_add_right _ _
    have hstart : ∀ n, token.span.start ≤ (cursor.advanceBy n).offset := by
      intro n
      rw [← hcursor]
      exact Cursor.offset_le_advanceBy (Cursor.within token.text.toList token.span) n
    have hordered := hparts.ordered (fun _ _ _ hfound => (Lexeme.replacement_bounds hfound).1)
    obtain ⟨-, hpairs⟩ := hparts.pieces_ordered cursor
    rw [List.pairwise_reverse] at hpairs
    refine ⟨fun piece hpiece => ?_, List.pairwise_map.mpr hpairs⟩
    obtain ⟨found, hfound, rfl⟩ := List.mem_map.mp hpiece
    refine ⟨?_, ?_⟩
    · have hpiece :=
        FormatPart.standsIn_piece hstands (hordered found (List.mem_reverse.mpr hfound))
      cases found with
      | text => trivial
      | replacement => exact ⟨hpiece.1.beyond beyond, hpiece.2⟩
    · cases found <;> exact ⟨hstart _, hend _⟩
  · simp at hpieces

/-- The tokens of a replacement lie between its braces. -/
theorem FormatPiece.StandsIn.tokens {source inner : List Char} {innerSpan span : Span}
    (h : (FormatPiece.replacement inner innerSpan span).StandsIn source) {tokens : List Token}
    (htokens : (Scanner.within inner innerSpan).tokens? = .ok tokens) :
    AreOrdered source tokens ∧
      ∀ token ∈ tokens, span.start ≤ token.span.start ∧ token.span.stop ≤ span.stop := by
  obtain ⟨hcovers, hstart, hstop⟩ := h
  obtain ⟨part, beyond, rfl, hend, hstands⟩ := Cursor.standsIn_within hcovers
  obtain ⟨hordered, hfrom⟩ := (Scanner.reads_of_tokens? rfl htokens).areOrdered hstands
  refine ⟨⟨fun token htoken => (hordered.stand token htoken).beyond beyond, hordered.ordered,
    hordered.nonempty⟩, fun token htoken => ⟨Nat.le_trans hstart (hfrom token htoken), ?_⟩⟩
  have hle := (hordered.stand token htoken).covers.stop_le
  omega

/-! ### Trees -/

/-- A node lies where its parts do. -/
structure Places.IsNested (source : List Char) (node : Places) : Prop where
  /-- A name or a literal is what the source has at its place. -/
  word : ∀ text, node.sort = .word text →
    node.parts = [] ∧ node.span.Covers source text.toList
  /-- No part starts before the node. -/
  start_le : ∀ part ∈ node.parts, node.span.start ≤ part.span.start
  /-- No part stops behind the node, unless the node is a metadata expression. -/
  le_stop : node.sort ≠ .metadata → ∀ part ∈ node.parts, part.span.stop ≤ node.span.stop
  /-- Such an expression is where its sign is, and the selector in it goes on behind it. -/
  metadata : node.sort = .metadata →
    ∃ selector, node.parts = [selector] ∧ node.span.stop < selector.span.stop
  /-- The parts lie one behind another. -/
  ordered : node.parts.Pairwise fun part later => part.span.stop ≤ later.span.start
  /-- A path has names, and a pipeline has statements. -/
  nonempty : node.sort ∈ [.path, .pipeline] → node.parts ≠ []
  /-- An arm has patterns. -/
  patterns : ∀ count, node.sort = .arm count → 0 < count

namespace Places

variable {source : List Char} {taken : List Token} {place : Places} {places : List Places}

/-- A tree starts and stops where tokens under it do. -/
theorem Laid.bounds (h : Laid taken place) :
    (∃ first, taken.head? = some first ∧ place.span.start = first.span.start) ∧
      ∃ last ∈ taken, place.span.stop = last.span.stop := by
  obtain ⟨first, last, hfirst, hlast, hspan⟩ := h.runsOver
  rw [hspan]
  exact ⟨⟨first, hfirst, rfl⟩, last, hlast.mem, rfl⟩

/-- What holds of the starts and the stops of all tokens holds of those of the trees. -/
theorem LaidAll.bounds (h : LaidAll taken places) {low high : Nat}
    (hlow : ∀ token ∈ taken, low ≤ token.span.start)
    (hhigh : ∀ token ∈ taken, token.span.stop ≤ high) :
    ∀ place ∈ places, low ≤ place.span.start ∧ place.span.stop ≤ high := by
  induction places generalizing taken with
  | nil => simp
  | cons place places ih =>
    cases h with
    | @cons gap under rest _ _ hplace hplaces =>
      obtain ⟨⟨first, hfirst, hstart⟩, last, hlast, hstop⟩ := hplace.bounds
      rw [List.forall_mem_cons, hstart, hstop]
      refine ⟨⟨hlow first ?_, hhigh last (by simp [hlast])⟩, ih hplaces
        (fun token htoken => hlow token (by simp [htoken]))
        fun token htoken => hhigh token (by simp [htoken])⟩
      simp [List.mem_of_head? hfirst]

/-- Trees lie one behind another, as the tokens under them do. -/
theorem LaidAll.ordered (h : LaidAll taken places) (htaken : AreOrdered source taken) :
    places.Pairwise fun place later => place.span.stop ≤ later.span.start := by
  induction places generalizing taken with
  | nil => exact .nil
  | cons place places ih =>
    cases h with
    | @cons gap under rest _ _ hplace hplaces =>
      have hbehind : AreOrdered source (under ++ rest) :=
        htaken.sublist (List.sublist_append_right _ _)
      have hrest : AreOrdered source rest := hbehind.sublist (List.sublist_append_right _ _)
      refine List.pairwise_cons.mpr ⟨fun later hlater => ?_, ih hplaces hrest⟩
      obtain ⟨-, last, hlast, hstop⟩ := hplace.bounds
      have hlow : ∀ token ∈ rest, place.span.stop ≤ token.span.start := fun token htoken => by
        rw [hstop]
        exact (List.pairwise_append.mp hbehind.ordered).2.2 last hlast token htoken
      have hhigh : ∀ token ∈ rest, token.span.stop ≤ byteCount source :=
        fun token htoken => (hrest.stand token htoken).covers.stop_le
      exact (hplaces.bounds hlow hhigh later hlater).1

/-- Of places that lie one behind another, none stops behind the last one. -/
theorem stop_le_of_ordered {last : Places}
    (h : places.Pairwise fun place later => place.span.stop ≤ later.span.start)
    (hlast : places.getLast? = some last) (hle : last.span.start ≤ last.span.stop) :
    ∀ place ∈ places, place.span.stop ≤ last.span.stop := by
  obtain ⟨front, rfl⟩ := List.getLast?_eq_some_iff.mp hlast
  intro place hplace
  obtain hmem | hmem := List.mem_append.mp hplace
  · exact Nat.le_trans ((List.pairwise_append.mp h).2.2 place hmem last (by simp)) hle
  · obtain rfl := List.mem_singleton.mp hmem
    exact Nat.le_refl _

theorem LaidAll.start_le_stop (h : LaidAll taken places) (htaken : AreOrdered source taken) :
    ∀ place ∈ places, place.span.start ≤ place.span.stop := by
  induction places generalizing taken with
  | nil => simp
  | cons place places ih =>
    cases h with
    | @cons gap under rest _ _ hplace hplaces =>
      have hbehind : AreOrdered source (under ++ rest) :=
        htaken.sublist (List.sublist_append_right _ _)
      have hover : AreOrdered source under := hbehind.sublist (List.sublist_append_left _ _)
      refine List.forall_mem_cons.mpr
        ⟨?_, ih hplaces (hbehind.sublist (List.sublist_append_right _ _))⟩
      obtain ⟨⟨first, hfirst, hstart⟩, last, hlast, hstop⟩ := hplace.bounds
      have hfirstLe := hover.start_le hfirst hlast
      have hlastLe := (hover.stand last hlast).covers.le
      omega

/-- A node that ends with its tokens or with its parts contains its parts. -/
theorem LaidAll.le_stop {span : Span} (h : LaidAll taken places)
    (htaken : AreOrdered source taken) (hends : span.EndsWith taken places) :
    ∀ place ∈ places, place.span.stop ≤ span.stop := by
  obtain ⟨last, hlast, hstop⟩ | ⟨last, hlast, hstop⟩ := hends
  · have hhigh : ∀ token ∈ taken, token.span.stop ≤ span.stop := fun token htoken => by
      rw [hstop]
      exact htaken.le_stop hlast htoken
    exact fun place hplace => (h.bounds (fun _ _ => Nat.zero_le _) hhigh place hplace).2
  · rw [hstop]
    exact stop_le_of_ordered (h.ordered htaken) hlast
      (h.start_le_stop htaken last (List.mem_of_getLast? hlast))

theorem runsOver_singleton_iff {token : Token} {span : Span} (h : span.RunsOver [token]) :
    span = token.span := by
  obtain ⟨first, last, hfirst, hlast | ⟨front, name, hsplit, -⟩, rfl⟩ := h
  · simp only [List.head?_cons, List.getLast?_singleton, Option.some.injEq] at hfirst hlast
    rw [← hfirst, ← hlast]
    rfl
  · have := congrArg List.length hsplit
    simp at this

/-- A node whose parts lie over its tokens is nested. -/
theorem isNested_node {sort : NodeSort} {span : Span} (hspan : span.RunsOver taken)
    (hsort : sort.Fits taken span places) (hparts : LaidAll taken places)
    (htaken : AreOrdered source taken) : (node sort span places).IsNested source where
  word := by
    rintro text rfl
    obtain ⟨hnone, token, rfl, htext⟩ := hsort
    have htoken := htaken.stand token List.mem_cons_self
    refine ⟨hnone, ?_⟩
    show span.Covers source text.toList
    rw [runsOver_singleton_iff hspan, ← htext ⟨htoken.spelling, htoken.dollar⟩]
    exact htoken.covers
  start_le := by
    obtain ⟨first, _, hfirst, -, rfl⟩ := hspan
    exact fun part hpart => (hparts.bounds (fun token htoken => htaken.start_le hfirst htoken)
      (fun token htoken => (htaken.stand token htoken).covers.stop_le) part hpart).1
  le_stop := by
    intro hother
    cases sort with
    | word => simp [parts, hsort.1]
    | path | pipeline | arm => exact hparts.le_stop htaken hsort.1
    | metadata => exact absurd rfl hother
    | piece | program => exact hsort.elim
    | other => exact hparts.le_stop htaken hsort
  metadata := by
    rintro rfl
    obtain ⟨sign, name, selector, rfl, hname, rfl, rfl, hselector⟩ := hsort
    have hbehind := List.rel_of_pairwise_cons htaken.ordered (List.mem_singleton.mpr rfl)
    have hnonempty := htaken.nonempty name (by simp) (by rw [hname]; decide)
    refine ⟨selector, rfl, ?_⟩
    rw [hselector]
    exact Nat.lt_of_le_of_lt hbehind hnonempty
  ordered := hparts.ordered htaken
  nonempty := by
    intro (hmem : sort ∈ [.path, .pipeline])
    obtain rfl | rfl : sort = .path ∨ sort = .pipeline := by simpa using hmem
    · exact hsort.2
    · exact hsort.2
  patterns := by
    rintro count rfl
    exact hsort.2

/-- A node of no special sort that contains its parts is nested. -/
theorem isNested_other {sort : NodeSort} {span : Span}
    (hsort : sort ∈ [.other, .piece, .program])
    (hparts : ∀ part ∈ places, span.start ≤ part.span.start ∧ part.span.stop ≤ span.stop)
    (hordered : places.Pairwise fun part later => part.span.stop ≤ later.span.start) :
    (node sort span places).IsNested source := by
  have hother : ∀ special, special ∉ ([.other, .piece, .program] : List NodeSort) →
      (node sort span places).sort ≠ special := by
    rintro special hspecial rfl
    exact hspecial hsort
  exact {
    word := fun text h => absurd h (hother _ (by simp))
    start_le := fun part hpart => (hparts part hpart).1
    le_stop := fun _ part hpart => (hparts part hpart).2
    metadata := fun h => absurd h (hother _ (by simp))
    ordered := hordered
    nonempty := fun hmem => absurd rfl (hother _ (by
      rcases List.mem_pair.mp hmem with h | h <;> rw [h] <;> simp))
    patterns := fun count h => absurd h (hother _ (by simp)) }

/-- The places of the pieces of a format string are those of its pieces. -/
theorem LaidPieces.spans {pieces : List FormatPiece} {places : List Places}
    (h : LaidPieces pieces places) : places.map (·.span) = pieces.map (·.span) := by
  induction places generalizing pieces with
  | nil =>
    cases h
    rfl
  | cons place places ih =>
    cases h with
    | text hrest | replacement _ _ _ hrest =>
      rw [List.map_cons, List.map_cons, ih hrest]
      rfl

mutual

/-- A tree over ordered tokens is nested. -/
theorem Laid.nested {taken : List Token} {place : Places} :
    Laid taken place → AreOrdered source taken → place.All (IsNested source)
  | .node hspan hsort hparts, htaken =>
    .intro (isNested_node hspan hsort hparts htaken) (hparts.nested htaken)
  | @Laid.format token _ _ hpieces hparts, htaken => by
    obtain ⟨hcontained, hordered⟩ := (htaken.stand token List.mem_cons_self).pieces hpieces
    refine .intro (isNested_other (by simp) ?_ ?_)
      (hparts.nested fun piece hpiece => (hcontained piece hpiece).1)
    · intro part hpart
      have hmem : part.span ∈ List.map Places.span _ := List.mem_map_of_mem hpart
      rw [hparts.spans] at hmem
      obtain ⟨piece, hpiece, hspan⟩ := List.mem_map.mp hmem
      rw [← hspan]
      exact (hcontained piece hpiece).2
    · have hspans : (List.map FormatPiece.span _).Pairwise fun piece later =>
          piece.stop ≤ later.start := List.pairwise_map.mpr hordered
      rw [← hparts.spans] at hspans
      exact List.pairwise_map.mp hspans

theorem LaidAll.nested {taken : List Token} {places : List Places} :
    LaidAll taken places → AreOrdered source taken →
      ∀ place ∈ places, place.All (IsNested source)
  | .nil, _ => by simp
  | @LaidAll.cons gap taken rest _ _ hplace hplaces, htokens => by
    have hbehind := htokens.sublist (List.sublist_append_right gap (taken ++ rest))
    rw [List.forall_mem_cons]
    exact ⟨hplace.nested (hbehind.sublist (List.sublist_append_left _ _)),
      hplaces.nested (hbehind.sublist (List.sublist_append_right _ _))⟩

theorem LaidPieces.nested {pieces : List FormatPiece} {places : List Places} :
    LaidPieces pieces places → (∀ piece ∈ pieces, piece.StandsIn source) →
      ∀ place ∈ places, place.All (IsNested source)
  | .nil, _ => by simp
  | .text hrest, hpieces => by
    rw [List.forall_mem_cons] at hpieces ⊢
    exact ⟨.intro (isNested_other (by simp) (by simp) .nil) (by simp), hrest.nested hpieces.2⟩
  | @LaidPieces.replacement _ _ _ _ leading taken trailing _ _ _ htokens hsplit hplace hrest,
      hpieces => by
    rw [List.forall_mem_cons] at hpieces ⊢
    obtain ⟨hpiece, hothers⟩ := hpieces
    obtain ⟨hordered, hbetween⟩ := hpiece.tokens htokens
    have htaken : taken.Sublist (leading ++ (taken ++ trailing)) :=
      (List.sublist_append_left _ _).trans (List.sublist_append_right _ _)
    rw [← hsplit] at htaken
    replace htaken := htaken.trans (rest_ofTokens_sublist _)
    have hcontained := (LaidAll.one hplace).bounds
      (fun token htoken => (hbetween token (htaken.subset htoken)).1)
      (fun token htoken => (hbetween token (htaken.subset htoken)).2)
    exact ⟨.intro (isNested_other (by simp) hcontained (List.pairwise_singleton _ _))
      (List.forall_mem_singleton.mpr (hplace.nested (hordered.sublist htaken))),
      hrest.nested hothers⟩

end

end Places

/-! ### Programs -/

namespace Program

/-- The tree of a program, or of a fragment, is nested. -/
theorem nested_of_derivation {source : List Char} {scanner : Scanner} {limit : Nat}
    {complete : Bool} {tokens : List Token} {program : Program} (hreads : scanner.Reads tokens)
    (htokens : AreOrdered source tokens) (h : Derivation limit complete tokens program) :
    program.places.All (IsNested source) := by
  have hlaid := laid_of_derivation h
  have hrest := htokens.sublist (rest_ofTokens_sublist tokens)
  have hspan : program.places.span = spanOf tokens := by
    cases h
    rfl
  obtain ⟨others, stop, rfl, hstop, hothers⟩ := hreads.eof
  have hfirst := head?_peek_concat hstop hothers
  have hlast : (significant others ++ [stop]).getLast? = some stop := by simp
  have hsignificant : AreOrdered source (significant others ++ [stop]) :=
    htokens.sublist (List.filter_sublist.append_right _)
  have hmem : ∀ token ∈ (TokenStream.ofTokens (others ++ [stop])).rest,
      token ∈ significant others ++ [stop] := by
    rw [ofTokens_concat hstop hothers]
    exact fun token htoken => List.mem_append_left _ htoken
  refine .intro (isNested_other (by simp) ?_ (hlaid.ordered hrest)) (hlaid.nested hrest)
  show ∀ part ∈ program.places.parts, program.places.span.start ≤ part.span.start ∧
    part.span.stop ≤ program.places.span.stop
  rw [hspan, spanOf, finalToken_concat others hstop]
  exact hlaid.bounds (fun token htoken => hsignificant.start_le hfirst (hmem token htoken))
    fun token htoken => hsignificant.le_stop hlast (hmem token htoken)

/-- The trees of programs and of fragments lie over the tokens of their source, and each node
contains its parts. -/
theorem nested (limit : Nat) (source : String) :
    (∀ program, ofSource limit source = .ok program →
      (∃ tokens, tokenize source = .ok tokens ∧
        LaidAll (TokenStream.ofTokens tokens).rest program.places.parts) ∧
      program.places.All (IsNested source.toList)) ∧
    ∀ rejection, ofSource limit source = .error (.rejected rejection) →
      (∃ tokens, tokenize source = .ok tokens ∧
        LaidAll (TokenStream.ofTokens tokens).rest rejection.fragment.places.parts) ∧
      rejection.fragment.places.All (IsNested source.toList) := by
  rw [ofSource]
  cases hscan : tokenize source with
  | error error => simp
  | ok tokens =>
    have hreads := Scanner.reads_of_tokenize hscan
    obtain ⟨hordered, -⟩ := hreads.areOrdered (Cursor.standsIn_ofSource source.toList)
    obtain ⟨hok, hrejected⟩ := ofTokens_takes limit tokens
    have hnested : ∀ {complete : Bool} {program : Program},
        Derivation limit complete tokens program →
        (∃ found, (Except.ok tokens : Except LexicalError (List Token)) = .ok found ∧
          LaidAll (TokenStream.ofTokens found).rest program.places.parts) ∧
        program.places.All (IsNested source.toList) :=
      fun h => ⟨⟨tokens, rfl, laid_of_derivation h⟩, nested_of_derivation hreads hordered h⟩
    dsimp only
    cases hparse : ofTokens limit tokens with
    | ok program =>
      refine ⟨?_, by simp⟩
      rintro _ ⟨⟩
      exact hnested (hok program hparse)
    | error rejection =>
      refine ⟨by simp, ?_⟩
      rintro _ ⟨⟩
      exact hnested (hrejected rejection hparse)

end Program

end PipelineLang
