import PipelineLang.Proofs.Grammar.Failure
import PipelineLang.Proofs.Grammar.Placement
import PipelineLang.Proofs.Token.Accuracy
import PipelineLang.Proofs.Token.Lossless

/-!
# Where trees and syntax errors are

## Main definitions

- `ArePlaced` — tokens say where they are, one behind another
- `SyntaxError.IsAccurate` — a syntax error says where it is

## Main results

- `Places.Laid.accurate` — a tree over such tokens says where it and its parts are
- `Program.accurate_of_derivation` — so do programs and fragments
- `Program.spans_accurate` — all places that are told of a source are right

## Design notes

A place that runs from one token to another is right if both tokens are and the first one
does not start behind the end of the other. Trees in format strings lie over tokens of
their own, which have been read from a part of the same source.
-/

namespace PipelineLang

open TokenStream Places

/-- Tokens that say where they are, one behind another. -/
structure ArePlaced (source : List Char) (tokens : List Token) : Prop where
  placed : ∀ token ∈ tokens, token.IsPlaced source
  ordered : tokens.Pairwise fun token later => token.span.stop ≤ later.span.start

namespace ArePlaced

variable {source : List Char} {tokens others : List Token}

theorem sublist (h : ArePlaced source tokens) (hsub : others.Sublist tokens) :
    ArePlaced source others :=
  ⟨fun token htoken => h.placed token (hsub.subset htoken), h.ordered.sublist hsub⟩

/-- The first of the tokens starts before any of them stops. -/
theorem start_le_stop (h : ArePlaced source tokens) {first last : Token}
    (hfirst : tokens.head? = some first) (hlast : last ∈ tokens) :
    first.span.start ≤ last.span.stop := by
  obtain ⟨rest, rfl⟩ := List.head?_eq_some_iff.mp hfirst
  have hle := (h.placed last hlast).accurate.le
  have hfirstLe := (h.placed first List.mem_cons_self).accurate.le
  obtain rfl | hmem := List.mem_cons.mp hlast
  · exact hle.1
  · have hordered := (List.pairwise_cons.mp h.ordered).1 last hmem
    omega

end ArePlaced

theorem EndsAt.mem {taken : List Token} {last : Token} (h : EndsAt taken last) : last ∈ taken := by
  obtain h | ⟨front, name, rfl, -⟩ := h
  · exact List.mem_of_getLast? h
  · simp

theorem Span.RunsOver.accurate {source : List Char} {taken : List Token} {span : Span}
    (h : span.RunsOver taken) (htaken : ArePlaced source taken) : span.IsAccurate source := by
  obtain ⟨first, last, hfirst, hlast, rfl⟩ := h
  exact (htaken.placed first (List.mem_of_head? hfirst)).accurate.through
    (htaken.placed last hlast.mem).accurate (htaken.start_le_stop hfirst hlast.mem)

theorem TokenStream.rest_ofTokens_sublist (tokens : List Token) :
    (ofTokens tokens).rest.Sublist tokens :=
  (List.takeWhile_sublist _).trans List.filter_sublist

/-- The tokens of a scanner that knows its place are placed. -/
theorem Scanner.arePlaced_tokens? {source : List Char} {scanner : Scanner}
    (h : scanner.cursor.IsPlaced source) (hfinished : scanner.finished = false)
    {tokens : List Token} (htokens : scanner.tokens? = .ok tokens) : ArePlaced source tokens := by
  refine ⟨(isPlaced_tokens? h).1 tokens htokens, ?_⟩
  -- The scanner reads a part of the source that it cannot tell from all of it.
  obtain ⟨passed, beyond, -, hplace, -⟩ := h
  have hstands : scanner.cursor.StandsIn (passed ++ scanner.cursor.rest) :=
    ⟨passed, rfl, hplace.offset_eq⟩
  have hreads := reads_of_tokens? hfinished htokens
  exact pairwise_of_gaps (fun token htoken => (hreads.standsIn hstands token htoken).covers)
    (hreads.gaps hstands).2.1

namespace Places

variable {source : List Char}

mutual

/-- A tree over tokens that say where they are says where it and its parts are. -/
theorem Laid.accurate {taken : List Token} {place : Places} :
    Laid taken place → ArePlaced source taken →
      place.All fun node => node.span.IsAccurate source
  | .node hspan _ hparts, htaken => .intro (hspan.accurate htaken) (hparts.accurate htaken)
  | .format hpieces hparts, htaken =>
    have htoken := htaken.placed _ List.mem_cons_self
    .intro htoken.accurate (hparts.accurate (htoken.formatPieces.1 _ hpieces))

theorem LaidAll.accurate {taken : List Token} {places : List Places} :
    LaidAll taken places → ArePlaced source taken →
      ∀ place ∈ places, place.All fun node => node.span.IsAccurate source
  | .nil, _ => by simp
  | @LaidAll.cons gap taken rest _ _ hplace hplaces, htokens => by
    have htaken : taken.Sublist (gap ++ (taken ++ rest)) :=
      (List.sublist_append_left _ _).trans (List.sublist_append_right _ _)
    have hrest : rest.Sublist (gap ++ (taken ++ rest)) :=
      (List.sublist_append_right _ _).trans (List.sublist_append_right _ _)
    rw [List.forall_mem_cons]
    exact ⟨hplace.accurate (htokens.sublist htaken), hplaces.accurate (htokens.sublist hrest)⟩

theorem LaidPieces.accurate {pieces : List FormatPiece} {places : List Places} :
    LaidPieces pieces places → (∀ piece ∈ pieces, piece.IsPlaced source) →
      ∀ place ∈ places, place.All fun node => node.span.IsAccurate source
  | .nil, _ => by simp
  | .text hrest, hpieces => by
    rw [List.forall_mem_cons] at hpieces ⊢
    exact ⟨.intro hpieces.1.accurate (by simp), hrest.accurate hpieces.2⟩
  | @LaidPieces.replacement _ _ _ _ leading taken trailing _ _ _ htokens hsplit hplace hrest,
      hpieces => by
    rw [List.forall_mem_cons] at hpieces ⊢
    obtain ⟨hpiece, hothers⟩ := hpieces
    have hinner := Scanner.arePlaced_tokens? (hpiece.within _ _ _ rfl) rfl htokens
    have htaken : taken.Sublist (leading ++ (taken ++ trailing)) :=
      (List.sublist_append_left _ _).trans (List.sublist_append_right _ _)
    rw [← hsplit] at htaken
    have hplaced := hinner.sublist (htaken.trans (rest_ofTokens_sublist _))
    exact ⟨.intro hpiece.accurate (List.forall_mem_singleton.mpr (hplace.accurate hplaced)),
      hrest.accurate hothers⟩

end

end Places

/-! ### The tokens of a source -/

namespace TokenStream

theorem significant_append (tokens others : List Token) :
    significant (tokens ++ others) = significant tokens ++ significant others :=
  List.filter_append _ _

theorem significant_singleton {token : Token} (h : token.kind ≠ .comment) :
    significant [token] = [token] := by
  simp [significant, TokenKind.isTrivia, h]

theorem significant_concat (others : List Token) {stop : Token} (hstop : stop.kind = .eof) :
    significant (others ++ [stop]) = significant others ++ [stop] := by
  rw [significant_append, significant_singleton (by simp [hstop])]

/-- The stream of tokens that end where the source ends. -/
theorem ofTokens_concat {others : List Token} {stop : Token} (hstop : stop.kind = .eof)
    (hothers : ∀ token ∈ others, token.kind ≠ .eof) :
    ofTokens (others ++ [stop]) = ⟨significant others, none, stop⟩ := by
  have hrest : ∀ token ∈ significant others, token.kind ≠ .eof :=
    fun token htoken => hothers token (List.mem_of_mem_filter htoken)
  have htake : (significant others ++ [stop]).takeWhile (·.kind != .eof) = significant others := by
    rw [List.takeWhile_append_of_pos fun token htoken => by simpa using hrest token htoken]
    simp [hstop]
  have hfind : (significant others ++ [stop]).find? (·.kind == .eof) = some stop := by
    rw [List.find?_append, List.find?_eq_none.mpr fun token htoken => by
      simpa using hrest token htoken]
    simp [hstop]
  simp only [ofTokens, significant_concat others hstop, htake, hfind, Option.getD_some]

/-- The first token that matters to the grammar is the one that a stream shows. -/
theorem head?_peek_concat {others : List Token} {stop : Token} (hstop : stop.kind = .eof)
    (hothers : ∀ token ∈ others, token.kind ≠ .eof) :
    (significant others ++ [stop]).head? = some (ofTokens (others ++ [stop])).peek := by
  rw [ofTokens_concat hstop hothers, TokenStream.peek, List.head?_append]
  cases (significant others).head? <;> rfl

theorem finalToken_concat (others : List Token) {stop : Token} (hstop : stop.kind = .eof) :
    finalToken (significant (others ++ [stop])) = stop := by
  rw [significant_concat others hstop, finalToken, List.getLast?_concat]
  exact if_pos hstop

/-- What holds of all tokens of a scanner holds of their stream. -/
theorem holds_ofTokens {T : Token → Prop} {scanner : Scanner} {tokens : List Token}
    (hreads : scanner.Reads tokens) (h : ∀ token ∈ tokens, T token) :
    (ofTokens tokens).Holds T := by
  obtain ⟨others, stop, rfl, hstop, hothers⟩ := hreads.eof
  rw [ofTokens_concat hstop hothers]
  exact ⟨fun token htoken => h token (by simp [List.mem_of_mem_filter htoken]), h stop (by simp)⟩

end TokenStream

/-- The place of a program is accurate. -/
theorem Program.accurate_spanOf {source : List Char} {scanner : Scanner} {tokens : List Token}
    (hreads : scanner.Reads tokens) (h : ArePlaced source tokens) :
    (spanOf tokens).IsAccurate source := by
  obtain ⟨others, stop, rfl, hstop, hothers⟩ := hreads.eof
  have hfirst := head?_peek_concat hstop hothers
  have hplaced : ArePlaced source (significant others ++ [stop]) :=
    h.sublist (List.filter_sublist.append_right _)
  have hmem : stop ∈ significant others ++ [stop] := by simp
  rw [spanOf, finalToken_concat others hstop]
  exact (hplaced.placed _ (List.mem_of_head? hfirst)).accurate.through
    (hplaced.placed stop hmem).accurate (hplaced.start_le_stop hfirst hmem)

/-- The tree of a program, or of a fragment, says where it and its parts are. -/
theorem Program.accurate_of_derivation {source : List Char} {scanner : Scanner} {limit : Nat}
    {complete : Bool} {tokens : List Token} {program : Program} (hreads : scanner.Reads tokens)
    (htokens : ArePlaced source tokens) (h : Derivation limit complete tokens program) :
    program.places.All fun node => node.span.IsAccurate source := by
  have hparts := (laid_of_derivation h).accurate (htokens.sublist (rest_ofTokens_sublist _))
  cases h
  exact .intro (accurate_spanOf hreads htokens) hparts

/-! ### Errors -/

/-- A syntax error says where it is, and where a bracket has been opened. -/
structure SyntaxError.IsAccurate (source : List Char) (error : SyntaxError) : Prop where
  span : error.span.IsAccurate source
  openedAt : ∀ opener openedAt, error.cause = .unclosed opener openedAt →
    openedAt.IsAccurate source

open Grammar in
theorem reports_isAccurate (source : List Char) :
    Reports (Token.IsPlaced source) (SyntaxError.IsAccurate source) where
  unexpected _ _ h := ⟨h.accurate, nofun⟩
  unclosed token opener h hopener := by
    refine ⟨h.accurate, ?_⟩
    rintro _ _ ⟨⟩
    exact hopener.accurate
  nesting _ _ h := ⟨h.accurate, nofun⟩
  literal _ _ _ h _ _ _ := ⟨h.accurate, nofun⟩
  key _ _ _ h _ _ := ⟨h.accurate, nofun⟩
  format _ _ _ _ h _ _ := ⟨h.accurate, nofun⟩
  inner token pieces inner innerSpan span h _ hpieces hpiece := by
    have hcursor := (h.formatPieces.1 pieces hpieces _ hpiece).within _ _ _ rfl
    refine ⟨fun _ _ hnext _ => ⟨hnext.accurate, nofun⟩, fun tokens htokens => ?_⟩
    exact holds_ofTokens (Scanner.reads_of_tokens? rfl htokens)
      (Scanner.arePlaced_tokens? hcursor rfl htokens).placed

/-- All that is said of places of a source is right: where tokens and errors are, wherever one
starts to read, where trees and their parts are, and where a bracket has been opened that is
not closed. -/
theorem Program.spans_accurate (limit : Nat) (source : String) :
    (∀ offset count token,
      ((Scanner.ofOffset source.toList offset).after count).read.1 = .ok token →
        token.span.IsAccurate source.toList) ∧
    (∀ offset count error,
      ((Scanner.ofOffset source.toList offset).after count).read.1 = .error error →
        error.span.IsAccurate source.toList) ∧
    (∀ tokens, tokenize source = .ok tokens →
      ∀ token ∈ tokens, token.span.IsAccurate source.toList) ∧
    (∀ error, tokenize source = .error error → error.span.IsAccurate source.toList) ∧
    (∀ program, ofSource limit source = .ok program →
      program.places.All fun node => node.span.IsAccurate source.toList) ∧
    (∀ error, ofSource limit source = .error error → error.span.IsAccurate source.toList) ∧
    ∀ rejection, ofSource limit source = .error (.rejected rejection) →
      rejection.error.IsAccurate source.toList ∧
        rejection.fragment.places.All fun node => node.span.IsAccurate source.toList := by
  have hread : ∀ offset count, Scanner.Tells source.toList
      ((Scanner.ofOffset source.toList offset).after count).read.1 := fun offset count =>
    (Scanner.isPlaced_read
      (Scanner.isPlaced_after (Scanner.isPlaced_ofOffset source.toList offset) count)).1
  have hstart := Scanner.isPlaced_ofSource source.toList
  obtain ⟨htokens, herror⟩ := Scanner.isPlaced_tokens? hstart
  refine ⟨fun offset count token h => ?_, fun offset count error h => ?_,
    fun tokens h token htoken => (htokens tokens h token htoken).accurate, herror, ?_⟩
  · have hfound := hread offset count
    rw [h] at hfound
    exact Token.IsPlaced.accurate hfound
  · have hfound := hread offset count
    rw [h] at hfound
    exact hfound
  rw [ofSource]
  cases hscan : tokenize source with
  | error error =>
    refine ⟨by simp, ?_, by simp⟩
    rintro _ ⟨⟩
    exact herror error hscan
  | ok tokens =>
    have hreads := Scanner.reads_of_tokenize hscan
    have hplaced := Scanner.arePlaced_tokens? hstart rfl hscan
    obtain ⟨hok, hrejected⟩ := ofTokens_takes limit tokens
    dsimp only
    cases hparse : ofTokens limit tokens with
    | ok program =>
      refine ⟨?_, by simp, by simp⟩
      rintro _ ⟨⟩
      exact accurate_of_derivation hreads hplaced (hok program hparse)
    | error rejection =>
      have hreported : rejection.error.IsAccurate source.toList :=
        error_of_ofTokens (reports_isAccurate source.toList)
          (holds_ofTokens hreads hplaced.placed) hparse
      refine ⟨by simp, ?_, ?_⟩
      · rintro _ ⟨⟩
        exact hreported.span
      · rintro _ ⟨⟩
        exact ⟨hreported, accurate_of_derivation hreads hplaced (hrejected rejection hparse)⟩

end PipelineLang
