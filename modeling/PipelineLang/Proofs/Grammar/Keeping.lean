import PipelineLang.Proofs.Grammar.Everywhere
import PipelineLang.Proofs.Grammar.Laying
import PipelineLang.Proofs.Grammar.Reading
import PipelineLang.Proofs.Token.ReadWords

/-!
# Expressions whose words are read again

The words of an expression that has been read from one line can be read again where they are
laid out.

## Main definitions

- `Grammar.WordsRead` — what is known of the tokens of a line
- `Grammar.Inside` — tokens that an expression stands behind, within a statement

## Main results

- `Grammar.local_keptTo` — the rules for single nodes keep their words
-/

namespace PipelineLang

open Lexeme Address Shape

namespace Grammar

/-- What is known of the tokens of a line, so many levels of replacements above the last. -/
def WordsRead (levels : Nat) (tokens : List Token) : Prop := AreRead levels (tokens.map Token.word)

/-- The tokens before an expression do not end where a statement starts, line ends apart. -/
def Inside (before : List Token) : Prop :=
  ∀ token ∈ before.getLast?, token.kind ∉ [.pipe, .lBrace, .frontmatterClose]

theorem context_inside : Context Inside where
  nil := by simp [Inside]
  newline := by
    intro before token hkind _ last hlast
    rw [List.getLast?_concat] at hlast
    obtain rfl := Option.some.inj hlast
    simp [hkind]
  behind := by
    intro before token hkind last hlast
    rw [List.getLast?_concat] at hlast
    obtain rfl := Option.some.inj hlast
    simp only [Lexeme.statementOpeners, List.mem_cons, List.not_mem_nil, or_false, not_or]
      at hkind ⊢
    exact ⟨hkind.2.1, hkind.2.2.1, hkind.2.2.2⟩

variable {levels levels' depth : Nat} {before taken ahead tokens : List Token} {token : Token}

theorem WordsRead.isRead (h : WordsRead levels tokens) (hmem : token ∈ tokens) :
    Word.IsRead levels token.word := h.each _ (List.mem_map_of_mem hmem)

theorem WordsRead.isName (h : WordsRead levels tokens) (hmem : token ∈ tokens)
    (hkind : token.kind = .identifier) : IsName token.text := (h.isRead hmem).name hkind

theorem not_opener_of_inside (hC : Inside before) (hW : WordsRead levels (before ++ tokens))
    (hlast : token ∈ before.getLast?) : token.kind ∉ Lexeme.statementOpeners := by
  have hline := (hW.isRead (List.mem_append_left _ (List.mem_of_getLast? hlast))).newline
  have hmem := hC token hlast
  simp only [Lexeme.statementOpeners, List.mem_cons, List.not_mem_nil, or_false, not_or] at hmem ⊢
  exact ⟨hline, hmem⟩

/-! ### Names -/

/-- The words of a path within a statement are no address. -/
theorem isPath_of_path {names : List Identifier} (h : Path taken names) (hC : Inside before)
    (hW : WordsRead levels (before ++ taken ++ ahead)) : IsPath (names.map (·.name)) := by
  induction h generalizing before with
  | one hname => exact hW.isName (by simp) hname
  | @more name separator tokens names hname hseparator hnames ih =>
    have hfirst : IsName name.text := hW.isName (by simp) hname
    have hC' : Inside (before ++ [name, separator]) :=
      context_inside.second (by rw [hseparator]; decide)
    have hrest : IsPath (names.map (·.name)) := ih hC' (by simpa using hW)
    cases hnames with
    | one hlast => exact ⟨hfirst, hrest⟩
    | @more other separator' tokens names hother hseparator' hnames =>
      have hpair : ¬ IsPair name.text.toList other.text.toList := by
        have hwords : (before ++ (name :: separator :: other :: separator' :: tokens) ++ ahead).map
            Token.word = before.map Token.word ++ name.word :: separator.word :: other.word ::
              separator'.word :: (tokens ++ ahead).map Token.word := by simp
        refine hW.paths hwords (fun word hmem => ?_) hname hseparator hother hseparator'
        obtain ⟨last, hlast, rfl⟩ : ∃ last ∈ before.getLast?, last.word = word := by
          simpa [List.getLast?_map] using hmem
        rw [List.append_assoc] at hW
        exact not_opener_of_inside hC hW hlast
      cases hnames with
      | one => exact ⟨hfirst, hpair, hrest⟩
      | more => exact ⟨hfirst, hpair, hrest⟩

theorem steps_kept {segments : List FieldSegment} (h : Steps taken segments)
    (hnames : ∀ token ∈ taken, token.kind = .identifier → IsName token.text) :
    segments ≠ [] ∧ ∀ segment ∈ segments, IsName segment.name.name := by
  have hstep : ∀ {tokens : List Token} {segment : FieldSegment}, Step tokens segment →
      (∀ token ∈ tokens, token.kind = .identifier → IsName token.text) →
        IsName segment.name.name := by
    intro tokens segment hstep hnames
    cases hstep with
    | plain hname => exact hnames _ (by simp) hname
    | optional hname => exact hnames _ (by simp) hname
  induction h with
  | one h => exact ⟨by simp, by simpa using hstep h hnames⟩
  | more h _ _ ih =>
    rw [List.forall_mem_append, List.forall_mem_cons] at hnames
    exact ⟨by simp, List.forall_mem_cons.mpr ⟨hstep h hnames.1, (ih hnames.2.2).2⟩⟩

theorem selector_kept {selector : Selector} (h : SelectorOf taken selector)
    (hnames : ∀ token ∈ taken, token.kind = .identifier → IsName token.text) : selector.Kept := by
  cases h with
  | metadata hsign hname => exact hnames _ (by simp) hname
  | root hthis => exact ⟨.inl rfl, by simp⟩
  | rooted hthis hdot hsteps =>
    rw [List.forall_mem_cons, List.forall_mem_cons] at hnames
    exact ⟨.inl rfl, (steps_kept hsteps hnames.2.2).2⟩
  | path hsteps =>
    obtain ⟨hne, hsegments⟩ := steps_kept hsteps hnames
    exact ⟨.inr hne, hsegments⟩

/-! ### Arguments and items -/

section

variable {nested : Nested}

theorem argument_kept {argument : Argument} (h : ArgumentAt nested before taken ahead argument)
    (hW : WordsRead levels (before ++ taken ++ ahead)) : argument.Kept := by
  cases h with
  | positional => trivial
  | named hassignment =>
    obtain ⟨htarget, -, -⟩ := hassignment
    exact selector_kept htarget fun token hmem => hW.isName (by simp [hmem])

theorem recordItem_kept {item : RecordItem} (h : RecordItemAt nested before taken ahead item)
    (hW : WordsRead levels (before ++ taken ++ ahead)) : item.Kept := by
  cases h with
  | spread => trivial
  | field hkey =>
    cases hkey with
    | identifier hname => exact hW.isName (by simp) hname
    | string htoken hvalue =>
      have htext := StringLiteral.text_of_read? hvalue
      have hread := (hW.isRead (by simp)).string htoken
      refine ⟨by rw [htext]; exact hvalue, ?_⟩
      rw [htext]
      exact hread

end

theorem call_kept {function : Entity} {arguments : List Argument}
    (h : CallAt (nestedTo depth) before taken ahead (function, arguments)) (hC : Inside before)
    (hW : WordsRead levels (before ++ taken ++ ahead)) :
    function.Kept ∧ ∀ argument ∈ arguments, argument.Kept := by
  cases h with
  | @intro _ name tokens _ _ _ hname harguments =>
    have hpath : WordsRead levels (before ++ name ++ (tokens ++ ahead)) := by simpa using hW
    refine ⟨isPath_of_path hname.1 hC hpath, ?_⟩
    obtain ⟨-, hnested⟩ := harguments
    cases depth with
    | zero => exact hnested.elim
    | succ depth =>
      obtain ⟨-, hitems⟩ := hnested
      exact forall_of_items (fun h hW => argument_kept h hW) hitems (by simpa using hW)

theorem recordItems_kept {items : List RecordItem}
    (h : nestedTo depth _ .recordItems before taken ahead items)
    (hW : WordsRead levels (before ++ taken ++ ahead)) : ∀ item ∈ items, item.Kept := by
  cases depth with
  | zero => exact h.elim
  | succ depth => exact forall_of_items (fun h hW => recordItem_kept h hW) h hW

/-! ### Format strings -/

theorem words_significant (tokens : List Token) :
    (TokenStream.significant tokens).map Token.word =
      (tokens.map Token.word).filter fun word => word.1 ≠ .comment := by
  rw [TokenStream.significant, List.filter_map]
  congr 1
  refine List.filter_congr fun token _ => ?_
  by_cases hkind : token.kind = .comment <;> simp [TokenKind.isTrivia, Token.word, hkind]

/-- What is known of the tokens of a replacement, from how they were seen first. -/
theorem wordsRead_of_reread {cursor : Cursor} {start innerStop stop : Nat}
    (h : (FormatPart.replacement start innerStop stop).IsReread levels cursor)
    (hline : '\n' ∉ cursor.rest)
    (htokens : (Scanner.within ((cursor.rest.take innerStop).drop (start + 1))
      (cursor.spanBetween (start + 1) innerStop)).tokens? = .ok tokens) :
    ∃ below, levels = below + 1 ∧ WordsRead below (TokenStream.ofTokens tokens).rest := by
  obtain ⟨below, seen, rfl, hsees, hagain⟩ := h
  refine ⟨below, rfl, ?_⟩
  obtain rfl := Except.ok.inj (hagain.symm.trans htokens)
  have hmeets := hsees.meets (cursor.rest_advanceBy start)
  rw [Cursor.tokensSeen, TokenStream.ofTokens_concat rfl, WordsRead, words_significant,
    List.map_map]
  · refine hmeets.areRead (fun hmem => hline ?_) rfl
    exact List.mem_of_mem_drop (List.mem_of_mem_drop hmem)
  · rw [List.forall_mem_map]
    intro entry hmem
    obtain ⟨_, _, lexeme, _, _, hkind, hword⟩ := hmeets.exists_of_mem (List.mem_map_of_mem hmem)
    have hsame : entry.2.kind = lexeme.kind := congrArg Prod.fst hword
    exact fun heof => hkind (hsame ▸ heof)

/-- The pieces of a format string are those that its end has been found by. -/
theorem parts_of_isRead {pieces : List FormatPiece} (h : Word.IsRead levels token.word)
    (hlevels : levels ≤ mostLevels) (hkind : token.kind = .formatString)
    (hpieces : token.formatPieces = .ok pieces) :
    ∃ parts : List FormatPart,
      pieces = parts.map (·.piece (Cursor.within token.text.toList token.span)) ∧
      (∀ part ∈ parts, part.IsReread levels (Cursor.within token.text.toList token.span)) ∧
      (∀ part ∈ parts, FormatBody.PartKept token.text.toList part) ∧
      parts.IsChain FormatBody.PartsApart := by
  obtain ⟨-, body, hbody, hlength⟩ := h.format hkind
  obtain ⟨hkept, hapart⟩ := FormatBody.parts_kept hbody
  have hself : (Cursor.within token.text.toList token.span).IsPartOf
      (Cursor.within token.text.toList token.span) := ⟨List.prefix_rfl, rfl, rfl, rfl⟩
  have htext : token.text.toList =
      (Cursor.within token.text.toList token.span).rest.take body.length := by
    rw [hlength]
    exact List.take_length.symm
  obtain ⟨hagain, hreread⟩ := Token.rereads hlevels hbody htext hself
  exact ⟨body.parts, Except.ok.inj (hpieces.symm.trans hagain), hreread, hkept, hapart⟩

section

variable {nested : Nested} {cursor : Cursor} {parts : List FormatPart} {segments : List Segment}

theorem isText_iff {part : FormatPart} {segment : Segment}
    (h : SegmentOf nested (part.piece cursor) segment) :
    FormatBody.IsText part ↔ segment.value? = none := by
  cases part with
  | text start stop =>
    cases h with
    | text => exact ⟨fun _ => rfl, fun _ => trivial⟩
  | replacement start innerStop stop =>
    cases h with
    | replacement => simp [FormatBody.IsText]

/-- The segments of a format string that has been read. -/
theorem segments_kept (h : SegmentsOf nested (parts.map (·.piece cursor)) segments)
    (hkept : ∀ part ∈ parts, FormatBody.PartKept cursor.rest part)
    (hapart : parts.IsChain FormatBody.PartsApart) :
    (∀ segment ∈ segments, segment.Kept) ∧ segments.IsChain Segment.Apart := by
  induction parts generalizing segments with
  | nil =>
    cases h
    exact ⟨by simp, .nil⟩
  | cons part parts ih =>
    rw [List.map_cons] at h
    rw [List.forall_mem_cons] at hkept
    rw [List.isChain_cons] at hapart
    cases h with
    | @cons _ _ segment segments hsegment hsegments =>
      obtain ⟨hsegmentsKept, hchain⟩ := ih hsegments hkept.2 hapart.2
      refine ⟨List.forall_mem_cons.mpr ⟨?_, hsegmentsKept⟩,
        List.isChain_cons.mpr ⟨fun other hother hnone hsome => ?_, hchain⟩⟩
      · cases part with
        | text start stop =>
          cases hsegment with
          | text =>
            have hpart := hkept.1
            rw [FormatBody.PartKept] at hpart
            rw [Segment.Kept, String.toList_ofList]
            exact ⟨hpart.1, hpart.2, rfl⟩
        | replacement start innerStop stop =>
          cases hsegment with
          | replacement => trivial
      · cases parts with
        | nil =>
          cases hsegments
          simp at hother
        | cons next parts =>
          cases hsegments with
          | cons hnext =>
            obtain rfl := Option.some.inj hother
            exact hapart.1 next rfl ⟨(isText_iff hsegment).mpr hnone, (isText_iff hnext).mpr hsome⟩

/-- The expressions in the replacements of a format string that has been read. -/
theorem segments_inner (h : SegmentsOf nested (parts.map (·.piece cursor)) segments)
    (hread : ∀ part ∈ parts, part.IsReread levels cursor) (hline : '\n' ∉ cursor.rest)
    (hinner : ∀ {below tokens value}, levels = below + 1 → WordsRead below tokens →
      ReplacementOf nested tokens value → value.All (Expr.KeptTo below)) :
    ∀ value ∈ segments.filterMap (·.value?), Expr.InnerKept levels value := by
  induction parts generalizing segments with
  | nil =>
    cases h
    simp
  | cons part parts ih =>
    rw [List.map_cons] at h
    rw [List.forall_mem_cons] at hread
    cases h with
    | @cons _ _ segment segments hsegment hsegments =>
      have ih := ih hsegments hread.2
      cases part with
      | text start stop =>
        cases hsegment with
        | text => simpa using ih
      | replacement start innerStop stop =>
        cases hsegment with
        | replacement htokens hvalue =>
          rw [List.filterMap_cons_some (Segment.value?_replacement _ _), List.forall_mem_cons]
          obtain ⟨below, hbelow, hW⟩ := wordsRead_of_reread hread.1 hline htokens
          exact ⟨⟨below, hbelow, hinner hbelow hW hvalue⟩, ih⟩

end

theorem WordsRead.line (h : WordsRead levels tokens) (hmem : token ∈ tokens)
    (hkind : token.kind = .formatString) : '\n' ∉ token.text.toList :=
  ((h.isRead hmem).format hkind).1

/-! ### Single nodes -/

theorem literal_kept {value : Literal} (h : Word.IsRead levels token.word)
    (hvalue : Literal.ofText? token.kind token.text = some value) :
    Literal.ofText? value.tokenKind value.text = some value ∧
      Word.Recurs (value.tokenKind, value.text) := by
  have hword : (value.tokenKind, value.text) = token.word :=
    Literal.word_of_ofText? hvalue h.spelling
  obtain ⟨hkind, htext⟩ := Prod.mk.inj hword
  have hliteral : value.tokenKind.isLiteral ∧ value.tokenKind ≠ .formatString := by
    cases value with
    | bool value => cases value <;> decide
    | _ => simp [Literal.tokenKind, TokenKind.isLiteral]
  rw [hword]
  rw [hkind] at hliteral
  refine ⟨?_, h.literal hliteral.1 hliteral.2⟩
  rwa [hkind, htext]

/-- The rules for single nodes keep their words, if they do so on the level below. -/
theorem local_of_below (hlevels : levels ≤ mostLevels)
    (hbelow : ∀ below, levels = below + 1 → Local (WordsRead below) Inside (Expr.KeptTo below)) :
    Local (WordsRead levels) Inside (Expr.KeptTo levels) where
  context := context_inside
  inner := by
    intro tokens token pieces text span place others hW hmem hkind hpieces hpiece htokens
    obtain ⟨parts, rfl, hreread, -⟩ := parts_of_isRead (hW.isRead hmem) hlevels hkind hpieces
    obtain ⟨part, hpart, hpiece⟩ := List.mem_map.mp hpiece
    cases part with
    | text => simp [FormatPart.piece] at hpiece
    | replacement start innerStop stop =>
      obtain ⟨rfl, rfl, -⟩ := FormatPiece.replacement.inj hpiece
      obtain ⟨below, rfl, hinner⟩ :=
          wordsRead_of_reread (hreread _ hpart) (hW.line hmem hkind) htokens
      exact hinner.mono (Nat.le_succ below)
  primary := by
    intro depth before taken ahead value h hC hW
    rw [Expr.keptTo_eq]
    cases h with
    | literal hvalue => exact literal_kept (hW.isRead (by simp)) hvalue
    | format htoken hpieces hsegments =>
      obtain ⟨parts, rfl, hreread, hkept, hapart⟩ :=
        parts_of_isRead (hW.isRead (by simp)) hlevels htoken hpieces
      obtain ⟨hsegmentsKept, hchain⟩ := segments_kept hsegments hkept hapart
      refine ⟨hsegmentsKept, hchain, ?_⟩
      refine segments_inner hsegments hreread (hW.line (by simp) htoken) ?_
      intro below tokens value hlevel hinner hvalue
      obtain ⟨hleading, hvalue, -⟩ := hvalue
      exact (covered_of_nestedTo (hbelow below hlevel) depth hvalue
        (context_inside.newlines context_inside.nil hleading) (by simpa using hinner)).1
    | call hcall => exact call_kept hcall hC hW
    | name htoken =>
      have hname := hW.isName (by simp) htoken
      rw [nameOrPlaceholder]
      split
      · trivial
      · next hne => exact ⟨hname, by simpa using hne⟩
    | @dollar _ token _ htoken =>
      obtain ⟨name, htext, hname⟩ := (hW.isRead (by simp)).dollar htoken
      have hdollar : token.text.toList = '$' :: name := htext
      rw [Expr.Kept, variableName, String.toList_ofList, hdollar]
      exact hname
    | metadata _ hname => exact hW.isName (by simp) hname
    | record _ _ hitems => exact recordItems_kept hitems (by simpa using hW)
    | this | list | paren => trivial
  suffix := by
    intro depth before taken ahead receiver suffix _ h hW
    rw [Expr.keptTo_eq]
    cases h with
    | member _ hname | memberBehind _ hname | memberAhead _ hname =>
      exact hW.isName (by simp) hname
    | call hdot hcall =>
      exact call_kept hcall (context_inside.behind (by rw [hdot]; decide)) (by simpa using hW)
    | index | optionalIndex => trivial
  unary := by
    intro op operand span _
    rw [Expr.keptTo_eq]
    trivial
  lambda := by
    intro before ahead parameter body span hparameter hW _
    rw [Expr.keptTo_eq]
    exact hW.isName (by simp) hparameter
  binary := by
    intro op left right span _ _
    rw [Expr.keptTo_eq]
    trivial

/-- The rules for single nodes keep their words. -/
theorem local_keptTo (hlevels : levels ≤ mostLevels) :
    Local (WordsRead levels) Inside (Expr.KeptTo levels) := by
  induction levels with
  | zero => exact local_of_below hlevels nofun
  | succ levels ih =>
    refine local_of_below hlevels ?_
    rintro below ⟨⟩
    exact ih (Nat.le_of_succ_le hlevels)

end Grammar

end PipelineLang
