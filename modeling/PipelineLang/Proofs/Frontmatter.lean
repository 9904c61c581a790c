import PipelineLang.Proofs.Concatenation
import PipelineLang.Proofs.Token.Frontmatter

/-!
# Programs with frontmatter

Frontmatter is put before a source by writing its body between two delimiter lines. Whatever
the body is, if none of its lines is a delimiter line, it is read back as it is, and the source
behind it is the program that it is alone, further on.

## Main definitions

- `Program.completed` — a body as it is written

## Main results

- `Grammar.frontmatter_takes` — closed frontmatter is read
- `Program.ofTokens_frontmatter` — the program of tokens with closed frontmatter before them
- `Program.ofSource_frontmatter` — the program of a source with frontmatter before it
- `Program.reads_frontmatter` — where frontmatter stands, and what is read of it
- `Program.body_of_ofSource` — what the body of frontmatter is that has been read
- `Program.frontmatter_layout_again` — frontmatter that is written is read with the same body

## Design notes

A body is whole lines here. Frontmatter that is never closed may end within a line, and the line
end that is then written behind it can make a delimiter line of its last one.
-/

namespace PipelineLang

open TokenStream Parse Shape

/-- What stands behind frontmatter is behind two delimiter lines and the body. -/
theorem Frontmatter.past_enclose (body : List Char) :
    Shift.past (enclose body) = ⟨8 + byteCount body, 2 + body.count '\n'⟩ := by
  have hdash : '-'.utf8Size = 1 := rfl
  have hline : '\n'.utf8Size = 1 := rfl
  simp only [Shift.past, enclose, byteCount_cons, byteCount_append, byteCount_nil, hdash, hline,
    List.count_cons, List.count_append, List.count_nil, Shift.mk.injEq]
  constructor
  · omega
  · simp
    omega

namespace Grammar

variable {before ahead newlines rest : List Token} {opener closer stop : Token}
  {body : Option Token}

/-- Closed frontmatter is read from its opening line to its closing one. -/
theorem frontmatter_takes (hstop : stop.kind = .eof)
    (hbody : ∀ token ∈ body, token.kind = .frontmatterBody)
    (hcloser : closer.kind = .frontmatterClose) :
    frontmatter.Takes stop before (opener :: (body.toList ++ [closer])) ahead
      ⟨(body.map (·.text)).getD "", true, opener.span.through closer.span⟩ := by
  have hblock : (eat .frontmatterBody).Takes stop (before ++ [opener]) body.toList
      ([closer] ++ ahead) body := by
    cases body with
    | none => exact eat_takes_nil hstop (by simp [hcloser])
    | some token => exact eat_takes hstop (hbody token rfl)
  refine (take_takes opener).bind_cons (hblock.bind ?_)
  exact (eat_takes hstop hcloser).bind_pure
    ((lastSpan_takes_concat _ closer).bind_none (takes_pure _))

/-- Closed frontmatter at the head of a source is read with the line ends behind it. -/
theorem frontmatter?_takes (hstop : stop.kind = .eof) (hopener : opener.kind = .frontmatterOpen)
    (hbody : ∀ token ∈ body, token.kind = .frontmatterBody)
    (hcloser : closer.kind = .frontmatterClose) (hnewlines : Newlines newlines)
    (hrest : firstKind rest ≠ .newline) :
    frontmatter?.Takes stop [] (opener :: (body.toList ++ [closer]) ++ newlines) rest
      (some ⟨(body.map (·.text)).getD "", true, opener.span.through closer.span⟩) := by
  refine (skipNewlines_takes_nil hstop (by simp [hopener])).bind_nil
    ((isAt_takes hstop .frontmatterOpen).bind_nil ?_)
  have hopen : firstKind (opener :: (body.toList ++ [closer]) ++ newlines ++ rest) =
      .frontmatterOpen := hopener
  rw [hopen]
  exact (frontmatter_takes hstop hbody hcloser).bind
    ((skipNewlines_takes hstop hnewlines hrest).bind_pure (takes_pure _))

end Grammar

namespace Program

open Grammar

variable {limit : Nat} {opener closer stop : Token} {body : Option Token}
  {tokens others newlines rest : List Token}

theorem stream_frontmatter (hopener : opener.kind = .frontmatterOpen)
    (hbody : ∀ token ∈ body, token.kind = .frontmatterBody)
    (hcloser : closer.kind = .frontmatterClose) (hothers : ∀ token ∈ others, token.kind ≠ .eof)
    (hstop : stop.kind = .eof) (hsplit : significant others = newlines ++ rest) :
    TokenStream.ofTokens (opener :: (body.toList ++ closer :: (others ++ [stop]))) =
      between [] (opener :: (body.toList ++ [closer]) ++ newlines ++ rest) stop := by
  have hblock : ∀ token ∈ opener :: (body.toList ++ [closer]), token.kind ∈ Frontmatter.kinds := by
    simp only [List.forall_mem_cons, List.forall_mem_append, Option.mem_toList]
    refine ⟨by simp [hopener, Frontmatter.kinds], fun token htoken => ?_,
      by simp [hcloser, Frontmatter.kinds], by simp⟩
    simp [hbody token htoken, Frontmatter.kinds]
  have hkinds : ∀ kind ∈ Frontmatter.kinds, kind ≠ .comment ∧ kind ≠ .eof := by decide
  have hsignificant : significant (opener :: (body.toList ++ [closer])) =
      opener :: (body.toList ++ [closer]) :=
    List.filter_eq_self.mpr fun token htoken => by
      simp [TokenKind.isTrivia, (hkinds _ (hblock token htoken)).1]
  have hsplit' : opener :: (body.toList ++ closer :: (others ++ [stop])) =
      opener :: (body.toList ++ [closer]) ++ others ++ [stop] := by simp
  rw [hsplit']
  refine stream_of_split (List.forall_mem_append.mpr ⟨fun token htoken => ?_, hothers⟩) hstop ?_
  · exact (hkinds _ (hblock token htoken)).2
  · rw [significant_append, hsignificant, hsplit, List.append_assoc]

/-- Where all statements behind the head of some tokens are read, the tokens are a program. -/
theorem ofTokens_of_head {frontmatter : Option FrontmatterBlock} {behind : TokenStream}
    (hhead : frontmatter?.run (TokenStream.ofTokens tokens) = .ok frontmatter behind)
    (herror : (statementsToEnd (enterTo limit limit) behind).error = none) :
    ∃ program, ofTokens limit tokens = .ok program ∧ program.frontmatter = frontmatter ∧
      program.statements = (statementsToEnd (enterTo limit limit) behind).items := by
  refine ⟨⟨frontmatter, _, spanOf tokens⟩, ?_, rfl, statements_ofStatements? _ _ _⟩
  rw [EStateM.run] at hhead
  simp only [ofTokens, spanOf, hhead, herror]

/-- Tokens without frontmatter that are a program are the same one behind closed frontmatter,
further on. -/
theorem ofTokens_frontmatter {program : Program} (shift : Shift)
    (hopener : opener.kind = .frontmatterOpen)
    (hbody : ∀ token ∈ body, token.kind = .frontmatterBody)
    (hcloser : closer.kind = .frontmatterClose) (hends : ∃ others stop, tokens = others ++ [stop] ∧
      stop.kind = .eof ∧ ∀ token ∈ others, token.kind ≠ .eof)
    (hplain : ∀ token ∈ tokens, token.kind ≠ .frontmatterOpen)
    (hok : ofTokens limit tokens = .ok program) :
    ∃ joined block, ofTokens limit (opener :: (body.toList ++ closer :: moved shift tokens)) =
        .ok joined ∧ joined.frontmatter = some block ∧
      block.body = (body.map (·.text)).getD "" ∧ block.closed = true ∧
      joined.statements = moved shift program.statements := by
  obtain ⟨others, stop, rfl, hstop, hothers⟩ := hends
  obtain ⟨newlines, rest, hsplit, hnewlines, hrest⟩ := exists_newlines (significant others)
  have hrest' : firstKind rest ∉ [TokenKind.newline, .frontmatterOpen] := by
    simp only [List.mem_cons, List.not_mem_nil, or_false, not_or]
    refine ⟨hrest, fun hopen => ?_⟩
    obtain ⟨token, rest, rfl, hkind⟩ := exists_cons_of_firstKind hopen (by decide)
    have hmem : token ∈ significant others := hsplit ▸ by simp
    exact hplain token (List.mem_append_left _ (List.mem_of_mem_filter hmem)) hkind
  obtain ⟨hitems, herror⟩ := (finds_statementsToEnd hstop (stream_of_split hothers hstop hsplit)
    hnewlines hrest').of_program hok
  have hstop' : (moved shift stop).kind = .eof := hstop
  have hnewlines' : Newlines (moved shift newlines) := newlines_moved hnewlines
  have hothers' : ∀ token ∈ moved shift others, token.kind ≠ .eof :=
    List.forall_mem_map.mpr hothers
  have hsplit' : significant (moved shift others) = moved shift newlines ++ moved shift rest := by
    rw [significant_moved, hsplit]
    exact List.map_append
  have hstream := stream_frontmatter hopener hbody hcloser hothers' hstop' hsplit'
  have hhead : frontmatter?.run _ = .ok _ _ := frontmatter?_takes hstop' hopener hbody hcloser
    hnewlines' (firstKind_moved shift rest ▸ hrest)
  rw [← hstream] at hhead
  obtain ⟨hitems', herror'⟩ := statementsToEnd_between_moved hstop shift limit
    ([] ++ (opener :: (body.toList ++ [closer]) ++ moved shift newlines)) newlines rest
  obtain ⟨joined, hjoined, hfrontmatter, hstatements⟩ :=
    ofTokens_of_head hhead (herror'.trans (congrArg (moved shift) herror))
  have htokens : moved shift others ++ [moved shift stop] = moved shift (others ++ [stop]) := by
    simp [moved_list]
  exact ⟨joined, _, htokens ▸ hjoined, hfrontmatter, rfl, rfl,
    hstatements.trans (hitems'.trans (congrArg (moved shift) hitems))⟩

/-- A source that is a program without frontmatter is the same one behind closed frontmatter,
further on, and what stands between the delimiter lines is the body. -/
theorem ofSource_frontmatter {written second : String} {program : Program}
    (hplain : ¬ Frontmatter.HasDelimiter written.toList)
    (hlines : Frontmatter.IsLines written.toList) (hok : ofSource limit second = .ok program)
    (hnone : program.frontmatter = none)
    (hmark : second.toList.head? ≠ some Cursor.byteOrderMark) :
    ∃ joined block, ofSource limit ("---\n" ++ written ++ "---\n" ++ second) = .ok joined ∧
      joined.frontmatter = some block ∧ block.body = written ∧ block.closed = true ∧
      joined.statements =
        moved (.past (Frontmatter.enclose written.toList)) program.statements := by
  obtain ⟨tokens, htokens, hprogram⟩ := exists_tokens_of_ok hok
  have hreads := Scanner.reads_of_tokenize htokens
  have hends := hreads.eof
  have hopen : ∀ token ∈ tokens, token.kind ≠ .frontmatterOpen := by
    intro token htoken hkind
    obtain ⟨others, stop, rfl, hstop, hothers⟩ := hends
    obtain ⟨-, first, hfirst, hopen⟩ := hreads.firstToken?_of_open ⟨token, htoken, hkind⟩
    have hmem := firstToken?_of_ok hothers hstop hprogram hnone first hfirst
    rw [hopen] at hmem
    exact absurd hmem (by decide)
  obtain ⟨opener, closer, body, hopener, hbody, hcloser, htext, hjoined⟩ :=
    Scanner.tokens?_frontmatter hplain hlines htokens hopen hmark
  obtain ⟨joined, block, hall, hfrontmatter, hblock, hclosed, hstatements⟩ :=
    ofTokens_frontmatter (.past (Frontmatter.enclose written.toList)) hopener hbody hcloser hends
      hopen hprogram
  have hsource : ("---\n" ++ written ++ "---\n" ++ second).toList =
      Frontmatter.enclose written.toList ++ '\n' :: second.toList := by
    simp [Frontmatter.enclose]
  rw [← hsource] at hjoined
  refine ⟨joined, block, ?_, hfrontmatter, ?_, hclosed, hstatements⟩
  · rw [ofSource_of_tokenize hjoined, hall]
    rfl
  · rw [hblock, htext, String.ofList_toList]

/-- Where frontmatter stands, and what is read of it. In the tokens of any source, it stands
behind line ends and comments only: the opening line, a body without delimiter lines and a
closing line. Any such body is read back, with the program of the source behind it. -/
theorem reads_frontmatter :
    (∀ source tokens, tokenize source = .ok tokens → ∃ lead block rest,
      tokens = lead ++ (block ++ rest) ∧
        (∀ token ∈ lead, token.kind ∈ [TokenKind.newline, .comment]) ∧
        (block = [] ∨ Frontmatter.IsBlock block rest) ∧
        ∀ token ∈ rest, token.kind ∉ Frontmatter.kinds) ∧
      ∀ limit (body second : String) program, Frontmatter.IsLines body.toList →
        ¬ Frontmatter.HasDelimiter body.toList → ofSource limit second = .ok program →
        program.frontmatter = none → second.toList.head? ≠ some Cursor.byteOrderMark →
        ∃ joined block, ofSource limit ("---\n" ++ body ++ "---\n" ++ second) = .ok joined ∧
          joined.frontmatter = some block ∧ block.body = body ∧ block.closed = true ∧
          joined.statements = moved ⟨8 + byteCount body.toList, 2 + body.toList.count '\n'⟩
            program.statements := by
  refine ⟨fun source tokens h => ?_,
    fun limit body second program hlines hplain hok hnone hmark => ?_⟩
  · exact (Scanner.reads_of_tokenize h).frontmatter rfl
  · obtain ⟨joined, block, hjoined, hfrontmatter, hbody, hclosed, hstatements⟩ :=
      ofSource_frontmatter hplain hlines hok hnone hmark
    rw [Frontmatter.past_enclose] at hstatements
    exact ⟨joined, block, hjoined, hfrontmatter, hbody, hclosed, hstatements⟩

/-- A comment may stand before frontmatter, and four dashes are no delimiter line. -/
theorem reads_frontmatter_dashes :
    (∃ tokens lead block rest, tokenize "// a\n---\nb" = .ok tokens ∧
      tokens = lead ++ (block ++ rest) ∧
      (∀ token ∈ lead, token.kind ∈ [TokenKind.newline, .comment]) ∧
      (block = [] ∨ Frontmatter.IsBlock block rest) ∧
      ∀ token ∈ rest, token.kind ∉ Frontmatter.kinds) ∧
    ∃ program joined block, ofSource 8 "p" = .ok program ∧
      ofSource 8 "---\na\n----\n---\np" = .ok joined ∧ joined.frontmatter = some block ∧
      block.body = "a\n----\n" ∧ block.closed = true ∧
      joined.statements = moved ⟨15, 4⟩ program.statements := by
  have hok : ∀ {ε α : Type} {result : Except ε α}, result.isOk = true → ∃ a, result = .ok a := by
    rintro ε α (error | a) h
    · cases h
    · exact ⟨a, rfl⟩
  constructor
  · obtain ⟨tokens, htokens⟩ := hok (by decide +kernel : (tokenize "// a\n---\nb").isOk = true)
    obtain ⟨lead, block, rest, h⟩ := reads_frontmatter.1 _ tokens htokens
    exact ⟨tokens, lead, block, rest, htokens, h⟩
  · obtain ⟨program, hprogram⟩ := hok (by decide +kernel : (ofSource 8 "p").isOk = true)
    have hnone : program.frontmatter = none := by
      have hplain : ((ofSource 8 "p").toOption.bind (·.frontmatter)).isNone = true := by
        decide +kernel
      simpa [hprogram, Except.toOption] using hplain
    obtain ⟨joined, block, hjoined, hfrontmatter, hbody, hclosed, hstatements⟩ :=
      reads_frontmatter.2 8 "a\n----\n" "p" program (by decide +kernel) (by decide +kernel)
        hprogram hnone (by decide)
    exact ⟨program, joined, block, hprogram, hjoined, hfrontmatter, hbody, hclosed, hstatements⟩

/-! ### Frontmatter that is written back -/

/-- The tokens of frontmatter that a program starts with are a block of the tokens of its
source. -/
theorem exists_block {source : String} {program : Program} {block : FrontmatterBlock}
    (hok : ofSource limit source = .ok program) (hblock : program.frontmatter = some block) :
    ∃ found inner behind, FrontmatterOf found block ∧
      (inner = [] ∨ Frontmatter.IsBlock inner behind) ∧
      ∀ token ∈ found, token.kind ∈ Frontmatter.kinds → token ∈ inner := by
  obtain ⟨tokens, htokens, hprogram⟩ := exists_tokens_of_ok hok
  have hreads := Scanner.reads_of_tokenize htokens
  have hderivation := (ofTokens_takes limit tokens).1 program hprogram
  obtain @⟨head, taken, ahead, frontmatter, statements, hrest, hhead, -⟩ := hderivation
  obtain rfl : frontmatter = some block := hblock
  obtain ⟨others, stop, hends, hstop, hothers⟩ := hreads.eof
  rw [hends, ofTokens_concat hstop hothers] at hrest
  replace hrest : significant others = head ++ (taken ++ ahead) := hrest
  obtain _ | @⟨leading, found, trailing, _, -, hfound, -⟩ := hhead
  obtain ⟨lead, inner, behind, hall, hlead, hinner, hbehind⟩ := hreads.frontmatter rfl
  refine ⟨found, inner, behind, hfound, hinner, fun token htoken hkind => ?_⟩
  have hsignificant : token ∈ significant others := by
    rw [hrest]
    simp [htoken]
  have hmem : token ∈ lead ++ (inner ++ behind) :=
    hall ▸ hends ▸ List.mem_append_left _ (List.mem_of_mem_filter hsignificant)
  obtain hmem | hmem | hmem := (List.mem_append.mp hmem).imp_right List.mem_append.mp
  · have hother : ∀ kind ∈ [TokenKind.newline, .comment], kind ∉ Frontmatter.kinds := by decide
    exact absurd hkind (hother _ (hlead token hmem))
  · exact hmem
  · exact absurd hkind (hbehind token hmem)

/-- What is read of frontmatter: none of the lines of its body is a delimiter line, and a body
that is closed is whole lines. -/
theorem body_of_ofSource {source : String} {program : Program} {block : FrontmatterBlock}
    (hok : ofSource limit source = .ok program) (hblock : program.frontmatter = some block) :
    ¬ Frontmatter.HasDelimiter block.body.toList ∧
      (block.closed = true → Frontmatter.IsLines block.body.toList) := by
  obtain ⟨found, inner, behind, hfound, hinner, hmem⟩ := exists_block hok hblock
  obtain @⟨opener, body, closer, last, hopener, hbody, hcloser, -⟩ := hfound
  cases body with
  | none =>
    refine ⟨by simp [Frontmatter.hasDelimiter_iff, Frontmatter.bodyLength, walk], fun _ => ?_⟩
    simp [Frontmatter.IsLines]
  | some token =>
    have hkind := hbody token rfl
    have hinner' : token ∈ inner := hmem token (by simp) (by simp [hkind, Frontmatter.kinds])
    obtain rfl | hinner := hinner
    · simp at hinner'
    obtain ⟨closed, hbody, hclosed⟩ := hinner.isBody hinner' hkind
    refine ⟨hbody.plain, fun hsome => hbody.lines (hclosed ?_)⟩
    obtain ⟨closing, rfl⟩ := Option.isSome_iff_exists.mp hsome
    have hkind' := hcloser closing rfl
    exact ⟨closing, hmem closing (by simp) (by simp [hkind', Frontmatter.kinds]), hkind'⟩

/-- A body as it is written: an empty one is left out, any other one is completed to whole
lines. -/
def completed (body : String) : String := if body.isEmpty then "" else Layout.endLine body

theorem isLines_completed (body : String) : Frontmatter.IsLines (completed body).toList := by
  rw [completed, Layout.endLine]
  split
  · exact Frontmatter.isLines_nil
  · split
    · next hlast => simp [Frontmatter.IsLines, hlast]
    · rw [String.toList_append]
      exact Frontmatter.isLines_concat.mpr rfl

theorem not_hasDelimiter_completed {body : String}
    (hplain : ¬ Frontmatter.HasDelimiter body.toList)
    (hends : Frontmatter.IsLines body.toList ∨ body.toList.getLast? ≠ some '\r') :
    ¬ Frontmatter.HasDelimiter (completed body).toList := by
  rw [completed, Layout.endLine]
  split
  · simp [Frontmatter.hasDelimiter_iff, Frontmatter.bodyLength, walk]
  · next hempty =>
    split
    · exact hplain
    · next hlast =>
      have hne : body.toList ≠ [] := by simpa using hempty
      have hlines : ¬ Frontmatter.IsLines body.toList := fun hlines =>
        hlast <| by
          rw [List.getLast?_eq_some_getLast hne, hlines _ (List.getLast?_eq_some_getLast hne)]
      rw [String.toList_append]
      exact Frontmatter.not_hasDelimiter_concat hplain (hends.resolve_left hlines)

theorem layout_frontmatter {program : Program} {block : FrontmatterBlock}
    (hblock : program.frontmatter = some block) (hnone : program.statements = []) :
    program.layout = "---\n" ++ completed block.body ++ "---\n" := by
  have hlayout : program.layout = Layout.endLine (Layout.frontmatter block) := by
    obtain ⟨frontmatter, pipeline, span⟩ := program
    obtain rfl : frontmatter = some block := hblock
    cases pipeline with
    | none => exact congrArg Layout.endLine String.append_empty
    | some pipeline =>
      obtain ⟨statements, span⟩ := pipeline
      obtain rfl : statements = [] := hnone
      have hempty : (Pipeline.mk [] span).layout 0 = "" := by
        simp [Pipeline.layout, Statement.layouts]
      exact congrArg Layout.endLine (hempty ▸ String.append_empty)
  have hlast : (Layout.frontmatter block).toList.getLast? = some '\n' := by
    rw [Layout.frontmatter, String.toList_append, List.getLast?_append_of_ne_nil _ (by decide)]
    rfl
  rw [hlayout, Layout.endLine, if_pos hlast]
  rfl

/-- Frontmatter alone is written and read with the same body, completed to whole lines. Only an
unclosed body with a carriage return at its end is excepted: the line end that is put behind it
can make a delimiter line of its last line. -/
theorem frontmatter_layout_again {source : String} {program : Program} {block : FrontmatterBlock}
    (hok : ofSource limit source = .ok program) (hblock : program.frontmatter = some block)
    (hnone : program.statements = [])
    (hends : block.closed = true ∨ block.body.toList.getLast? ≠ some '\r') :
    ∃ again block', ofSource limit program.layout = .ok again ∧
      again.frontmatter = some block' ∧ block'.closed = true ∧
      block'.body = completed block.body ∧ again.statements = [] := by
  obtain ⟨hplain, hlines⟩ := body_of_ofSource hok hblock
  obtain ⟨empty, hempty, hplain', hstatements⟩ : ∃ empty, ofSource limit "" = .ok empty ∧
      empty.frontmatter = none ∧ empty.statements = [] := ⟨_, rfl, rfl, rfl⟩
  obtain ⟨again, block', hagain, hblock', hbody, hclosed, hsame⟩ :=
    ofSource_frontmatter (not_hasDelimiter_completed hplain (hends.imp_left hlines))
      (isLines_completed block.body) hempty hplain' (by simp)
  rw [String.append_empty, ← layout_frontmatter hblock hnone] at hagain
  rw [hstatements] at hsame
  exact ⟨again, block', hagain, hblock', hclosed, hbody, hsame⟩

end Program

end PipelineLang
