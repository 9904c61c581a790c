import PipelineLang.Proofs.Grammar.ProgramSoundness
import PipelineLang.Proofs.Grammar.Reading

/-!
# No token is lost

A program is read off as the tokens of its source, save those that only separate and the
parentheses around the arguments behind a block. If a source is no program, the fragment of
one is read off as the first of its tokens.

## Main results

- `Program.keeps_tokens` — what is read off a program is what its source has
-/

namespace PipelineLang

open Parse Shape Grammar

theorem FrontmatterBlock.words_eq {source line behind : List Char} {body : String} {closed : Bool}
    {span : Span} (htext : span.textIn source = line ++ ['\n'] ++ (body.toList ++ behind))
    (hline : '\n' ∉ line) :
    words source ⟨body, closed, span⟩ = (.frontmatterOpen, String.ofList (line ++ ['\n'])) ::
      ((if body = "" then [] else [(.frontmatterBody, body)])
        ++ if closed then [(.frontmatterClose, String.ofList behind)] else []) := by
  have hopening : ((span.textIn source).takeWhile (· != '\n')).length + 1 =
      (line ++ ['\n']).length := by
    rw [htext, List.append_assoc, List.takeWhile_append_of_pos]
    · simp
    · intro c hc
      rw [bne_iff_ne]
      rintro rfl
      exact hline hc
  simp only [words]
  rw [hopening, htext, List.take_left, ← List.append_assoc, ← List.length_append, List.drop_left]

namespace Grammar

section

variable {source : List Char} {before taken ahead : List Token}

/-- Frontmatter has the words of its tokens. -/
theorem kept_frontmatter {block : FrontmatterBlock} (h : FrontmatterOf taken block)
    (hstand : Stand source taken) (hchain : taken.IsChain Token.Adjoins) :
    kept taken = block.words source := by
  obtain @⟨opener, body, closer, last, hopener, hbody, hcloser, hlast⟩ := h
  rw [stand_cons, stand_append] at hstand
  obtain ⟨hopen, hin, hclose⟩ := hstand
  obtain ⟨line, hline, hnone⟩ := hopen.opening hopener
  have hkept : ∀ {token : Token} {kind : TokenKind}, token.kind = kind → kind ∉ separators →
      ∀ rest, kept (token :: rest) = (kind, token.text) :: kept rest := by
    rintro token kind rfl hkind rest
    exact kept_cons hkind rest
  rw [hkept hopener (by decide), ← String.ofList_toList (s := opener.text), hline]
  match body, closer with
  | none, none =>
    obtain rfl := Option.some.inj hlast
    have htext : opener.span.textIn source = line ++ ['\n'] ++ ("".toList ++ []) := by
      simpa [hline] using hopen.covers.textIn
    refine Eq.trans ?_ (FrontmatterBlock.words_eq htext hnone).symm
    simp
  | none, some closer =>
    obtain rfl := Option.some.inj hlast
    have hnext := (hchain.rel (by rw [hopener]; simp)).1
    have htext : (opener.span.through closer.span).textIn source =
        line ++ ['\n'] ++ ("".toList ++ closer.text.toList) := by
      simpa [hline] using
        (hopen.covers.through (hclose closer (by simp)).covers hnext).textIn
    refine Eq.trans ?_ (FrontmatterBlock.words_eq htext hnone).symm
    simp [hkept (hcloser closer rfl) (by decide)]
  | some body, none =>
    obtain rfl := Option.some.inj hlast
    have hbody := hbody body rfl
    have hnext := (hchain.rel (by rw [hopener]; simp)).1
    have htext := (hopen.covers.through (hin body (by simp)).covers hnext).textIn
    rw [hline, ← List.append_nil body.text.toList] at htext
    refine Eq.trans ?_ (FrontmatterBlock.words_eq htext hnone).symm
    simp [hkept hbody (by decide), (hin body (by simp)).body hbody]
  | some body, some closer =>
    obtain rfl := Option.some.inj hlast
    have hbody := hbody body rfl
    have hnext := (hchain.rel (by rw [hopener]; simp)).1
    have hafter := (hchain.tail.rel (by rw [hbody]; simp)).1
    have htext := ((hopen.covers.through (hin body (by simp)).covers hnext).through
      (hclose closer (by simp)).covers hafter).textIn
    rw [hline, List.append_assoc] at htext
    refine Eq.trans ?_ (FrontmatterBlock.words_eq htext hnone).symm
    simp [hkept hbody (by decide), hkept (hcloser closer rfl) (by decide),
      (hin body (by simp)).body hbody]

theorem kept_head {frontmatter : Option FrontmatterBlock} (h : HeadOf taken frontmatter)
    (hstand : Stand source taken) (hchain : taken.IsChain Token.Adjoins) :
    kept taken = (frontmatter.map (·.words source)).getD [] := by
  cases h with
  | none hnewlines => exact kept_newlines hnewlines
  | @some leading tokens trailing block hleading hblock htrailing =>
    rw [stand_append, stand_append] at hstand
    rw [kept_append, kept_append, kept_newlines hleading, kept_newlines htrailing,
      List.nil_append, List.append_nil]
    exact kept_frontmatter hblock hstand.1.2 hchain.left_of_append.right_of_append

/-- The first items of a series are read off as their tokens. -/
theorem spells_partial {α : Type} {item : Shape α} {again : Shape Bool} {pieces : α → List Piece}
    (hitem : ∀ {before taken ahead a}, item before taken ahead a → Stand source taken →
      Spells (pieces a) (kept taken))
    (hagain : ∀ {before taken ahead found}, again before taken ahead found →
      ∀ token ∈ taken, token.kind ∈ separators)
    {items : List α} (h : Partial item again before taken ahead items)
    (hstand : Stand source taken) : Spells (items.flatMap pieces) (kept taken) := by
  induction h with
  | nil => exact .nil
  | last h => simpa using hitem h hstand
  | more h hnext _ ih =>
    rw [stand_append, stand_append] at hstand
    rw [kept_append, kept_append, kept_eq_nil (hagain hnext), List.append_nil, List.flatMap_cons]
    exact (hitem h hstand.1.1).append (ih hstand.2)

theorem spells_statementsTo {limit : Nat} {complete : Bool} {statements : List Statement}
    (h : StatementsTo limit complete before taken ahead statements)
    (hstand : Stand source taken) :
    Spells (Statement.allPieces (.source source) statements) (kept taken) := by
  have hn : KeepsAll source (nestedTo limit) := keeps_of_nestedTo source limit
  cases h with
  | none => exact .nil
  | all hstatements => exact spells_pipeline hn hstatements hstand
  | fragment _ hstatements =>
    rw [allPieces_eq_flatMap]
    exact spells_partial (fun h => spells_statement hn h) (fun h => separator_separators h)
      hstatements hstand

end

/-- The tokens that the grammar passes over only separate. -/
theorem kept_ofTokens {source : String} {tokens : List Token}
    (h : tokenize source = .ok tokens) :
    kept (TokenStream.ofTokens tokens).rest = kept tokens := by
  obtain ⟨others, stop, rfl, hstop, hothers⟩ := (Scanner.reads_of_tokenize h).eof
  have hkept : kept (TokenStream.significant others) = kept others := by
    rw [kept, TokenStream.significant, List.filter_filter, kept]
    refine congrArg _ (List.filter_congr fun token _ => ?_)
    cases token.kind <;> decide
  have hrest : (TokenStream.ofTokens (others ++ [stop])).rest = TokenStream.significant others := by
    rw [TokenStream.ofTokens, TokenStream.significant, List.filter_append,
      List.takeWhile_append_of_pos]
    · simp [hstop, TokenKind.isTrivia, TokenStream.significant]
    · intro token htoken
      simpa using hothers token (List.mem_of_mem_filter htoken)
  have hend : kept [stop] = [] := kept_eq_nil (by simp [hstop, separators])
  rw [hrest, hkept, kept_append, hend, List.append_nil]

end Grammar

namespace Program

/-- What is read off a program is what its source has. -/
theorem spells_of_derivation {limit : Nat} {complete : Bool} {source : String}
    {tokens : List Token} {program : Program} (htokens : tokenize source = .ok tokens)
    (h : Derivation limit complete tokens program) :
    ∃ words rest, kept tokens = words ++ rest ∧ Spells (program.pieces source.toList) words ∧
      (complete = true → rest = []) := by
  obtain @⟨head, taken, ahead, frontmatter, statements, hsplit, hhead, hstatements⟩ := h
  have hchain := isChain_adjoins_of_tokenize htokens
  have hstand : Stand source.toList (TokenStream.ofTokens tokens).rest := fun token htoken =>
    standsIn_of_tokenize htokens token
      (List.mem_of_mem_filter (List.takeWhile_subset _ htoken))
  rw [hsplit] at hchain hstand
  rw [stand_append, stand_append] at hstand
  refine ⟨kept head ++ kept taken, kept ahead, ?_, ?_, ?_⟩
  · rw [← kept_ofTokens htokens, hsplit, kept_append, kept_append, List.append_assoc]
  · rw [pieces, statements_ofStatements?, kept_head hhead hstand.1 hchain.left_of_append]
    exact .behind _ (spells_statementsTo hstatements hstand.2.1)
  · rintro rfl
    cases hstatements with
    | none | all => rfl
    | fragment hpartial => simp at hpartial

/-- Reading a program off from left to right gives the tokens of its source, and where the
tokens of a source are no program, reading the fragment gives the first ones of them. -/
theorem keeps_tokens (limit : Nat) (source : String) :
    (∀ program, ofSource limit source = .ok program →
      ∃ tokens, tokenize source = .ok tokens ∧
        Spells (program.pieces source.toList) (kept tokens)) ∧
    (∀ tokens error, tokenize source = .ok tokens → ofSource limit source = .error error →
      ∃ rejection words, error = .rejected rejection ∧ words <+: kept tokens ∧
        Spells (rejection.fragment.pieces source.toList) words) := by
  constructor
  · intro program hprogram
    unfold ofSource at hprogram
    split at hprogram
    · simp at hprogram
    · next tokens htokens =>
      split at hprogram
      · next found hfound =>
        obtain rfl := Except.ok.inj hprogram
        obtain ⟨words, rest, hkept, hspells, hrest⟩ :=
          spells_of_derivation htokens ((ofTokens_takes limit tokens).1 _ hfound)
        rw [hrest rfl, List.append_nil] at hkept
        exact ⟨tokens, htokens, hkept ▸ hspells⟩
      · simp at hprogram
  · intro tokens error htokens herror
    simp only [ofSource, htokens] at herror
    split at herror
    · simp at herror
    · next rejection hrejection =>
      obtain rfl := Except.error.inj herror
      obtain ⟨words, rest, hkept, hspells, -⟩ :=
        spells_of_derivation htokens ((ofTokens_takes limit tokens).2 _ hrejection)
      exact ⟨rejection, words, rfl, ⟨rest, hkept.symm⟩, hspells⟩

/-- The tokens of `p {q}, (1)`, one pair of parentheses apart, are read off its program, and
`p` is read off the fragment of `p )`. -/
theorem keeps_tokens_trailing :
    (∃ program tokens, ofSource 8 "p {q}, (1)" = .ok program ∧
      tokenize "p {q}, (1)" = .ok tokens ∧
      Spells (program.pieces "p {q}, (1)".toList) (kept tokens)) ∧
    (∃ tokens error rejection words, tokenize "p )" = .ok tokens ∧
      ofSource 8 "p )" = .error error ∧ error = .rejected rejection ∧ words <+: kept tokens ∧
        Spells (rejection.fragment.pieces "p )".toList) words) := by
  have hok : ∀ {ε α : Type} {result : Except ε α}, result.isOk = true → ∃ a, result = .ok a := by
    rintro ε α (error | a) h
    · simp [Except.isOk, Except.toBool] at h
    · exact ⟨a, rfl⟩
  obtain ⟨program, hprogram⟩ := hok (by decide +kernel : (ofSource 8 "p {q}, (1)").isOk = true)
  obtain ⟨tokens, htokens⟩ := hok (by decide +kernel : (tokenize "p )").isOk = true)
  refine ⟨?_, ?_⟩
  · obtain ⟨tokens, htokens, hspells⟩ := (keeps_tokens 8 "p {q}, (1)").1 program hprogram
    exact ⟨program, tokens, hprogram, htokens, hspells⟩
  · cases herror : ofSource 8 "p )" with
    | ok program =>
      have hbad : (ofSource 8 "p )").isOk = false := by decide +kernel
      simp [herror, Except.isOk, Except.toBool] at hbad
    | error error =>
      obtain ⟨rejection, words, hrejected, hpre, hspells⟩ :=
        (keeps_tokens 8 "p )").2 tokens error htokens herror
      exact ⟨tokens, error, rejection, words, htokens, rfl, hrejected, hpre, hspells⟩

end Program

end PipelineLang
