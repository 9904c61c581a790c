import Mathlib.Data.List.Chain
import Mathlib.Data.List.TakeWhile
import PipelineLang.Grammar.TokenStream
import PipelineLang.Proofs.Token.Reading

/-!
# Where tokens stand

## Main definitions

- `Token.StandsIn` — a token lies where its span says and is spelled as its kind asks
- `Token.Adjoins` — nothing comes between the tokens of frontmatter

## Main results

- `standsIn_of_tokenize` — so does each token of a source
- `isChain_adjoins_of_tokenize` — so it is for the tokens that matter to the grammar
-/

namespace PipelineLang

/-- Whether a token lies in a source where its span says, and is spelled as all tokens of
its kind are. -/
structure Token.StandsIn (source : List Char) (token : Token) : Prop where
  covers : token.span.Covers source token.text.toList
  spelling : ∀ spelling, token.kind.spelling? = some spelling → token.text = spelling
  dollar : token.kind = .dollarVar → ∃ name, token.text.toList = '$' :: name
  /-- The line that opens frontmatter has one line end. -/
  opening : token.kind = .frontmatterOpen →
    ∃ line, token.text.toList = line ++ ['\n'] ∧ '\n' ∉ line
  body : token.kind = .frontmatterBody → token.text ≠ ""

/-- Whether a token comes right behind another one if that one leaves frontmatter open. -/
def Token.Adjoins (token next : Token) : Prop :=
  token.kind ∈ [.frontmatterOpen, .frontmatterBody] →
    next.span.start = token.span.stop ∧ next.kind.isTrivia = false

theorem Frontmatter.delimiter?_line {endsLine : Bool} {text : List Char} {length : Nat}
    (h : delimiter? endsLine text = some length) (hends : endsLine = false) :
    ∃ line, text.take length = line ++ ['\n'] ∧ '\n' ∉ line := by
  subst hends
  unfold delimiter? at h
  split at h
  · next rest =>
    have hblanks : ∀ c ∈ rest.takeWhile fun c => c == ' ' || c == '\t', c ≠ '\n' := by
      intro c hc
      have := List.mem_takeWhile_imp hc
      rintro rfl
      simp at this
    have htake : ∀ n, rest.take ((rest.takeWhile fun c => c == ' ' || c == '\t').length + n) =
        rest.takeWhile (fun c => c == ' ' || c == '\t') ++
          (rest.drop (rest.takeWhile fun c => c == ' ' || c == '\t').length).take n := by
      intro n
      rw [List.take_add, ← List.prefix_iff_eq_take.mp (List.takeWhile_prefix _)]
    dsimp only at h
    split at h
    · next behind hdrop =>
      obtain rfl := Option.some.inj h
      refine ⟨'-' :: '-' :: '-' :: rest.takeWhile fun c => c == ' ' || c == '\t', ?_, ?_⟩
      · rw [Nat.add_assoc, Nat.add_comm 3]
        simp [htake, hdrop]
      · simpa using fun h => absurd rfl (hblanks _ h)
    · next behind hdrop =>
      obtain rfl := Option.some.inj h
      refine ⟨'-' :: '-' :: '-' :: rest.takeWhile (fun c => c == ' ' || c == '\t') ++ ['\r'],
        ?_, ?_⟩
      · rw [Nat.add_assoc, Nat.add_comm 3]
        simp [htake, hdrop]
      · simpa using fun h => absurd rfl (hblanks _ h)
    · simp at h
    · simp at h
  · simp at h

namespace Scanner

theorem standsIn_tokenOf {source : List Char} {scanner : Scanner}
    (h : scanner.cursor.StandsIn source) (kind : TokenKind) (length : Nat) :
    (scanner.tokenOf kind length).span.Covers source
      (scanner.tokenOf kind length).text.toList := by
  rw [tokenOf, String.toList_ofList]
  exact h.covers length

/-- A token of a kind that says nothing about its text stands where it has been read. -/
theorem standsIn_ofKind {source : List Char} {scanner : Scanner}
    (h : scanner.cursor.StandsIn source) {kind : TokenKind}
    (hkind : kind ∈ [.eof, .frontmatterClose]) (length : Nat) :
    (scanner.tokenOf kind length).StandsIn source := by
  have hcovers := standsIn_tokenOf h kind length
  obtain rfl | rfl : kind = .eof ∨ kind = .frontmatterClose := by simpa using hkind
  · exact ⟨hcovers, by simp [tokenOf, TokenKind.spelling?], by simp [tokenOf], by simp [tokenOf],
      by simp [tokenOf]⟩
  · exact ⟨hcovers, by simp [tokenOf, TokenKind.spelling?], by simp [tokenOf], by simp [tokenOf],
      by simp [tokenOf]⟩

theorem ReadAs.standsIn {source : List Char} {scanner behind : Scanner} {token : Token}
    (h : ReadAs scanner token behind) (hsource : scanner.cursor.StandsIn source) :
    token.StandsIn source ∧ behind.cursor.StandsIn source := by
  have hgap : scanner.passGap.cursor.StandsIn source := hsource.advanceBy _
  cases h with
  | frontmatterEnd hphase hrest => exact ⟨standsIn_ofKind hsource (by simp) _, hsource⟩
  | frontmatterClose hphase hlength =>
    exact ⟨standsIn_ofKind hsource (by simp) _, hsource.advanceBy _⟩
  | frontmatterBody hphase hrest hnone =>
    refine ⟨⟨standsIn_tokenOf hsource _ _, by simp [tokenOf, TokenKind.spelling?],
      by simp [tokenOf], by simp [tokenOf], fun _ hempty => ?_⟩, hsource.advanceBy _⟩
    have hpos := bodyLength_pos hrest hnone
    have hne := List.length_pos_iff.mpr hrest
    have := congrArg (fun text => text.toList.length) hempty
    simp only [tokenOf, String.toList_ofList, List.length_take, String.toList_empty,
      List.length_nil] at this
    omega
  | frontmatterOpen hphase hlength =>
    refine ⟨⟨standsIn_tokenOf hgap _ _, by simp [tokenOf, TokenKind.spelling?],
      by simp [tokenOf], fun _ => ?_, by simp [tokenOf]⟩, hgap.advanceBy _⟩
    unfold opening? at hlength
    split at hlength
    · rw [tokenOf, String.toList_ofList]
      exact Frontmatter.delimiter?_line hlength rfl
    · simp at hlength
  | eof hphase hopening heof => exact ⟨standsIn_ofKind hgap (by simp) _, hgap⟩
  | @lexeme lexeme hphase hopening hlexeme hkind =>
    have hrecognized := Lexeme.recognized_of_ok hlexeme
    have hother : ∀ kind ∈ Lexeme.unspelled, kind ≠ .dollarVar → lexeme.kind ≠ kind := by
      rintro kind hmem hne rfl
      exact hrecognized.dollar_or_other.elim (fun h => hne h.1) fun h => h hmem
    refine ⟨⟨standsIn_tokenOf hgap _ _, fun spelling hspelling => ?_, fun hdollar => ?_,
      fun hk => absurd hk (hother _ (by decide) (by decide)),
      fun hk => absurd hk (hother _ (by decide) (by decide))⟩, hgap.advanceBy _⟩
    · rw [tokenOf, hrecognized.spelling hspelling, String.ofList_toList]
    · rw [tokenOf, String.toList_ofList]
      obtain ⟨-, hname⟩ | hother := hrecognized.dollar_or_other
      · exact hname
      · exact absurd (by rw [show lexeme.kind = .dollarVar from hdollar]; decide) hother

theorem Reads.standsIn {source : List Char} {scanner : Scanner} {tokens : List Token}
    (h : Reads scanner tokens) (hsource : scanner.cursor.StandsIn source) :
    ∀ token ∈ tokens, token.StandsIn source := by
  induction h with
  | last hread =>
    rw [List.forall_mem_singleton]
    exact ((readAs_of_read hread).standsIn hsource).1
  | more hread _ _ ih =>
    rw [List.forall_mem_cons]
    obtain ⟨hhere, hbehind⟩ := (readAs_of_read hread).standsIn hsource
    exact ⟨hhere, ih hbehind⟩

/-- Within frontmatter the next token starts where the scanner stands. -/
theorem ReadAs.within_frontmatter {scanner behind : Scanner} {token : Token}
    (h : ReadAs scanner token behind) (hphase : scanner.phase = .frontmatter) :
    token.span.start = scanner.cursor.offset ∧ token.kind.isTrivia = false := by
  cases h with
  | frontmatterEnd | frontmatterClose | frontmatterBody => exact ⟨rfl, rfl⟩
  | frontmatterOpen hother | eof hother | lexeme hother => exact absurd hphase hother

/-- Behind a token that leaves frontmatter open, the scanner stays within it. -/
theorem ReadAs.leaves_open {scanner behind : Scanner} {token : Token}
    (h : ReadAs scanner token behind)
    (hkind : token.kind ∈ [.frontmatterOpen, .frontmatterBody]) :
    behind.phase = .frontmatter ∧ behind.cursor.offset = token.span.stop := by
  cases h with
  | frontmatterBody hphase => exact ⟨hphase, rfl⟩
  | frontmatterOpen => exact ⟨rfl, rfl⟩
  | frontmatterEnd | frontmatterClose | eof => simp [tokenOf] at hkind
  | lexeme _ _ hlexeme _ =>
    obtain ⟨hdollar, -⟩ | hother := (Lexeme.recognized_of_ok hlexeme).dollar_or_other
    · simp [tokenOf, hdollar] at hkind
    · refine absurd ?_ hother
      simp only [tokenOf, List.mem_cons, List.not_mem_nil, or_false] at hkind
      obtain hk | hk := hkind <;> rw [hk] <;> decide

theorem Reads.isChain {scanner : Scanner} {tokens : List Token} (h : Reads scanner tokens) :
    tokens.IsChain Token.Adjoins := by
  induction h with
  | last => exact .singleton _
  | more hread _ htokens ih =>
    cases htokens with
    | last hnext | more hnext =>
      refine .cons_cons (fun hkind => ?_) ih
      obtain ⟨hphase, hoffset⟩ := (readAs_of_read hread).leaves_open hkind
      rw [← hoffset]
      exact (readAs_of_read hnext).within_frontmatter hphase

/-- The last token that a scanner reads is the end, and no other one is. -/
theorem Reads.eof {scanner : Scanner} {tokens : List Token} (h : Reads scanner tokens) :
    ∃ others stop, tokens = others ++ [stop] ∧ stop.kind = .eof ∧
      ∀ token ∈ others, token.kind ≠ .eof := by
  induction h with
  | @last _ token _ _ hkind => exact ⟨[], token, rfl, hkind, by simp⟩
  | @more _ token _ _ _ hkind _ ih =>
    obtain ⟨others, stop, rfl, hstop, hothers⟩ := ih
    exact ⟨token :: others, stop, rfl, hstop, List.forall_mem_cons.mpr ⟨hkind, hothers⟩⟩

theorem reads_of_tokenize {source : String} {tokens : List Token}
    (h : tokenize source = .ok tokens) : Reads (ofSource source.toList) tokens :=
  reads_of_tokens? rfl h

end Scanner

/-- What matters to the grammar adjoins as all tokens do. -/
theorem TokenStream.isChain_significant {tokens : List Token}
    (h : tokens.IsChain Token.Adjoins) : (significant tokens).IsChain Token.Adjoins := by
  induction tokens with
  | nil => exact .nil
  | cons token rest ih =>
    have hrest := ih h.tail
    rw [significant, List.filter_cons]
    split
    · cases hnext : significant rest with
      | nil =>
        rw [← significant, hnext]
        exact .singleton _
      | cons next others =>
        rw [← significant, hnext]
        rw [hnext] at hrest
        refine .cons_cons (fun hkind => ?_) hrest
        cases rest with
        | nil => simp [significant] at hnext
        | cons token' rest =>
          obtain ⟨hstart, htrivia⟩ := h.rel hkind
          rw [significant, List.filter_cons_of_pos (by simp [htrivia])] at hnext
          obtain ⟨rfl, -⟩ := List.cons.inj hnext
          exact ⟨hstart, htrivia⟩
    · exact hrest

/-- Each token of a source that matters to the grammar stands where its span says. -/
theorem standsIn_of_tokenize {source : String} {tokens : List Token}
    (h : tokenize source = .ok tokens) :
    ∀ token ∈ tokens, token.StandsIn source.toList :=
  (Scanner.reads_of_tokenize h).standsIn (Cursor.standsIn_ofSource _)

theorem isChain_adjoins_of_tokenize {source : String} {tokens : List Token}
    (h : tokenize source = .ok tokens) :
    (TokenStream.ofTokens tokens).rest.IsChain Token.Adjoins := by
  have hchain := TokenStream.isChain_significant (Scanner.reads_of_tokenize h).isChain
  rw [← List.takeWhile_append_dropWhile (p := (·.kind != .eof))
    (l := TokenStream.significant tokens)] at hchain
  exact hchain.left_of_append

end PipelineLang
