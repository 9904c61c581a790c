import Mathlib.Data.Fintype.EquivFin
import PipelineLang.Proofs.Grammar.Enclosures
import PipelineLang.Proofs.Token.Rereading

/-!
# Braces in replacements

A replacement ends at the first brace that closes none of its own. So none of the tokens in it
closes a brace that is open before them, and a rule that closes all that it opens never stops
before a closing brace.

## Main definitions

- `bracesBehind?` — the number of braces that are open behind some tokens

## Main results

- `Token.Replaces.isSome_bracesBehind?` — the tokens of a replacement close only their own braces
- `Enclosure.kind_ne_rBrace_of_keeps` — behind a rule for them, no closing brace is next

## Design notes

While the end of a replacement is looked for, only braces are counted: there may be more
parentheses that close than ones that open. So this count is not that of all brackets.
-/

namespace PipelineLang

/-- How many braces are open behind a token if `depth` are before it; none if it closes one and
none is open. -/
def TokenKind.bracesBehind? (kind : TokenKind) (depth : Nat) : Option Nat :=
  match kind with
  | .lBrace => some (depth + 1)
  | .rBrace => depth.ppred
  | _ => some depth

/-- How many braces are open behind some tokens if `depth` are before them; none if they close
more. -/
def bracesBehind? (depth : Nat) (tokens : List Token) : Option Nat :=
  tokens.foldlM (fun depth token => token.kind.bracesBehind? depth) depth

theorem bracesBehind?_append (depth : Nat) (front back : List Token) :
    bracesBehind? depth (front ++ back) =
      (bracesBehind? depth front).bind fun depth => bracesBehind? depth back :=
  List.foldlM_append

theorem bracesBehind?_cons (depth : Nat) (token : Token) (rest : List Token) :
    bracesBehind? depth (token :: rest) =
      (token.kind.bracesBehind? depth).bind fun depth => bracesBehind? depth rest :=
  List.foldlM_cons

theorem TokenKind.bracesBehind?_of_ne {kind : TokenKind} (hl : kind ≠ .lBrace)
    (hr : kind ≠ .rBrace) (depth : Nat) : kind.bracesBehind? depth = some depth := by
  unfold bracesBehind?
  split
  · exact absurd rfl hl
  · exact absurd rfl hr
  · rfl

theorem TokenKind.ne_brace_of_isPlain {kind : TokenKind} (h : kind.isPlain) :
    kind ≠ .lBrace ∧ kind ≠ .rBrace := by
  constructor <;> rintro rfl <;> exact absurd h (by decide)

/-- Where all brackets are closed, so are all braces. -/
theorem Level.bracesBehind? {tokens : List Token} (h : Level tokens) (depth : Nat) :
    bracesBehind? depth tokens = some depth := by
  induction h generalizing depth with
  | nil => rfl
  | plain hplain _ ih =>
    obtain ⟨hl, hr⟩ := TokenKind.ne_brace_of_isPlain hplain
    rw [bracesBehind?_cons, TokenKind.bracesBehind?_of_ne hl hr, Option.bind_some, ih]
  | @group opener inside closer rest hcloser _ _ ihinside ih =>
    rw [bracesBehind?_cons]
    by_cases hbrace : opener.kind = .lBrace
    · have hr : closer.kind = .rBrace := by
        rw [hbrace] at hcloser
        exact (Option.some.inj hcloser).symm
      rw [hbrace, TokenKind.bracesBehind?, Option.bind_some, bracesBehind?_append, ihinside,
        Option.bind_some, bracesBehind?_cons, hr]
      exact ih depth
    · have hnone : opener.kind ≠ .rBrace ∧ closer.kind ≠ .lBrace ∧ closer.kind ≠ .rBrace := by
        revert hcloser hbrace
        cases opener.kind <;> simp [TokenKind.closer?] <;> intro h <;> simp [← h]
      rw [TokenKind.bracesBehind?_of_ne hbrace hnone.1, Option.bind_some, bracesBehind?_append,
        ihinside, Option.bind_some, bracesBehind?_cons,
        TokenKind.bracesBehind?_of_ne hnone.2.1 hnone.2.2, Option.bind_some, ih]

theorem isSome_bracesBehind?_append {depth : Nat} {front back : List Token}
    (h : (bracesBehind? depth (front ++ back)).isSome) : (bracesBehind? depth front).isSome := by
  rw [bracesBehind?_append, Option.isSome_bind] at h
  exact Option.isSome_of_any h

/-- Tokens that are no braces do not count. -/
theorem bracesBehind?_filter {p : Token → Bool} (depth : Nat) {tokens : List Token}
    (h : ∀ token ∈ tokens, p token = false → token.kind ≠ .lBrace ∧ token.kind ≠ .rBrace) :
    bracesBehind? depth (tokens.filter p) = bracesBehind? depth tokens := by
  induction tokens generalizing depth with
  | nil => rfl
  | cons token tokens ih =>
    rw [List.forall_mem_cons] at h
    by_cases hp : p token
    · rw [List.filter_cons_of_pos hp, bracesBehind?_cons, bracesBehind?_cons]
      simp only [ih _ h.2]
    · obtain ⟨hl, hr⟩ := h.1 (by simpa using hp)
      rw [List.filter_cons_of_neg hp, ih _ h.2, bracesBehind?_cons,
        TokenKind.bracesBehind?_of_ne hl hr, Option.bind_some]

/-- The grammar leaves out no braces. -/
theorem isSome_bracesBehind?_ofTokens {depth : Nat} {tokens : List Token}
    (h : (bracesBehind? depth tokens).isSome) :
    (bracesBehind? depth (TokenStream.ofTokens tokens).rest).isSome := by
  rw [← bracesBehind?_filter (p := fun token => !token.kind.isTrivia) depth] at h
  · rw [← List.takeWhile_append_dropWhile (p := fun token : Token => token.kind != .eof)
      (l := tokens.filter _)] at h
    exact isSome_bracesBehind?_append h
  · intro token _ htrivia
    constructor <;> intro heq <;> simp [heq, TokenKind.isTrivia] at htrivia

/-! ### The tokens of a replacement -/

/-- The tokens that are seen before the end of a replacement close only their own braces. -/
theorem Replacement.Sees.isSome_bracesBehind?
    {token : Before → List Char → Except LexicalFault Lexeme} {text : List Char} {position : Nat}
    {state : State} {seen : List (Nat × Lexeme)} {innerStop : Nat}
    (h : Sees token text position state seen innerStop) (here : Cursor) (stop : Nat) :
    (bracesBehind? state.depth (here.tokensSeen seen stop)).isSome := by
  induction h with
  | close => rfl
  | @token position state lexeme seen innerStop _ _ hopen _ ih =>
    have hcons :
        here.tokensSeen ((position + Gap.length (text.drop position), lexeme) :: seen) stop =
        (here.advanceBy (position + Gap.length (text.drop position))).token lexeme ::
          here.tokensSeen seen stop := rfl
    have hkind : lexeme.kind.bracesBehind? state.depth =
        some (state.behind lexeme (text.drop position)).depth := by
      by_cases hl : lexeme.kind = .lBrace
      · simp only [TokenKind.bracesBehind?, State.behind, hl]
      by_cases hr : lexeme.kind = .rBrace
      · obtain ⟨depth, hdepth⟩ := Nat.exists_eq_succ_of_ne_zero (hopen hr)
        simp only [TokenKind.bracesBehind?, State.behind, hr, hdepth]
        rfl
      · rw [TokenKind.bracesBehind?_of_ne hl hr, State.behind]
        simp
    rw [hcons, bracesBehind?_cons]
    show ((lexeme.kind.bracesBehind? state.depth).bind _).isSome
    rw [hkind]
    exact ih

theorem Token.Replaces.isSome_bracesBehind? {token : Token} {tokens : List Token}
    (h : token.Replaces tokens) : (bracesBehind? 0 tokens).isSome := by
  obtain ⟨pieces, inner, innerSpan, span, hpieces, hmem, htokens⟩ := h.tokens
  rw [formatPieces] at hpieces
  split at hpieces
  · next body hbody =>
    obtain rfl := Except.ok.inj hpieces
    obtain ⟨part, hpart, hpiece⟩ := List.mem_map.mp hmem
    obtain ⟨previous, hparts⟩ := (FormatBody.parts_of_read hbody).parts
    have hreread := FormatPart.isReread (Nat.le_refl _)
      (hparts.areRead part (List.mem_reverse.mpr hpart))
    cases part with
    | text => simp [FormatPart.piece] at hpiece
    | replacement start innerStop stop =>
      obtain ⟨levels, seen, -, hsees, hseen⟩ := hreread
      rw [FormatPart.piece, FormatPiece.replacement.injEq] at hpiece
      obtain ⟨rfl, rfl, -⟩ := hpiece
      rw [hseen] at htokens
      obtain rfl := Except.ok.inj htokens
      exact hsees.isSome_bracesBehind? _ _
  · simp at hpieces

/-! ### Behind a rule -/

namespace Enclosure

theorem exists_fresh_brace (tokens : List Token) :
    ∃ brace : Token, brace.kind = .lBrace ∧ brace ∉ tokens := by
  obtain ⟨start, hstart⟩ := Infinite.exists_notMem_finset (tokens.map (·.span.start)).toFinset
  refine ⟨⟨.lBrace, "", ⟨start, 0, 0, 0⟩⟩, rfl, fun hmem => hstart ?_⟩
  exact List.mem_toFinset.mpr (List.mem_map_of_mem hmem)

/-- Where a brace was opened before all other tokens and only those opened behind it are closed, no
closing brace is next, if none of the tokens closes a brace that is open before them. -/
theorem Stands.kind_ne_rBrace {brace stop : Token} {tokens : List Token} {stream : TokenStream}
    (h : Stands ⟨brace :: tokens, stop, [brace]⟩ stream) (hfresh : brace ∉ tokens)
    (hbraces : (bracesBehind? 0 tokens).isSome) : stream.peek.kind ≠ .rBrace := by
  intro hkind
  obtain ⟨rest, hrest⟩ := h.rest_of_ne_eof (by rw [hkind]; decide)
  obtain ⟨before, htokens, hbefore⟩ := h.opens
  change brace :: tokens = _ at htokens
  cases hbefore with
  | @cons _ _ before inside _ hinside _ =>
    -- The brace is the first token, since it does not occur again.
    cases before with
    | cons first before =>
      have hmem : brace ∈ tokens := by
        rw [List.cons_append, List.cons_append, List.cons.injEq] at htokens
        rw [htokens.2]
        simp
      exact hfresh hmem
    | nil =>
      rw [List.nil_append, List.cons_append, List.cons.injEq] at htokens
      rw [htokens.2, hrest, bracesBehind?_append, hinside.bracesBehind?, Option.bind_some,
        bracesBehind?_cons, hkind] at hbraces
      simp [TokenKind.bracesBehind?] at hbraces

/-- No closing brace is next where a rule stops that closes all brackets that it opens. -/
theorem kind_ne_rBrace_of_keeps {α : Type} {rule : Parse α} {tokens : List Token}
    (h : ∀ around : Enclosure, around.Keeps rule) (hbraces : (bracesBehind? 0 tokens).isSome)
    {a : α} {behind : TokenStream} (hrun : rule.run (.ofTokens tokens) = .ok a behind) :
    behind.peek.kind ≠ .rBrace := by
  have hstands := stands_ofTokens tokens
  obtain ⟨brace, hkind, hfresh⟩ := exists_fresh_brace (TokenStream.ofTokens tokens).rest
  let around : Enclosure :=
    ⟨brace :: (TokenStream.ofTokens tokens).rest, (TokenStream.ofTokens tokens).stop, [brace]⟩
  have hopens : Opens [brace] ([] ++ [brace]) := Opens.nil.opens (by rw [hkind]; rfl)
  have hbefore : around.Stands (.ofTokens tokens) :=
    ⟨rfl, hstands.stop_kind,
      List.forall_mem_cons.mpr ⟨by rw [hkind]; decide, hstands.kinds⟩, [brace], rfl, hopens⟩
  have hbehind := h around _ hbefore
  rw [hrun] at hbehind
  exact Stands.kind_ne_rBrace hbehind hfresh (isSome_bracesBehind?_ofTokens hbraces)

end Enclosure

end PipelineLang
