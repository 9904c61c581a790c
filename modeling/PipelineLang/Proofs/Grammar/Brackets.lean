import Mathlib.Data.Nat.PSub
import PipelineLang.Grammar.Program

/-!
# Open brackets

## Main definitions

- `Level` — tokens in which all brackets are closed
- `Token.IsUnclosed` — no token behind a bracket closes it
- `Opens` — the brackets that are open behind some tokens
- `Unclosed` — where a bracket is told to be unclosed

## Main results

- `Token.isUnclosed_of_countBehind?` — a count of brackets finds those that are not closed
- `Opens.unclosed` — an open bracket is not closed

## Design notes

`Opens` asks for the brackets that are open, and not for all of them: a list of fewer ones,
counted from the last one on, is one as well.
-/

namespace PipelineLang

/-! ### Brackets -/

namespace TokenKind

/-- The bracket that closes an opening one. -/
def closer? : TokenKind → Option TokenKind
  | .lParen => some .rParen
  | .lBracket => some .rBracket
  | .lBrace => some .rBrace
  | _ => none

/-- Whether a bracket closes another one. -/
def isCloser (kind : TokenKind) : Bool := [.rParen, .rBracket, .rBrace].contains kind

/-- Whether a token is no bracket. -/
def isPlain (kind : TokenKind) : Bool := kind.closer?.isNone && !kind.isCloser

theorem isCloser_of_closer? {kind closer : TokenKind} (h : kind.closer? = some closer) :
    closer.isCloser := by
  cases kind <;> cases h <;> rfl

theorem isPlain_of_isLiteral {kind : TokenKind} (h : kind.isLiteral) : kind.isPlain := by
  cases kind <;> first | rfl | exact absurd h (by decide)

end TokenKind

/-- Tokens in which each bracket is closed by its own closer, and none closes a bracket that
stands before them. -/
inductive Level : List Token → Prop
  | nil : Level []
  | plain {token rest} (hplain : token.kind.isPlain) (h : Level rest) : Level (token :: rest)
  | group {opener inside closer rest} (hcloser : opener.kind.closer? = some closer.kind)
    (hinside : Level inside) (h : Level rest) : Level (opener :: (inside ++ closer :: rest))

/-- Whether no token behind a bracket closes it. -/
def Token.IsUnclosed (opener : Token) (behind : List Token) : Prop :=
  ∀ inside closer rest, behind = inside ++ closer :: rest → Level inside →
    opener.kind.closer? ≠ some closer.kind

theorem Level.append {front back : List Token} (h : Level front) (h' : Level back) :
    Level (front ++ back) := by
  induction h with
  | nil => exact h'
  | plain hplain _ ih => exact .plain hplain ih
  | group hcloser hinside _ _ ih =>
    rw [List.cons_append, List.append_assoc, List.cons_append]
    exact .group hcloser hinside ih

theorem level_of_plain {tokens : List Token} (h : ∀ token ∈ tokens, token.kind.isPlain) :
    Level tokens := by
  induction tokens with
  | nil => exact .nil
  | cons token rest ih =>
    rw [List.forall_mem_cons] at h
    exact .plain h.1 (ih h.2)

/-- How many brackets are open behind a token if `count` are before it; none if it closes one and
none is open. -/
def TokenKind.countBehind? (kind : TokenKind) (count : Nat) : Option Nat :=
  if kind.closer?.isSome then some (count + 1)
  else if kind.isCloser then count.ppred
  else some count

/-- How many brackets are open behind some tokens if `count` are before them; none if they close
more. -/
def countBehind? (count : Nat) (tokens : List Token) : Option Nat :=
  tokens.foldlM (fun count token => token.kind.countBehind? count) count

theorem countBehind?_append (count : Nat) (front back : List Token) :
    countBehind? count (front ++ back) =
      (countBehind? count front).bind fun count => countBehind? count back :=
  List.foldlM_append

theorem countBehind?_cons (count : Nat) (token : Token) (rest : List Token) :
    countBehind? count (token :: rest) =
      (token.kind.countBehind? count).bind fun count => countBehind? count rest :=
  List.foldlM_cons

theorem TokenKind.countBehind?_plain {kind : TokenKind} (h : kind.isPlain) (count : Nat) :
    kind.countBehind? count = some count := by
  rw [isPlain, Bool.and_eq_true, Bool.not_eq_true', Option.isNone_iff_eq_none] at h
  rw [countBehind?, h.1, h.2]
  rfl

theorem TokenKind.countBehind?_opener {kind : TokenKind} (h : kind.closer?.isSome) (count : Nat) :
    kind.countBehind? count = some (count + 1) := if_pos h

theorem TokenKind.countBehind?_closer {kind : TokenKind} (h : kind.isCloser) (count : Nat) :
    kind.countBehind? count = count.ppred := by
  have hopener : kind.closer?.isSome = false := by
    cases kind <;> first | rfl | exact absurd h (by decide)
  rw [countBehind?, hopener, if_neg Bool.false_ne_true, if_pos h]

theorem Level.countBehind? {tokens : List Token} (h : Level tokens) (count : Nat) :
    countBehind? count tokens = some count := by
  induction h generalizing count with
  | nil => rfl
  | plain hplain _ ih =>
    rw [countBehind?_cons, TokenKind.countBehind?_plain hplain, Option.bind_some, ih]
  | group hcloser _ _ ihinside ih =>
    rw [countBehind?_cons, TokenKind.countBehind?_opener (by rw [hcloser]; rfl), Option.bind_some,
      countBehind?_append, ihinside, Option.bind_some, countBehind?_cons,
      TokenKind.countBehind?_closer (TokenKind.isCloser_of_closer? hcloser)]
    exact ih count

/-- What closes no more brackets than it opens does not close one before it. -/
theorem Token.isUnclosed_of_countBehind? {opener : Token} {behind : List Token} {count : Nat}
    (h : countBehind? 0 behind = some count) : opener.IsUnclosed behind := by
  rintro inside closer rest rfl hinside hcloser
  -- Where the closer stands, the count is back at zero.
  have hkind := TokenKind.isCloser_of_closer? hcloser
  rw [countBehind?_append, hinside.countBehind?, Option.bind_some, countBehind?_cons,
    TokenKind.countBehind?_closer hkind] at h
  cases h

/-! ### Brackets that are open -/

/-- The brackets that are open behind some tokens, the last one first. Any number of others may
be open before them. -/
inductive Opens : List Token → List Token → Prop
  | nil {before} : Opens [] before
  | cons {opener openers before inside} (hopener : opener.kind.closer?.isSome)
    (hinside : Level inside) (h : Opens openers before) :
    Opens (opener :: openers) (before ++ opener :: inside)

namespace Opens

variable {opener token : Token} {inner openers before taken : List Token}

theorem level (h : Opens openers before) (htaken : Level taken) :
    Opens openers (before ++ taken) := by
  cases h with
  | nil => exact .nil
  | cons hopener hinside h =>
    rw [List.append_assoc, List.cons_append]
    exact .cons hopener (hinside.append htaken) h

theorem opens (h : Opens openers before) (hkind : token.kind.closer?.isSome) :
    Opens (token :: openers) (before ++ [token]) := .cons hkind .nil h

theorem closes (h : Opens (opener :: openers) before)
    (hcloser : opener.kind.closer? = some token.kind) : Opens openers (before ++ [token]) := by
  cases h with
  | cons hopener hinside h =>
    rw [List.append_assoc, List.cons_append]
    exact h.level (.group hcloser hinside .nil)

/-- Behind an open bracket, no token closes it. -/
theorem unclosed (h : Opens (inner ++ opener :: openers) before) :
    ∃ front behind, before = front ++ opener :: behind ∧ opener.kind.closer?.isSome ∧
      countBehind? 0 behind = some inner.length := by
  induction inner generalizing before with
  | nil =>
    cases h with
    | cons hopener hinside h => exact ⟨_, _, rfl, hopener, hinside.countBehind? 0⟩
  | cons last inner ih =>
    cases h with
    | @cons _ _ before inside hlast hinside h =>
      -- The bracket opened last counts one more than those before it.
      obtain ⟨front, behind, rfl, hopener, hcount⟩ := ih h
      refine ⟨front, behind ++ last :: inside, by simp, hopener, ?_⟩
      rw [countBehind?_append, hcount, Option.bind_some, countBehind?_cons,
        TokenKind.countBehind?_opener hlast, Option.bind_some, hinside.countBehind?,
        List.length_cons]

end Opens

/-! ### Where an unclosed bracket is told of -/

/-- The tokens of a replacement of a format string. -/
structure Token.Replaces (token : Token) (tokens : List Token) : Prop where
  kind : token.kind = .formatString
  tokens : ∃ pieces inner innerSpan span, token.formatPieces = .ok pieces ∧
    .replacement inner innerSpan span ∈ pieces ∧
    (Scanner.within inner innerSpan).tokens? = .ok tokens

/-- Where a bracket of the kind `kind` that was opened at `openedAt` is told to be unclosed. -/
inductive Unclosed : List Token → Token → TokenKind → Span → Span → Prop
  /-- At the end of the tokens, none of which closes the bracket. -/
  | atEnd {front opener behind stop} (hopener : opener.kind.closer?.isSome)
    (h : opener.IsUnclosed behind) :
    Unclosed (front ++ opener :: behind) stop opener.kind opener.span stop.span
  /-- At a format string, where a replacement may end too early. No token up to there closes the
  bracket. -/
  | atFormat {front opener inside token behind stop tokens} (hopener : opener.kind.closer?.isSome)
    (h : opener.IsUnclosed inside) (htokens : token.Replaces tokens) :
    Unclosed (front ++ opener :: (inside ++ token :: behind)) stop opener.kind opener.span
      token.span
  /-- In a replacement of a format string. -/
  | within {front token behind stop tokens kind openedAt span} (htokens : token.Replaces tokens)
    (h : Unclosed (TokenStream.ofTokens tokens).rest (TokenStream.ofTokens tokens).stop kind
      openedAt span) :
    Unclosed (front ++ token :: behind) stop kind openedAt span

end PipelineLang
