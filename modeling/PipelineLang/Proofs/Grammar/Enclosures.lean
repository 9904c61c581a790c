import PipelineLang.Proofs.Grammar.Brackets
import PipelineLang.Proofs.Grammar.Triple

/-!
# Rules between brackets

Whatever a rule takes, brackets are closed in the order in which they were opened, so at each
place of a stream there is a stack of brackets that are still open.

## Main definitions

- `Enclosure` — brackets that are open at a place of a list of tokens
- `Enclosure.Fails` — what holds of an error and of the stream that it has left
- `Enclosure.Keeps` — a rule closes the brackets that it opens, and no others

## Main results

- `Enclosure.Keeps.commit`, `Enclosure.Keeps.series` — rules made of rules that close their brackets
- `Enclosure.triple_expectClosing` — the bracket opened last is closed, or never is

## Design notes

An error is told together with the place where a rule has failed, since an enclosing block may
tell it anew there: `Enclosure.Fails` has both.
-/

namespace PipelineLang

/-- Brackets that are open at a place of some tokens, the last one first. -/
structure Enclosure where
  tokens : List Token
  /-- The token at the end. -/
  stop : Token
  openers : List Token

namespace Enclosure

open Parse

/-- The brackets that are open behind another opening one. -/
def under (around : Enclosure) (opener : Token) : Enclosure :=
  { around with openers := opener :: around.openers }

/-- A stream of the tokens at a place where the brackets are open. -/
structure Stands (around : Enclosure) (stream : TokenStream) : Prop where
  stop : stream.stop = around.stop
  stop_kind : around.stop.kind = .eof
  kinds : ∀ token ∈ around.tokens, token.kind ≠ .eof
  opens : ∃ before, around.tokens = before ++ stream.rest ∧ Opens around.openers before

/-- Such a place before a token of some kind. -/
def StandsAt (around : Enclosure) (kind : TokenKind) (stream : TokenStream) : Prop :=
  around.Stands stream ∧ stream.peek.kind = kind

/-- Such a place before a token. -/
def StandsBefore (around : Enclosure) (token : Token) (stream : TokenStream) : Prop :=
  around.Stands stream ∧ stream.peek = token

/-- An error, and the stream that it has left. -/
structure Fails (around : Enclosure) (error : SyntaxError) (behind : TokenStream) : Prop where
  stands : ∃ inner, Stands { around with openers := inner ++ around.openers } behind
  unclosed : ∀ kind openedAt, error.cause = .unclosed kind openedAt →
    Unclosed around.tokens around.stop kind openedAt error.span
  ended : Grammar.foundEnd error → behind.rest = [] ∨
    ∃ token rest tokens, behind.rest = token :: rest ∧ token.Replaces tokens

variable {α β : Type} {around : Enclosure} {P : TokenStream → Prop} {Q : α → TokenStream → Prop}
  {R : β → TokenStream → Prop} {stream : TokenStream} {opener : Token}

/-- A rule closes the brackets that it opens, and no others. -/
def Keeps (around : Enclosure) (rule : Parse α) : Prop :=
  Triple around.Fails around.Stands rule fun _ => around.Stands

/-! ### Streams -/

theorem Stands.rest_of_eof (h : around.Stands stream) (hkind : stream.peek.kind = .eof) :
    stream.rest = [] := by
  obtain ⟨before, htokens, -⟩ := h.opens
  cases hrest : stream.rest with
  | nil => rfl
  | cons token rest =>
    have hpeek : stream.peek = token := by rw [TokenStream.peek, hrest]; rfl
    exact absurd (hpeek ▸ hkind) (h.kinds token (by rw [htokens, hrest]; simp))

theorem Stands.rest_of_ne_eof (h : around.Stands stream) (hkind : stream.peek.kind ≠ .eof) :
    ∃ rest, stream.rest = stream.peek :: rest := by
  cases hrest : stream.rest with
  | nil =>
    have hpeek : stream.peek = stream.stop := by rw [TokenStream.peek, hrest]; rfl
    rw [hpeek, h.stop, h.stop_kind] at hkind
    exact absurd rfl hkind
  | cons token rest => exact ⟨rest, by rw [TokenStream.peek, hrest]; rfl⟩

theorem Stands.kind_peek_pass (h : around.Stands stream) :
    stream.pass.peek.kind = stream.peekSecond := by
  have hstop : stream.stop.kind = .eof := by rw [h.stop, h.stop_kind]
  rcases hrest : stream.rest with _ | ⟨first, _ | ⟨second, rest⟩⟩ <;>
    simp [TokenStream.pass, TokenStream.peek, TokenStream.peekSecond, hrest, hstop]

/-- A stream behind some tokens. -/
theorem Stands.behind (h : around.Stands stream) {behind : TokenStream} (taken : List Token)
    {openers : List Token} (hstop : behind.stop = stream.stop)
    (hrest : stream.rest = taken ++ behind.rest)
    (hopens : ∀ before, Opens around.openers before → Opens openers (before ++ taken)) :
    Stands { around with openers := openers } behind := by
  obtain ⟨before, htokens, hbefore⟩ := h.opens
  refine ⟨hstop.trans h.stop, h.stop_kind, h.kinds, before ++ taken, ?_, hopens before hbefore⟩
  rw [htokens, hrest, List.append_assoc]

theorem Stands.pass {openers : List Token} (h : around.Stands stream)
    (hkind : stream.peek.kind ≠ .eof)
    (hopens : ∀ before, Opens around.openers before → Opens openers (before ++ [stream.peek])) :
    Stands { around with openers := openers } stream.pass := by
  obtain ⟨rest, hrest⟩ := h.rest_of_ne_eof hkind
  have hpass : stream.pass = { stream with rest := rest, last := some stream.peek.span } := by
    unfold TokenStream.pass
    rw [hrest]
  refine h.behind [stream.peek] (by rw [hpass]) ?_ hopens
  rw [hpass, hrest]
  rfl

theorem Stands.fails (h : around.Stands stream) {error : SyntaxError}
    (hunclosed : ∀ kind openedAt, error.cause = .unclosed kind openedAt →
      Unclosed around.tokens around.stop kind openedAt error.span)
    (hended : Grammar.foundEnd error → stream.rest = []) : around.Fails error stream :=
  ⟨⟨[], h⟩, hunclosed, fun hend => .inl (hended hend)⟩

/-- What fails where more brackets are open fails. -/
theorem Fails.of_under {error : SyntaxError} {behind : TokenStream}
    (h : (around.under opener).Fails error behind) : around.Fails error behind := by
  obtain ⟨inner, hstands⟩ := h.stands
  refine ⟨⟨inner ++ [opener], ?_⟩, h.unclosed, h.ended⟩
  rw [List.append_assoc]
  exact hstands

/-! ### Rules -/

theorem triple_of_under {rule : Parse α} (h : Triple (around.under opener).Fails P rule Q) :
    Triple around.Fails P rule Q :=
  h.consequence (fun _ _ h => h.of_under) (fun _ h => h) fun _ _ h => h

theorem keeps_return (a : α) : around.Keeps (pure a : Parse α) := fun _ h => h

/-! ### Failing -/

theorem triple_fail {cause : TokenStream → SyntaxCause}
    (hcause : ∀ stream, (∀ kind openedAt, cause stream ≠ .unclosed kind openedAt) ∧
      ∀ expected, cause stream ≠ .unexpected expected .eof) :
    Triple around.Fails around.Stands (fun stream => fail (cause stream) stream) Q := by
  intro stream hstream
  refine hstream.fails (fun kind openedAt h => ?_) fun h => ?_
  · exact absurd h ((hcause stream).1 kind openedAt)
  unfold Grammar.foundEnd at h
  split at h
  · next expected heq => exact absurd heq ((hcause stream).2 expected)
  · simp at h

theorem triple_unexpected (expected : List Expectation) :
    Triple around.Fails around.Stands (unexpected expected) Q := by
  intro stream hstream
  refine hstream.fails (fun kind openedAt h => by cases h) fun h => hstream.rest_of_eof ?_
  unfold Grammar.foundEnd at h
  split at h
  · next heq => exact (SyntaxCause.unexpected.inj heq).2
  · simp at h

/-- A bracket that is open where the tokens, or those of a replacement, have ended. -/
theorem unclosed_of_stands {inner openers : List Token} {behind : TokenStream}
    (h : Stands { around with openers := inner ++ opener :: openers } behind)
    (hend : behind.rest = [] ∨
      ∃ token rest tokens, behind.rest = token :: rest ∧ token.Replaces tokens) :
    Unclosed around.tokens around.stop opener.kind opener.span behind.peek.span := by
  obtain ⟨before, htokens, hbefore⟩ := h.opens
  obtain ⟨front, inside, rfl, hopener, hcount⟩ := hbefore.unclosed
  have hunclosed : opener.IsUnclosed inside := Token.isUnclosed_of_countBehind? hcount
  change around.tokens = _ at htokens
  obtain hnil | ⟨token, rest, tokens, hrest, hreplaces⟩ := hend
  · have hpeek : behind.peek = around.stop := by
      rw [TokenStream.peek, hnil]
      exact h.stop
    rw [htokens, hnil, List.append_nil, hpeek]
    exact .atEnd hopener hunclosed
  · have hpeek : behind.peek = token := by
      rw [TokenStream.peek, hrest]
      rfl
    rw [htokens, hrest, hpeek, List.append_assoc, List.cons_append]
    exact .atFormat hopener hunclosed hreplaces

/-- Where the tokens have ended, a bracket that is open is not closed. -/
theorem triple_unclosed :
    Triple (around.under opener).Fails ((around.under opener).StandsAt .eof)
      (unclosed opener) Q := by
  rintro stream ⟨hstream, hkind⟩
  have hnil := hstream.rest_of_eof hkind
  refine hstream.fails (fun kind openedAt h => ?_) fun h => absurd h (by simp [Grammar.foundEnd])
  cases h
  have hstands : Stands { around with openers := [] ++ opener :: around.openers } stream := hstream
  exact unclosed_of_stands hstands (.inl hnil)

/-! ### Single tokens -/

theorem triple_take :
    Triple around.Fails (fun stream => around.Stands stream ∧ stream.peek.kind.isPlain) take
      fun _ => around.Stands := by
  rintro stream ⟨hstream, hplain⟩
  by_cases hkind : stream.peek.kind = .eof
  · -- The end stays where it is.
    have hpass : stream.pass = stream := by
      unfold TokenStream.pass
      rw [hstream.rest_of_eof hkind]
    show around.Stands stream.pass
    rwa [hpass]
  · exact hstream.pass hkind fun before h => h.level (.plain hplain .nil)

theorem triple_take_opener {kind : TokenKind} (hkind : kind.closer?.isSome) :
    Triple around.Fails (around.StandsAt kind) take fun opener stream =>
      opener.kind = kind ∧ (around.under opener).Stands stream := by
  rintro stream ⟨hstream, rfl⟩
  refine ⟨rfl, hstream.pass (fun heof => ?_) fun before h => h.opens hkind⟩
  rw [heof] at hkind
  exact absurd hkind (by decide)

theorem triple_take_closer :
    Triple around.Fails
      (fun stream => (around.under opener).Stands stream ∧
        opener.kind.closer? = some stream.peek.kind)
      take fun _ => around.Stands := by
  rintro stream ⟨hstream, hcloser⟩
  refine hstream.pass (fun heof => ?_) fun before h => h.closes hcloser
  have hkind := TokenKind.isCloser_of_closer? hcloser
  rw [heof] at hkind
  exact absurd hkind (by decide)

theorem triple_take_first {kind : TokenKind} : Triple around.Fails
    (fun stream => around.Stands stream ∧ stream.peek.kind.isPlain ∧ stream.peekSecond = kind) take
    fun _ => around.StandsAt kind := by
  rintro stream ⟨hstream, hplain, hsecond⟩
  exact ⟨triple_take stream ⟨hstream, hplain⟩, hstream.kind_peek_pass.trans hsecond⟩

theorem triple_peekAt {next : Token → Parse β}
    (h : ∀ token, Triple around.Fails (around.StandsAt token.kind) (next token) R) :
    Triple around.Fails around.Stands (Parse.peek >>= next) R :=
  fun stream hstream => h stream.peek stream ⟨hstream, rfl⟩

theorem keeps_isAt (kind : TokenKind) : around.Keeps (Parse.isAt kind) := fun _ h => h

theorem keeps_peek : around.Keeps Parse.peek := fun _ h => h

theorem keeps_peekKind : around.Keeps Parse.peekKind := fun _ h => h

theorem keeps_lastSpan : around.Keeps lastSpan := fun _ h => h

theorem triple_take_eq {kind : TokenKind} (hkind : kind.isPlain) :
    Triple around.Fails (around.StandsAt kind) take fun token stream =>
      token.kind = kind ∧ around.Stands stream := by
  rintro stream ⟨hstream, rfl⟩
  exact ⟨rfl, triple_take stream ⟨hstream, hkind⟩⟩

theorem triple_take_kind {kind : TokenKind} (hkind : kind.isPlain) :
    Triple around.Fails (around.StandsAt kind) take fun _ => around.Stands :=
  (triple_take_eq hkind).post fun _ _ h => h.2

theorem keeps_eat {kind : TokenKind} (hkind : kind.isPlain) : around.Keeps (eat kind) :=
  (triple_take_kind hkind).eat fun _ h _ => h

theorem keeps_eats {kind : TokenKind} (hkind : kind.isPlain) : around.Keeps (eats kind) :=
  (keeps_eat hkind).bind fun _ => keeps_return _

theorem keeps_expect {kind : TokenKind} (hkind : kind.isPlain) : around.Keeps (Parse.expect kind) :=
  (triple_take_kind hkind).expect ((triple_unexpected _).pre fun _ h => h.1)

theorem triple_expect_opener {kind : TokenKind} (hkind : kind.closer?.isSome) :
    Triple around.Fails around.Stands (Parse.expect kind)
      fun opener stream => opener.kind = kind ∧ (around.under opener).Stands stream :=
  (triple_take_opener hkind).expect ((triple_unexpected _).pre fun _ h => h.1)

/-- The bracket that was opened last is closed. -/
theorem triple_expectClosing {kind closer : TokenKind} (hopener : opener.kind = kind)
    (hcloser : kind.closer? = some closer) :
    Triple around.Fails (around.under opener).Stands (expectClosing closer opener)
      fun _ => around.Stands := by
  refine Triple.isAt (triple_of_under triple_unclosed) (Triple.pre ?_ fun _ h => h.1)
  refine Triple.expect ?_ ((triple_of_under (triple_unexpected _)).pre fun _ h => h.1)
  exact triple_take_closer.pre fun _ h => ⟨h.1, by rw [h.2, hopener, hcloser]⟩

theorem keeps_skip {kinds : List TokenKind} (hkinds : ∀ kind ∈ kinds, kind.isPlain) :
    around.Keeps (skip kinds) := by
  intro stream hstream
  refine hstream.behind (stream.rest.takeWhile fun token => kinds.contains token.kind) rfl
    (List.prefix_iff_eq_append.mp (List.takeWhile_prefix _)).symm
    fun before h => h.level (level_of_plain fun token htoken => ?_)
  have hkind := List.mem_takeWhile_imp htoken
  exact hkinds _ (List.contains_iff_mem.mp hkind)

theorem keeps_skipNewlines : around.Keeps skipNewlines :=
  (keeps_skip (by decide)).bind fun _ => keeps_return _

/-! ### Readings that may be given up -/

theorem Keeps.attempt {rule : Parse (Option α)} (h : around.Keeps rule) :
    around.Keeps (attempt rule) :=
  Triple.attempt (h.post fun _ _ h _ _ => h) fun _ h => h

theorem Keeps.commit {rule : Parse (Option α)} (h : around.Keeps rule) :
    around.Keeps (commit rule) :=
  Triple.commit (h.post fun _ _ h _ _ => h) fun _ h => h

/-! ### Series -/

section

variable {item : Parse α} {again : Parse Bool}

theorem Keeps.series (hitem : around.Keeps item) (hagain : around.Keeps again) :
    around.Keeps (series item again) :=
  (Triple.series hitem (Triple.more hagain) fun _ h => h).post fun _ _ h => h.2

theorem Keeps.whenAhead (hitem : around.Keeps item) (hagain : around.Keeps again) :
    around.Keeps (whenAhead again item) :=
  Triple.whenAhead hitem (Triple.more hagain) fun _ h => h

end

/-! ### Replacements -/

/-- The tokens of a replacement, where no bracket is open yet. -/
def ofTokens (tokens : List Token) : Enclosure :=
  ⟨(TokenStream.ofTokens tokens).rest, (TokenStream.ofTokens tokens).stop, []⟩

theorem stands_ofTokens (tokens : List Token) :
    (ofTokens tokens).Stands (TokenStream.ofTokens tokens) where
  stop := rfl
  stop_kind := TokenStream.kind_stop_ofTokens tokens
  kinds _ htoken := TokenStream.kind_ne_of_mem_rest htoken
  opens := ⟨[], rfl, .nil⟩

/-- A bracket that is open in a replacement is unclosed there, and what comes to the end of a
replacement has come to a format string. -/
theorem Keeps.within {rule : Parse α} {token : Token} {tokens : List Token}
    (h : (ofTokens tokens).Keeps rule) (htokens : token.Replaces tokens) :
    Triple around.Fails (around.StandsBefore token) (Parse.within (.ofTokens tokens) rule)
      fun _ => around.StandsBefore token := by
  have hrule : Triple (fun error _ => ∀ stream, around.StandsBefore token stream →
      around.Fails error stream) (ofTokens tokens).Stands rule
      fun _ _ => ∀ stream, around.StandsBefore token stream → around.StandsBefore token stream := by
    refine h.consequence (fun error behind hfails => ?_) (fun _ h => h) fun _ _ _ _ h => h
    -- The stream stays at the format string, whatever is wrong with the replacement.
    rintro stream ⟨hstream, rfl⟩
    obtain ⟨rest, hrest⟩ := hstream.rest_of_ne_eof (by rw [htokens.kind]; decide)
    obtain ⟨before, haround, hbefore⟩ := hstream.opens
    refine ⟨⟨[], hstream⟩, fun kind openedAt hcause => ?_,
      fun _ => .inr ⟨_, rest, tokens, hrest, htokens⟩⟩
    rw [haround, hrest]
    exact .within htokens (hfails.unclosed kind openedAt hcause)
  exact Triple.within (hrule.pre fun _ h => h ▸ stands_ofTokens tokens)

end Enclosure

end PipelineLang
