import Mathlib.Data.List.TakeWhile
import PipelineLang.Grammar.Parse

/-!
# What rules take

A rule that succeeds takes some tokens from the head of a stream. Here the streams of
one list of tokens are told apart by the tokens before and the tokens ahead, and each
of the small rules is described by the tokens it takes.

## Main definitions

- `TokenStream.between` — the stream at a place within some tokens
- `Parse.Yields` — a rule takes tokens that stand in a relation to what it yields

## Main results

- `Parse.Yields.of_bind` — what the first of two rules took
- `Parse.expect_yields`, `Parse.skip_yields`, … — what the rules for single tokens take
-/

namespace PipelineLang

/-- The kind of the first of some tokens; the end if there are none. -/
def firstKind : List Token → TokenKind
  | [] => .eof
  | token :: _ => token.kind

/-- The kind of the second of some tokens; the end if there are fewer. -/
def secondKind (tokens : List Token) : TokenKind := firstKind tokens.tail

@[simp] theorem firstKind_nil : firstKind [] = .eof := rfl

@[simp] theorem firstKind_cons (token : Token) (rest : List Token) :
    firstKind (token :: rest) = token.kind := rfl

@[simp] theorem secondKind_nil : secondKind [] = .eof := rfl

@[simp] theorem secondKind_cons (token : Token) (rest : List Token) :
    secondKind (token :: rest) = firstKind rest := rfl

/-- A kind that is not the end is the kind of a token. -/
theorem exists_cons_of_firstKind {tokens : List Token} {kind : TokenKind}
    (h : firstKind tokens = kind) (hk : kind ≠ .eof) :
    ∃ token rest, tokens = token :: rest ∧ token.kind = kind := by
  cases tokens with
  | nil => exact absurd h.symm hk
  | cons token rest => exact ⟨token, rest, rfl, h⟩

namespace TokenStream

/-- The stream behind the tokens `before`, with the tokens `ahead` left. -/
def between (before ahead : List Token) (stop : Token) : TokenStream :=
  ⟨ahead, before.getLast?.map (·.span), stop⟩

variable {before ahead rest : List Token} {token stop : Token}

@[simp] theorem rest_between : (between before ahead stop).rest = ahead := rfl

@[simp] theorem stop_between : (between before ahead stop).stop = stop := rfl

@[simp] theorem peek_between_cons : (between before (token :: rest) stop).peek = token := rfl

@[simp] theorem peek_between_nil : (between before [] stop).peek = stop := rfl

theorem kind_peek_between (before : List Token) (hstop : stop.kind = .eof) :
    (between before ahead stop).peek.kind = firstKind ahead := by
  cases ahead with
  | nil => exact hstop
  | cons token rest => rfl

@[simp] theorem peekSecond_between (before ahead : List Token) (stop : Token) :
    (between before ahead stop).peekSecond = secondKind ahead := by
  match ahead with
  | [] => rfl
  | [_] => rfl
  | _ :: _ :: _ => rfl

@[simp] theorem pass_between_cons :
    (between before (token :: rest) stop).pass = between (before ++ [token]) rest stop := by
  simp [between, pass]

@[simp] theorem pass_between_nil : (between before [] stop).pass = between before [] stop := rfl

theorem passWhile_between (p : TokenKind → Bool) :
    (between before ahead stop).passWhile p =
      between (before ++ ahead.takeWhile fun token => p token.kind)
        (ahead.dropWhile fun token => p token.kind) stop := by
  have hdrop : ∀ tokens : List Token,
      tokens.drop (tokens.takeWhile fun token => p token.kind).length =
        tokens.dropWhile fun token => p token.kind := by
    intro tokens
    induction tokens with
    | nil => rfl
    | cons token rest ih =>
      by_cases hp : p token.kind
      · simpa [List.takeWhile, List.dropWhile, hp] using ih
      · simp [List.takeWhile, List.dropWhile, hp]
  simp only [passWhile, between, hdrop, List.getLast?_append]
  cases (ahead.takeWhile fun token => p token.kind).getLast? <;> simp

theorem lastSpan_between_concat (before ahead : List Token) (token stop : Token) :
    (between (before ++ [token]) ahead stop).lastSpan = token.span := by
  simp [between, lastSpan]

/-- The place of the last of some tokens. -/
def endOf (tokens : List Token) : Span := (tokens.getLast?.map (·.span)).getD Span.zero

@[simp] theorem endOf_concat (tokens : List Token) (token : Token) :
    endOf (tokens ++ [token]) = token.span := by
  simp [endOf]

theorem endOf_append (tokens : List Token) {others : List Token} (h : others ≠ []) :
    endOf (tokens ++ others) = endOf others := by
  obtain ⟨front, last, rfl⟩ := (List.eq_nil_or_concat _).resolve_left h
  rw [List.concat_eq_append, ← List.append_assoc, endOf_concat, endOf_concat]

theorem lastSpan_between_append (before ahead : List Token) (stop : Token) {taken : List Token}
    (h : taken ≠ []) : (between (before ++ taken) ahead stop).lastSpan = endOf taken := by
  obtain ⟨front, last, rfl⟩ := (List.eq_nil_or_concat _).resolve_left h
  rw [List.concat_eq_append, ← List.append_assoc, lastSpan_between_concat, endOf_concat]

/-- The stream of some tokens ends with an end token. -/
theorem kind_stop_ofTokens (tokens : List Token) : (ofTokens tokens).stop.kind = .eof := by
  simp only [ofTokens]
  cases hfind : (significant tokens).find? (·.kind == .eof) with
  | none => rfl
  | some token => simpa using List.find?_some hfind

/-- No token before the end of a stream is an end. -/
theorem kind_ne_of_mem_rest {tokens : List Token} {token : Token}
    (h : token ∈ (ofTokens tokens).rest) : token.kind ≠ .eof := by
  simpa using List.mem_takeWhile_imp h

theorem ofTokens_eq_between (tokens : List Token) :
    ofTokens tokens = between [] (ofTokens tokens).rest (ofTokens tokens).stop := rfl

end TokenStream

open TokenStream

namespace Parse

variable {α β : Type} {before ahead : List Token} {stop : Token}

/-! ### One rule after another -/

theorem bind_ok {rule : Parse α} {next : α → Parse β} {stream : TokenStream} {b : β}
    {behind : TokenStream} (h : (rule >>= next).run stream = .ok b behind) :
    ∃ a middle, rule.run stream = .ok a middle ∧ (next a).run middle = .ok b behind := by
  rw [EStateM.run_bind] at h
  cases hrule : rule.run stream with
  | ok a middle => exact ⟨a, middle, rfl, by simpa [hrule] using h⟩
  | error e middle => simp [hrule] at h

theorem bind_eq {rule : Parse α} {next : α → Parse β} {stream middle : TokenStream} {a : α}
    (h : rule.run stream = .ok a middle) : (rule >>= next).run stream = (next a).run middle := by
  rw [EStateM.run_bind, h]

theorem bind_error {rule : Parse α} {next : α → Parse β} {stream middle : TokenStream}
    {error : SyntaxError} (h : rule.run stream = .error error middle) :
    (rule >>= next).run stream = .error error middle := by
  rw [EStateM.run_bind, h]

theorem map_ok {rule : Parse α} {f : α → β} {stream behind : TokenStream} {b : β}
    (h : (f <$> rule).run stream = .ok b behind) :
    ∃ a, rule.run stream = .ok a behind ∧ b = f a := by
  rw [← bind_pure_comp] at h
  obtain ⟨a, middle, hrule, h⟩ := bind_ok h
  rw [EStateM.run_pure] at h
  injection h with hb hmiddle
  exact ⟨a, hmiddle ▸ hrule, hb.symm⟩

theorem pure_ok {a b : α} {stream behind : TokenStream}
    (h : (pure a : Parse α).run stream = .ok b behind) : b = a ∧ behind = stream := by
  rw [EStateM.run_pure] at h
  injection h with h₁ h₂
  exact ⟨h₁.symm, h₂.symm⟩

/-- Where `rule` succeeds, it takes some tokens from the head of the tokens ahead; `R`
relates the tokens before, the tokens taken, the tokens left and the result. -/
def Yields (rule : Parse α) (R : List Token → List Token → List Token → α → Prop) : Prop :=
  ∀ ⦃before ahead : List Token⦄ ⦃stop : Token⦄ ⦃a : α⦄ ⦃behind : TokenStream⦄,
    stop.kind = .eof → rule.run (between before ahead stop) = .ok a behind →
    ∃ taken rest, ahead = taken ++ rest ∧ behind = between (before ++ taken) rest stop ∧
      R before taken rest a

variable {R : List Token → List Token → List Token → α → Prop}

/-- Of two rules in a row, the first has taken its tokens before the second starts. -/
theorem Yields.of_bind {rule : Parse α} {next : α → Parse β} {b : β} {behind : TokenStream}
    (hrule : rule.Yields R) (hstop : stop.kind = .eof)
    (h : (rule >>= next).run (between before ahead stop) = .ok b behind) :
    ∃ a taken rest, ahead = taken ++ rest ∧ R before taken rest a ∧
      (next a).run (between (before ++ taken) rest stop) = .ok b behind := by
  obtain ⟨a, middle, hfirst, hnext⟩ := bind_ok h
  obtain ⟨taken, rest, hahead, rfl, hR⟩ := hrule hstop hfirst
  exact ⟨a, taken, rest, hahead, hR, hnext⟩

/-! ### Rules that take nothing -/

theorem peekKind_eq (hstop : stop.kind = .eof) :
    peekKind.run (between before ahead stop) =
      .ok (firstKind ahead) (between before ahead stop) := by
  rw [← kind_peek_between before hstop]
  rfl

theorem peekSecond_eq :
    peekSecond.run (between before ahead stop) =
      .ok (secondKind ahead) (between before ahead stop) := by
  rw [← peekSecond_between before ahead stop]
  rfl

theorem isAt_eq (hstop : stop.kind = .eof) (kind : TokenKind) :
    (isAt kind).run (between before ahead stop) =
      .ok (firstKind ahead == kind) (between before ahead stop) := by
  rw [← kind_peek_between before hstop]
  rfl

theorem lastSpan_eq {token : Token} :
    lastSpan.run (between (before ++ [token]) ahead stop) =
      .ok token.span (between (before ++ [token]) ahead stop) := by
  rw [← lastSpan_between_concat before ahead token stop]
  rfl

theorem fail_ne_ok {cause : SyntaxCause} {stream behind : TokenStream} {a : α} :
    (fail cause : Parse α).run stream ≠ .ok a behind := by
  simp [fail, EStateM.run]

theorem unexpected_ne_ok {expected : List Expectation} {stream behind : TokenStream} {a : α} :
    (unexpected expected : Parse α).run stream ≠ .ok a behind := by
  simp [unexpected, fail, EStateM.run]

theorem unclosed_ne_ok {opener : Token} {stream behind : TokenStream} {a : α} :
    (unclosed opener : Parse α).run stream ≠ .ok a behind := fail_ne_ok

/-! ### Rules that take single tokens -/

theorem take_eq {token : Token} {rest : List Token} :
    take.run (between before (token :: rest) stop) =
      .ok token (between (before ++ [token]) rest stop) := by
  rw [← pass_between_cons]
  rfl

theorem eat_eq_some (hstop : stop.kind = .eof) {kind : TokenKind} {token : Token}
    {rest : List Token} (h : token.kind = kind) :
    (eat kind).run (between before (token :: rest) stop) =
      .ok (some token) (between (before ++ [token]) rest stop) := by
  rw [eat, bind_eq (isAt_eq hstop kind), if_pos (by simpa using h), bind_eq take_eq,
    EStateM.run_pure]

theorem eat_eq_none (hstop : stop.kind = .eof) {kind : TokenKind}
    (h : firstKind ahead ≠ kind) :
    (eat kind).run (between before ahead stop) = .ok none (between before ahead stop) := by
  rw [eat, bind_eq (isAt_eq hstop kind), if_neg (by simpa using h), EStateM.run_pure]

theorem eats_eq_true (hstop : stop.kind = .eof) {kind : TokenKind} {token : Token}
    {rest : List Token} (h : token.kind = kind) :
    (eats kind).run (between before (token :: rest) stop) =
      .ok true (between (before ++ [token]) rest stop) := by
  rw [eats, bind_eq (eat_eq_some hstop h), EStateM.run_pure, Option.isSome_some]

theorem eats_eq_false (hstop : stop.kind = .eof) {kind : TokenKind}
    (h : firstKind ahead ≠ kind) :
    (eats kind).run (between before ahead stop) = .ok false (between before ahead stop) := by
  rw [eats, bind_eq (eat_eq_none hstop h), EStateM.run_pure, Option.isSome_none]

/-- An optional token is taken, or it does not come. -/
theorem eat_yields (kind : TokenKind) (hkind : kind ≠ .eof) :
    (eat kind).Yields fun _ taken rest found =>
      (∃ token, found = some token ∧ taken = [token] ∧ token.kind = kind) ∨
      (found = none ∧ taken = [] ∧ firstKind rest ≠ kind) := by
  intro before ahead stop found behind hstop h
  by_cases hk : firstKind ahead = kind
  · obtain ⟨token, rest, rfl, hkt⟩ := exists_cons_of_firstKind hk hkind
    rw [eat_eq_some hstop hkt] at h
    obtain ⟨rfl, rfl⟩ := pure_ok h
    exact ⟨[token], rest, rfl, rfl, .inl ⟨token, rfl, rfl, hkt⟩⟩
  · rw [eat_eq_none hstop hk] at h
    obtain ⟨rfl, rfl⟩ := pure_ok h
    exact ⟨[], ahead, rfl, by simp, .inr ⟨rfl, rfl, hk⟩⟩

theorem eats_yields (kind : TokenKind) (hkind : kind ≠ .eof) :
    (eats kind).Yields fun _ taken rest found =>
      (found = true ∧ ∃ token, taken = [token] ∧ token.kind = kind) ∨
      (found = false ∧ taken = [] ∧ firstKind rest ≠ kind) := by
  intro before ahead stop found behind hstop h
  obtain ⟨token?, taken, rest, rfl, htoken, h⟩ := (eat_yields _ hkind).of_bind hstop h
  obtain ⟨rfl, rfl⟩ := pure_ok h
  refine ⟨taken, rest, rfl, rfl, ?_⟩
  obtain ⟨token, rfl, rfl, hk⟩ | ⟨rfl, rfl, hk⟩ := htoken
  · exact .inl ⟨rfl, token, rfl, hk⟩
  · exact .inr ⟨rfl, rfl, hk⟩

theorem expect_eq (hstop : stop.kind = .eof) {kind : TokenKind} {token : Token}
    {rest : List Token} (h : token.kind = kind) :
    (expect kind).run (between before (token :: rest) stop) =
      .ok token (between (before ++ [token]) rest stop) := by
  rw [expect, bind_eq (eat_eq_some hstop h), EStateM.run_pure]

theorem expect_yields (kind : TokenKind) (hkind : kind ≠ .eof) :
    (expect kind).Yields fun _ taken _ token => taken = [token] ∧ token.kind = kind := by
  intro before ahead stop token behind hstop h
  obtain ⟨found, taken, rest, rfl, hfound, h⟩ := (eat_yields _ hkind).of_bind hstop h
  obtain ⟨found, rfl, rfl, hk⟩ | ⟨rfl, -, -⟩ := hfound
  · obtain ⟨rfl, rfl⟩ := pure_ok h
    exact ⟨[token], rest, rfl, rfl, rfl, hk⟩
  · exact absurd h unexpected_ne_ok

theorem expectClosing_eq (hstop : stop.kind = .eof) {kind : TokenKind} (hkind : kind ≠ .eof)
    {opener token : Token} {rest : List Token} (h : token.kind = kind) :
    (expectClosing kind opener).run (between before (token :: rest) stop) =
      .ok token (between (before ++ [token]) rest stop) := by
  rw [expectClosing, bind_eq (isAt_eq hstop .eof), if_neg (by simpa [h] using hkind)]
  exact expect_eq hstop h

theorem expectClosing_yields (kind : TokenKind) (hkind : kind ≠ .eof) {opener : Token} :
    (expectClosing kind opener).Yields fun _ taken _ token =>
      taken = [token] ∧ token.kind = kind := by
  intro before ahead stop token behind hstop h
  rw [expectClosing, bind_eq (isAt_eq hstop .eof)] at h
  split at h
  · exact absurd h unclosed_ne_ok
  · exact expect_yields _ hkind hstop h

/-! ### Rules that take runs of tokens -/

theorem skip_eq (hstop : stop.kind = .eof) (kinds : List TokenKind) :
    (skip kinds).run (between before ahead stop) =
      .ok (kinds.contains (firstKind ahead))
        (between (before ++ ahead.takeWhile fun token => kinds.contains token.kind)
          (ahead.dropWhile fun token => kinds.contains token.kind) stop) := by
  rw [← passWhile_between, ← kind_peek_between before hstop]
  rfl

/-- A run of tokens of some kinds is taken, as long as it can be. -/
theorem skip_yields (kinds : List TokenKind) (hkinds : .eof ∉ kinds) :
    (skip kinds).Yields fun _ taken rest found =>
      (∀ token ∈ taken, token.kind ∈ kinds) ∧ firstKind rest ∉ kinds ∧
        (found = true ↔ taken ≠ []) := by
  intro before ahead stop found behind hstop h
  rw [skip_eq hstop] at h
  obtain ⟨rfl, rfl⟩ := pure_ok h
  refine ⟨_, _, (List.takeWhile_append_dropWhile).symm, rfl, ?_, ?_, ?_⟩
  · intro token htoken
    simpa using List.mem_takeWhile_imp htoken
  · have hhead := List.head?_dropWhile_not (fun token : Token => kinds.contains token.kind) ahead
    cases hrest : ahead.dropWhile fun token => kinds.contains token.kind with
    | nil => exact hkinds
    | cons token rest =>
      rw [hrest] at hhead
      simpa using hhead
  · cases ahead with
    | nil => simpa using hkinds
    | cons token rest => by_cases hk : token.kind ∈ kinds <;> simp [hk]

/-- Whether tokens are line ends. -/
def Newlines (tokens : List Token) : Prop := ∀ token ∈ tokens, token.kind = .newline

@[simp] theorem newlines_nil : Newlines [] := by simp [Newlines]

/-- Tokens start with line ends, if they do, and go on with something else. -/
theorem exists_newlines (tokens : List Token) : ∃ newlines rest, tokens = newlines ++ rest ∧
    Newlines newlines ∧ firstKind rest ≠ .newline := by
  induction tokens with
  | nil => exact ⟨[], [], rfl, newlines_nil, by decide⟩
  | cons token tokens ih =>
    by_cases hkind : token.kind = .newline
    · obtain ⟨newlines, rest, rfl, hnewlines, hrest⟩ := ih
      exact ⟨token :: newlines, rest, rfl, List.forall_mem_cons.mpr ⟨hkind, hnewlines⟩, hrest⟩
    · exact ⟨[], token :: tokens, rfl, newlines_nil, hkind⟩

theorem skipNewlines_yields :
    skipNewlines.Yields fun _ taken rest _ => Newlines taken ∧ firstKind rest ≠ .newline := by
  intro before ahead stop a behind hstop h
  obtain ⟨found, taken, rest, rfl, ⟨htaken, hrest, -⟩, h⟩ :=
    (skip_yields [.newline] (by decide)).of_bind hstop h
  obtain ⟨rfl, rfl⟩ := pure_ok h
  exact ⟨taken, rest, rfl, rfl, fun token ht => by simpa using htaken token ht,
    by simpa using hrest⟩

/-- No line end is taken where none comes. -/
theorem skipNewlines_eq (hstop : stop.kind = .eof) (h : firstKind ahead ≠ .newline) :
    skipNewlines.run (between before ahead stop) = .ok () (between before ahead stop) := by
  rw [skipNewlines, bind_eq (skip_eq hstop _), EStateM.run_pure]
  cases ahead with
  | nil => simp
  | cons token rest => simp [show token.kind ≠ .newline from h]

/-! ### Rules that may leave the stream as it was -/

theorem commit_ok {rule : Parse (Option α)} {stream behind : TokenStream} {found : Option α}
    (h : (commit rule).run stream = .ok found behind) :
    (∃ a, found = some a ∧ rule.run stream = .ok (some a) behind) ∨
    (found = none ∧ behind = stream ∧ ∃ s, rule.run stream = .ok none s) := by
  simp only [commit, EStateM.run] at h ⊢
  split at h
  · next a s hs =>
    obtain ⟨rfl, rfl⟩ := pure_ok h
    exact .inl ⟨a, rfl, hs⟩
  · next s hs =>
    obtain ⟨rfl, rfl⟩ := pure_ok h
    exact .inr ⟨rfl, rfl, s, hs⟩
  · simp at h

theorem commit_eq_some {rule : Parse (Option α)} {stream behind : TokenStream} {a : α}
    (h : rule.run stream = .ok (some a) behind) :
    (commit rule).run stream = .ok (some a) behind := by
  simp only [commit, EStateM.run] at h ⊢
  rw [h]

theorem commit_eq_none {rule : Parse (Option α)} {stream : TokenStream} (behind : TokenStream)
    (h : rule.run stream = .ok none behind) : (commit rule).run stream = .ok none stream := by
  simp only [commit, EStateM.run] at h ⊢
  rw [h]

theorem commit_eq_error {rule : Parse (Option α)} {stream behind : TokenStream}
    {error : SyntaxError} (h : rule.run stream = .error error behind) :
    (commit rule).run stream = .error error behind := by
  simp only [commit, EStateM.run] at h ⊢
  rw [h]

theorem attempt_eq_some {rule : Parse (Option α)} {stream behind : TokenStream} {a : α}
    (h : rule.run stream = .ok (some a) behind) :
    (attempt rule).run stream = .ok (some a) behind := by
  simp only [attempt, EStateM.run] at h ⊢
  rw [h]

theorem attempt_eq_none {rule : Parse (Option α)} {stream : TokenStream}
    (h : ∀ a behind, rule.run stream ≠ .ok (some a) behind) :
    (attempt rule).run stream = .ok none stream := by
  simp only [attempt, EStateM.run] at h ⊢
  split
  · next a s hs => exact absurd hs (h a s)
  · rfl
  · rfl

theorem attempt_ok {rule : Parse (Option α)} {stream behind : TokenStream} {found : Option α}
    (h : (attempt rule).run stream = .ok found behind) :
    (∃ a, found = some a ∧ rule.run stream = .ok (some a) behind) ∨
    (found = none ∧ behind = stream ∧ ∀ a s, rule.run stream ≠ .ok (some a) s) := by
  simp only [attempt, EStateM.run] at h ⊢
  split at h
  · next a s hs =>
    obtain ⟨rfl, rfl⟩ := pure_ok h
    exact .inl ⟨a, rfl, hs⟩
  · next s hs =>
    obtain ⟨rfl, rfl⟩ := pure_ok h
    exact .inr ⟨rfl, rfl, by simp [hs]⟩
  · next e s hs =>
    obtain ⟨rfl, rfl⟩ := pure_ok h
    exact .inr ⟨rfl, rfl, by simp [hs]⟩

theorem within_eq_ok {rule : Parse α} {inner behind : TokenStream} (stream : TokenStream) {a : α}
    (h : rule.run inner = .ok a behind) : (within inner rule).run stream = .ok a stream := by
  simp only [within, EStateM.run] at h ⊢
  rw [h]

theorem within_eq_error {rule : Parse α} {inner behind : TokenStream} (stream : TokenStream)
    {error : SyntaxError} (h : rule.run inner = .error error behind) :
    (within inner rule).run stream = .error error stream := by
  simp only [within, EStateM.run] at h ⊢
  rw [h]

/-- What comes of a series, by what it has left behind. -/
theorem series_run (item : Parse α) (again : Parse Bool) (stream : TokenStream) :
    (series item again).run stream =
      (harvest item again (stream.rest.length + 1) stream).error.elim
        (.ok (harvest item again (stream.rest.length + 1) stream).items
          (harvest item again (stream.rest.length + 1) stream).behind)
        (.error · (harvest item again (stream.rest.length + 1) stream).behind) := by
  simp only [series, harvestAll, EStateM.run]
  cases (harvest item again (stream.rest.length + 1) stream).error <;> rfl

theorem within_ok {rule : Parse α} {inner stream behind : TokenStream} {a : α}
    (h : (within inner rule).run stream = .ok a behind) :
    behind = stream ∧ ∃ s, rule.run inner = .ok a s := by
  simp only [within, EStateM.run] at h ⊢
  split at h
  · next b s hs =>
    obtain ⟨rfl, rfl⟩ := pure_ok h
    exact ⟨rfl, s, hs⟩
  · simp at h

end Parse

end PipelineLang
