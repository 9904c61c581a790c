import Mathlib.Data.Option.Basic
import PipelineLang.Proofs.Text.Matching
import PipelineLang.Token.Recognition

/-!
# How lexemes are spelled

## Main definitions

- `TokenKind.spelling?` — the text of the tokens of a kind that are all written alike

## Main results

- `walk_induction` — what holds of whatever a walk may end with
- `Lexeme.Recognized.length_pos` — each lexeme but the end takes a character
- `Lexeme.Recognized.spelling` — a lexeme has the spelling of its kind
-/

namespace PipelineLang

/-- What holds of the result of each stop, and of the result at the end of the text, holds
of the result of a walk. -/
theorem walk_induction {σ ρ : Type} {stop : Nat → σ → List Char → Stride σ ρ}
    {finish : Nat → σ → ρ} {P : ρ → Prop} (hfinish : ∀ position state, P (finish position state))
    (hstop : ∀ position state ahead result, stop position state ahead = .done result → P result)
    (skip position : Nat) (state : σ) (text : List Char) :
    P (walk stop finish skip position state text) := by
  induction text generalizing skip position state with
  | nil =>
    rw [walk]
    exact hfinish position state
  | cons c rest ih =>
    cases skip with
    | succ skip =>
      rw [walk]
      exact ih skip (position + 1) state
    | zero =>
      rw [walk]
      cases hstride : stop position state (c :: rest) with
      | done result => exact hstop _ _ _ _ hstride
      | go extra state' => exact ih extra (position + 1) state'

/-- The text of the tokens of a kind, if they are all written alike. -/
def TokenKind.spelling? : TokenKind → Option String
  | .kwLet => some "let" | .kwIf => some "if" | .kwElse => some "else"
  | .kwMatch => some "match" | .kwAnd => some "and" | .kwOr => some "or"
  | .kwNot => some "not" | .kwIn => some "in" | .kwMove => some "move"
  | .kwThis => some "this" | .nullLit => some "null" | .trueLit => some "true"
  | .falseLit => some "false" | .moduleSep => some "::" | .colon => some ":"
  | .newline => some "\n" | .assign => some "=" | .fatArrow => some "=>"
  | .pipe => some "|" | .eqEq => some "==" | .notEq => some "!=" | .gt => some ">"
  | .gtEq => some ">=" | .lt => some "<" | .ltEq => some "<=" | .plus => some "+"
  | .minus => some "-" | .star => some "*" | .slash => some "/" | .dot => some "."
  | .dotQuestion => some ".?" | .question => some "?" | .ellipsis => some "..."
  | .lParen => some "(" | .rParen => some ")" | .lBracket => some "["
  | .rBracket => some "]" | .lBrace => some "\x7b" | .rBrace => some "\x7d"
  | .comma => some "," | .atSign => some "@"
  | _ => none

namespace Lexeme

/-! ### Lexemes between delimiters -/

/-- A lexeme between delimiters has a kind and takes a character. -/
def Delimited (kind : TokenKind) (result : Except LexicalFault Lexeme) : Prop :=
  ∀ lexeme, result = .ok lexeme → lexeme.kind = kind ∧ 0 < lexeme.length

theorem ofQuoted_delimited (before : Before) (lead : Nat) (text : List Char) :
    Delimited .string (ofQuoted before lead text) := by
  rw [ofQuoted]
  split
  · rintro lexeme ⟨⟩
  · refine walk_induction (by rintro _ _ lexeme ⟨⟩) ?_ _ _ _ _
    intro position state ahead result h
    unfold ofQuoted.stop at h
    repeat' split at h
    all_goals simp only [Stride.done.injEq, reduceCtorEq] at h
    all_goals subst h
    · rintro lexeme ⟨⟩
    · rintro lexeme ⟨⟩
    · rintro lexeme ⟨⟩
      exact ⟨rfl, Nat.succ_pos _⟩

theorem ofRaw_delimited (before : Before) (lead : Nat) (text : List Char) :
    Delimited .string (ofRaw before lead text) := by
  unfold ofRaw
  dsimp only
  split
  · rintro lexeme ⟨⟩
  · refine walk_induction (by rintro _ _ lexeme ⟨⟩) ?_ _ _ _ _
    intro position state ahead result h
    unfold ofRaw.stop at h
    repeat' split at h
    all_goals simp only [Stride.done.injEq, reduceCtorEq] at h
    all_goals subst h
    · rintro lexeme ⟨⟩
    · rintro lexeme ⟨⟩
      exact ⟨rfl, by show 0 < position + 1 + _; omega⟩

theorem ofBlockComment_delimited (before : Before) (text : List Char) :
    Delimited .comment (ofBlockComment before text) := by
  refine walk_induction (by rintro _ _ lexeme ⟨⟩) ?_ _ _ _ _
  intro position state ahead result h
  unfold ofBlockComment.stop at h
  split at h
  all_goals simp only [Stride.done.injEq, reduceCtorEq] at h
  subst h
  rintro lexeme ⟨⟩
  exact ⟨rfl, by show 0 < position + 2; omega⟩

end Lexeme

namespace FormatBody

theorem read_length_pos
    (replacement : Option TokenKind → List Char → Except LexicalFault Replacement)
    (before : Before) (text : List Char) :
    ∀ body, FormatBody.read replacement before text = .ok body → 0 < body.length := by
  refine walk_induction
    (P := fun result : Except LexicalFault FormatBody =>
      ∀ body, result = .ok body → 0 < body.length)
    (by rintro _ _ body ⟨⟩) ?_ _ _ _ _
  intro position state ahead result h
  unfold FormatBody.read.stop at h
  dsimp only at h
  repeat' split at h
  all_goals simp only [Stride.done.injEq, reduceCtorEq] at h
  all_goals subst h
  all_goals rintro body ⟨⟩
  exact Nat.succ_pos _

end FormatBody

namespace Number

theorem groupsFrom_pos {length : Nat} (held : Bool) (text : List Char) (h : 0 < length) :
    0 < groupsFrom length held text := by
  induction text generalizing length held with
  | nil => exact h
  | cons c rest ih =>
    rw [groupsFrom]
    split
    · exact ih _ (by omega)
    · split
      · exact ih _ h
      · exact h

/-- A number is read where a digit comes. -/
theorem matcher_of_isDigit {c : Char} (hc : c.isDigit) (rest : List Char) :
    ∃ n, matcher (c :: rest) = some n ∧ 0 < n := by
  have hgroups : groups (c :: rest) = some (groupsFrom 1 false rest) := by
    rw [groups, if_pos hc]
  refine ⟨_, Matcher.followedBy_eq_some.mpr ⟨_, _, hgroups, Matcher.followedBy_eq_some.mpr
    ⟨_, _, Matcher.optional_eq _ _, Matcher.followedBy_eq_some.mpr
      ⟨_, _, Matcher.optional_eq _ _, Matcher.optional_eq _ _, rfl⟩, rfl⟩, rfl⟩, ?_⟩
  exact Nat.lt_of_lt_of_le (groupsFrom_pos false rest Nat.one_pos) (Nat.le_add_right _ _)

end Number

namespace Lexeme

/-! ### Literals -/

/-- The literals that start with a digit, by kind. -/
def literals : List (TokenKind × Matcher) :=
  [(.time, Time.matcher), (.subnet, Address.subnetMatcher), (.ip, Address.matcher),
    (.number, Number.matcher), (.duration, Duration.matcher)]

/-- The longest of some literals and of what has been found before. -/
def longest (literals : List (TokenKind × Matcher)) (text : List Char) (best : Option Lexeme) :
    Option Lexeme :=
  literals.foldl (fun best (kind, matcher) => longer best ((matcher text).map (Lexeme.mk kind)))
    best

theorem literal?_eq_longest (text : List Char) : literal? text = longest literals text none := rfl

theorem longer_some {a b : Option Lexeme} {lexeme : Lexeme} (h : longer a b = some lexeme) :
    (a = some lexeme ∨ b = some lexeme) ∧ (∀ other ∈ a, other.length ≤ lexeme.length) ∧
      ∀ other ∈ b, other.length ≤ lexeme.length := by
  match a, b with
  | some x, some y =>
    simp only [longer] at h
    split at h <;> obtain rfl := Option.some.inj h
    · exact ⟨.inr rfl, by rintro _ ⟨⟩; omega, by rintro _ ⟨⟩; omega⟩
    · exact ⟨.inl rfl, by rintro _ ⟨⟩; omega, by rintro _ ⟨⟩; omega⟩
  | some x, none =>
    obtain rfl := Option.some.inj h
    exact ⟨.inl rfl, by rintro _ ⟨⟩; omega, by rintro _ ⟨⟩⟩
  | none, some y =>
    obtain rfl := Option.some.inj h
    exact ⟨.inr rfl, by rintro _ ⟨⟩, by rintro _ ⟨⟩; omega⟩

theorem longer_none {a b : Option Lexeme} (h : longer a b = none) : a = none ∧ b = none := by
  match a, b with
  | some x, some y =>
    simp only [longer] at h
    split at h <;> simp at h
  | some x, none => simp [longer] at h
  | none, some y => simp [longer] at h
  | none, none => exact ⟨rfl, rfl⟩

/-- The longest literal is one of them, and no other one is longer. -/
theorem longest_some {literals : List (TokenKind × Matcher)} {text : List Char}
    {best : Option Lexeme} {lexeme : Lexeme} (h : longest literals text best = some lexeme) :
    (best = some lexeme ∨ ∃ literal ∈ literals, lexeme.kind = literal.1 ∧
        literal.2 text = some lexeme.length) ∧
      (∀ other ∈ best, other.length ≤ lexeme.length) ∧
      ∀ literal ∈ literals, ∀ n ∈ literal.2 text, n ≤ lexeme.length := by
  induction literals generalizing best with
  | nil =>
    obtain rfl : best = some lexeme := h
    exact ⟨.inl rfl, by rintro _ ⟨⟩; omega, by simp⟩
  | cons literal literals ih =>
    obtain ⟨kind, matcher⟩ := literal
    obtain ⟨hfound, hbest, hothers⟩ := ih h
    have hle : ∀ {a b : Option Lexeme}, (∀ other ∈ longer a b, other.length ≤ lexeme.length) →
        (∀ other ∈ a, other.length ≤ lexeme.length) ∧
          ∀ other ∈ b, other.length ≤ lexeme.length := by
      intro a b hab
      cases hlonger : longer a b with
      | none =>
        obtain ⟨rfl, rfl⟩ := longer_none hlonger
        simp
      | some other =>
        obtain ⟨-, ha, hb⟩ := longer_some hlonger
        have := hab other hlonger
        exact ⟨fun o ho => Nat.le_trans (ha o ho) this, fun o ho => Nat.le_trans (hb o ho) this⟩
    obtain ⟨hfirst, hsecond⟩ := hle hbest
    refine ⟨?_, hfirst, ?_⟩
    · obtain hlonger | ⟨literal, hmem, hliteral⟩ := hfound
      · obtain ⟨hbest | hmatch, -⟩ := longer_some hlonger
        · exact .inl hbest
        · obtain ⟨n, hn, rfl⟩ := Option.map_eq_some_iff.mp hmatch
          exact .inr ⟨_, List.mem_cons_self, rfl, hn⟩
      · exact .inr ⟨literal, List.mem_cons_of_mem _ hmem, hliteral⟩
    · rw [List.forall_mem_cons]
      refine ⟨fun n hn => hsecond ⟨kind, n⟩ ?_, hothers⟩
      exact Option.map_eq_some_iff.mpr ⟨n, hn, rfl⟩

theorem ofDigit_spec {c : Char} (hc : c.isDigit) (rest : List Char) :
    0 < (ofDigit (c :: rest)).length ∧
      (ofDigit (c :: rest)).kind ∈ [TokenKind.time, .subnet, .ip, .number, .duration] := by
  rw [ofDigit, literal?_eq_longest]
  cases h : longest literals (c :: rest) none with
  | none => exact ⟨Nat.one_pos, by decide⟩
  | some lexeme =>
    obtain ⟨hfound, -, hothers⟩ := longest_some h
    obtain ⟨n, hn, hpos⟩ := Number.matcher_of_isDigit hc rest
    have hle := hothers (.number, Number.matcher) (by simp [literals]) n hn
    refine ⟨Nat.lt_of_lt_of_le hpos hle, ?_⟩
    obtain h | ⟨literal, hmem, hkind, -⟩ := hfound
    · simp at h
    · simp only [literals, List.mem_cons, List.not_mem_nil, or_false] at hmem
      obtain rfl | rfl | rfl | rfl | rfl := hmem <;> simp [hkind]

end Lexeme

namespace Lexeme

/-! ### Words, colons and punctuation -/

theorem groupsMatcher_colons (rest : List Char) :
    ∃ n, Address.groupsMatcher (':' :: ':' :: rest) = some (2 + n) := ⟨_, rfl⟩

theorem ofColon_spec (before : Before) (rest : List Char) :
    0 < (ofColon before (':' :: rest)).length ∧
      (ofColon before (':' :: rest)).kind ∈ [TokenKind.colon, .moduleSep, .subnet, .ip] := by
  unfold ofColon
  split
  · exact ⟨Nat.one_pos, by decide⟩
  · next hcolon =>
    obtain ⟨rest, rfl⟩ : ∃ rest', rest = ':' :: rest' := by
      cases rest with
      | nil => simp at hcolon
      | cons d rest =>
        obtain rfl : d = ':' := by simpa using hcolon
        exact ⟨rest, rfl⟩
    obtain ⟨n, hn⟩ := groupsMatcher_colons rest
    dsimp only
    rw [hn]
    split
    · exact ⟨Nat.two_pos, by decide⟩
    · split
      · next hlt => exact ⟨Nat.lt_of_le_of_lt (Nat.zero_le _) hlt, by simp⟩
      · exact ⟨by simp only [Option.getD_some]; omega, by simp⟩

theorem ofColon_spelling (before : Before) (rest : List Char) {spelling : String}
    (h : (ofColon before (':' :: rest)).kind.spelling? = some spelling) :
    (':' :: rest).take (ofColon before (':' :: rest)).length = spelling.toList := by
  unfold ofColon at h ⊢
  split
  · next hcolon =>
    rw [if_pos hcolon] at h
    obtain rfl := Option.some.inj h
    rfl
  · next hcolon =>
    rw [if_neg hcolon] at h
    obtain ⟨rest, rfl⟩ : ∃ rest', rest = ':' :: rest' := by
      cases rest with
      | nil => simp at hcolon
      | cons d rest => exact ⟨rest, by simpa using hcolon⟩
    dsimp only at h ⊢
    split at h
    · next hpath =>
      rw [if_pos hpath]
      obtain rfl := Option.some.inj h
      rfl
    · split at h <;> simp [TokenKind.spelling?] at h

theorem hasSingleColon_nil : Address.hasSingleColon [] = false := rfl

/-- The longer of the address of `ip` characters and the subnet at the head of a text. -/
def addressOr (text : List Char) (ip : Nat) : Lexeme :=
  match Address.subnetMatcher text with
  | some subnet => if ip < subnet then ⟨.subnet, subnet⟩ else ⟨.ip, ip⟩
  | none => ⟨.ip, ip⟩

theorem addressOr_spec (text : List Char) (ip : Nat) :
    ip ≤ (addressOr text ip).length ∧ (addressOr text ip).kind ∈ [TokenKind.subnet, .ip] := by
  rw [addressOr]
  split
  · split
    · next hlt => exact ⟨Nat.le_of_lt hlt, by simp⟩
    · exact ⟨Nat.le_refl ip, by simp⟩
  · exact ⟨Nat.le_refl ip, by simp⟩

/-- When an address is read where a word starts. -/
theorem address?_eq_some {before : Before} {text : List Char} {lexeme : Lexeme} :
    address? before text = some lexeme ↔
      ∃ ip, Address.groupsMatcher text = some ip ∧
        (((text.take ip).takeWhile (· != ':')).any Char.isDigit ||
          Address.hasSingleColon (text.take ip)) = true ∧
        (text.drop lexeme.length).head?.any Ascii.isWordChar = false ∧
        ¬ (lexeme.kind = .ip ∧ Address.isPathShaped (text.take ip) = true ∧
          namesOperator before (text.drop lexeme.length) = true) ∧
        addressOr text ip = lexeme := by
  simp only [address?, Option.bind_eq_bind, Option.bind_eq_some_iff, Option.guard_eq_some',
    Option.pure_def, Option.some.injEq, exists_const, addressOr]
  constructor
  · rintro ⟨ip, hip, hdigit, hrest, hpath, rfl⟩
    refine ⟨ip, hip, hdigit, (Bool.not_eq_true' _).mp hrest, ?_, rfl⟩
    rintro ⟨hkind, hshape, hnames⟩
    rw [Bool.not_eq_true'] at hpath
    rw [hshape, Bool.and_true, beq_iff_eq.mpr hkind, Bool.true_and] at hpath
    exact Bool.false_ne_true (hpath.symm.trans hnames)
  · rintro ⟨ip, hip, hdigit, hrest, hpath, rfl⟩
    refine ⟨ip, hip, hdigit, (Bool.not_eq_true' _).mpr hrest, ?_, rfl⟩
    simp only [Bool.not_eq_true', Bool.eq_false_iff, ne_eq, Bool.and_eq_true, beq_iff_eq]
    exact fun h => hpath ⟨h.1.1, h.1.2, h.2⟩

theorem address?_spec {before : Before} {text : List Char} {lexeme : Lexeme}
    (h : address? before text = some lexeme) :
    0 < lexeme.length ∧ lexeme.kind ∈ [TokenKind.subnet, .ip] := by
  obtain ⟨ip, -, hdigit, -, -, rfl⟩ := address?_eq_some.mp h
  obtain ⟨hle, hkind⟩ := addressOr_spec text ip
  refine ⟨Nat.lt_of_lt_of_le (Nat.pos_of_ne_zero ?_) hle, hkind⟩
  rintro rfl
  simp [hasSingleColon_nil] at hdigit

theorem wordLength_pos {c : Char} (hc : Ascii.isWordStart c) (rest : List Char) :
    0 < Ascii.wordLength (c :: rest) := by
  have hchar : Ascii.isWordChar c := by
    simp only [Ascii.isWordStart, Ascii.isWordChar, Char.isAlphanum, Bool.or_eq_true] at hc ⊢
    exact hc.imp_left .inl
  rw [Ascii.wordLength, List.takeWhile_cons_of_pos hchar]
  exact Nat.succ_pos _

/-- What is read where a word starts: an address, a reserved word or a name. -/
theorem ofWord_spec (before : Before) {c : Char} (hc : Ascii.isWordStart c) (rest : List Char) :
    0 < (ofWord before (c :: rest)).length ∧
      ((ofWord before (c :: rest)).kind ∈ [TokenKind.subnet, .ip] ∨
        (ofWord before (c :: rest)).kind = (TokenKind.keyword? (String.ofList
          ((c :: rest).take (ofWord before (c :: rest)).length))).getD .identifier) := by
  rw [ofWord]
  cases h : address? before (c :: rest) with
  | some lexeme =>
    obtain ⟨hpos, hkind⟩ := address?_spec h
    exact ⟨hpos, .inl hkind⟩
  | none => exact ⟨wordLength_pos hc rest, .inr rfl⟩

/-- An operator or a bracket is spelled as it is listed. -/
theorem ofPunctuation?_spec {text : List Char} {lexeme : Lexeme}
    (h : ofPunctuation? text = some lexeme) :
    (text.take lexeme.length, lexeme.kind) ∈ punctuation ∧ 0 < lexeme.length := by
  rw [ofPunctuation?, Option.map_eq_some_iff] at h
  obtain ⟨⟨spelling, kind⟩, hfind, rfl⟩ := h
  have hmem := List.mem_of_find?_eq_some hfind
  have hpre : spelling <+: text := by simpa using List.find?_some hfind
  refine ⟨?_, ?_⟩
  · rwa [← List.prefix_iff_eq_take.mp hpre]
  · have hne : ∀ entry ∈ punctuation, entry.1 ≠ [] := by decide
    exact List.length_pos_iff.mpr (hne _ hmem)

/-! ### Lexemes -/

/-- How a lexeme comes about. -/
inductive Recognized (replacement : Option TokenKind → List Char → Except LexicalFault Replacement)
    (before : Before) : List Char → Lexeme → Prop
  | eof : Recognized replacement before [] ⟨.eof, 0⟩
  | newline {rest} : Recognized replacement before ('\n' :: rest) ⟨.newline, 1⟩
  | lineComment {rest} :
    Recognized replacement before ('/' :: '/' :: rest) (ofLineComment ('/' :: '/' :: rest))
  | blockComment {rest lexeme} (h : ofBlockComment before ('/' :: '*' :: rest) = .ok lexeme) :
    Recognized replacement before ('/' :: '*' :: rest) lexeme
  | quoted {text lead lexeme} (h : ofQuoted before lead text = .ok lexeme) (htext : text ≠ []) :
    Recognized replacement before text lexeme
  | raw {text lead lexeme} (h : ofRaw before lead text = .ok lexeme) (htext : text ≠ []) :
    Recognized replacement before text lexeme
  | format {rest body} (h : FormatBody.read replacement before ('f' :: '\x22' :: rest) = .ok body) :
    Recognized replacement before ('f' :: '\x22' :: rest) ⟨.formatString, body.length⟩
  | dollar {rest} (h : 0 < wordAhead rest) :
    Recognized replacement before ('$' :: rest) ⟨.dollarVar, 1 + wordAhead rest⟩
  | digit {c rest} (h : c.isDigit) : Recognized replacement before (c :: rest) (ofDigit (c :: rest))
  | colon {rest} : Recognized replacement before (':' :: rest) (ofColon before (':' :: rest))
  | word {c rest} (h : Ascii.isWordStart c) :
    Recognized replacement before (c :: rest) (ofWord before (c :: rest))
  | punctuation {text lexeme} (h : ofPunctuation? text = some lexeme) (htext : text ≠ []) :
    Recognized replacement before text lexeme

theorem recognized_of_ok
    {replacement : Option TokenKind → List Char → Except LexicalFault Replacement}
    {before : Before} {text : List Char} {lexeme : Lexeme}
    (h : recognizeWith replacement before text = .ok lexeme) :
    Recognized replacement before text lexeme := by
  unfold recognizeWith at h
  split at h
  · cases h; exact .eof
  · cases h; exact .newline
  · cases h; exact .lineComment
  · exact .blockComment h
  · exact .quoted h (by simp)
  · exact .quoted h (by simp)
  · next c rest _ _ _ _ _ =>
    dsimp only at h
    split at h
    · exact .quoted h (by simp)
    split at h
    · exact .raw h (by simp)
    split at h
    · exact .raw h (by simp)
    split at h
    · next hformat =>
      simp only [Bool.and_eq_true, decide_eq_true_eq, beq_iff_eq] at hformat
      obtain ⟨rfl, hquote⟩ := hformat
      obtain ⟨rest, rfl⟩ : ∃ rest', rest = '\x22' :: rest' := by
        cases rest with
        | nil => simp at hquote
        | cons d rest => exact ⟨rest, by simpa using hquote⟩
      cases hbody : FormatBody.read replacement before ('f' :: '\x22' :: rest) with
      | error e => simp [hbody, Except.map] at h
      | ok body =>
        simp only [hbody, Except.map, Except.ok.injEq] at h
        obtain rfl := h
        exact .format hbody
    split at h
    · next hdollar =>
      subst hdollar
      split at h
      · simp at h
      · next hzero =>
        cases h
        exact .dollar (Nat.pos_of_ne_zero hzero)
    split at h
    · next hdigit => cases h; exact .digit hdigit
    split at h
    · next hcolon => subst hcolon; cases h; exact .colon
    split at h
    · next hword => cases h; exact .word hword
    split at h
    · next hpunctuation => cases h; exact .punctuation hpunctuation (by simp)
    · simp at h

/-- Each lexeme but the end takes a character. -/
theorem Recognized.length_pos
    {replacement : Option TokenKind → List Char → Except LexicalFault Replacement}
    {before : Before} {text : List Char} {lexeme : Lexeme}
    (h : Recognized replacement before text lexeme) (hkind : lexeme.kind ≠ .eof) :
    text ≠ [] ∧ 0 < lexeme.length := by
  cases h with
  | eof => exact absurd rfl hkind
  | newline => exact ⟨by simp, Nat.one_pos⟩
  | lineComment => exact ⟨by simp, by simp [ofLineComment]⟩
  | blockComment h => exact ⟨by simp, (ofBlockComment_delimited _ _ _ h).2⟩
  | quoted h htext => exact ⟨htext, (ofQuoted_delimited _ _ _ _ h).2⟩
  | raw h htext => exact ⟨htext, (ofRaw_delimited _ _ _ _ h).2⟩
  | format h => exact ⟨by simp, FormatBody.read_length_pos _ _ _ _ h⟩
  | dollar h => exact ⟨by simp, Nat.lt_of_lt_of_le h (Nat.le_add_left _ _)⟩
  | digit h => exact ⟨by simp, (ofDigit_spec h _).1⟩
  | colon => exact ⟨by simp, (ofColon_spec _ _).1⟩
  | word h => exact ⟨by simp, (ofWord_spec _ h _).1⟩
  | punctuation h htext => exact ⟨htext, (ofPunctuation?_spec h).2⟩

/-- The text of a reserved word is the spelling of its kind. -/
theorem spelling_of_keyword? {word : String} {kind : TokenKind}
    (h : TokenKind.keyword? word = some kind) : kind.spelling? = some word := by
  obtain ⟨front, back, hkeywords, -⟩ := List.lookup_eq_some_iff.mp h
  have hspellings : ∀ entry ∈ TokenKind.keywords, entry.2.spelling? = some entry.1 := by decide
  exact hspellings (word, kind) (by rw [hkeywords]; simp)

/-- Where a word starts, an address, a name or a reserved word is read. -/
theorem ofWord_kind (before : Before) {c : Char} (hc : Ascii.isWordStart c) (rest : List Char) :
    (ofWord before (c :: rest)).kind ∈ [TokenKind.subnet, .ip, .identifier] ∨
      ∃ spelling, (ofWord before (c :: rest)).kind.spelling? = some spelling := by
  obtain ⟨-, haddress | hword⟩ := ofWord_spec before hc rest
  · have hsub : ∀ kind ∈ [TokenKind.subnet, .ip], kind ∈ [TokenKind.subnet, .ip, .identifier] := by
      decide
    exact .inl (hsub _ haddress)
  · cases hk : TokenKind.keyword? (String.ofList
        ((c :: rest).take (ofWord before (c :: rest)).length)) with
    | none => exact .inl (by rw [hword, hk]; decide)
    | some kind => exact .inr ⟨_, by rw [hword, hk, Option.getD_some, spelling_of_keyword? hk]⟩

/-- A lexeme is spelled as all lexemes of its kind are. -/
theorem Recognized.spelling
    {replacement : Option TokenKind → List Char → Except LexicalFault Replacement}
    {before : Before} {text : List Char} {lexeme : Lexeme} {spelling : String}
    (h : Recognized replacement before text lexeme)
    (hkind : lexeme.kind.spelling? = some spelling) :
    text.take lexeme.length = spelling.toList := by
  cases h with
  | eof | lineComment | format | dollar => simp [TokenKind.spelling?, ofLineComment] at hkind
  | newline =>
    obtain rfl := Option.some.inj hkind
    rfl
  | blockComment h =>
    rw [(ofBlockComment_delimited _ _ _ h).1] at hkind
    simp [TokenKind.spelling?] at hkind
  | quoted h =>
    rw [(ofQuoted_delimited _ _ _ _ h).1] at hkind
    simp [TokenKind.spelling?] at hkind
  | raw h =>
    rw [(ofRaw_delimited _ _ _ _ h).1] at hkind
    simp [TokenKind.spelling?] at hkind
  | digit h =>
    obtain ⟨-, hmem⟩ := ofDigit_spec h _
    generalize ofDigit _ = lexeme at hkind hmem
    simp only [List.mem_cons, List.not_mem_nil, or_false] at hmem
    obtain hk | hk | hk | hk | hk := hmem <;> simp [hk, TokenKind.spelling?] at hkind
  | @colon rest => exact ofColon_spelling before rest hkind
  | @word c rest h =>
    obtain ⟨-, hmem | hword⟩ := ofWord_spec before h rest
    · generalize ofWord before (c :: rest) = lexeme at hkind hmem
      simp only [List.mem_cons, List.not_mem_nil, or_false] at hmem
      obtain hk | hk := hmem <;> simp [hk, TokenKind.spelling?] at hkind
    · generalize ofWord before (c :: rest) = lexeme at hkind hword
      cases hk : TokenKind.keyword? (String.ofList ((c :: rest).take lexeme.length)) with
      | none =>
        rw [hword, hk] at hkind
        simp [TokenKind.spelling?] at hkind
      | some kind =>
        rw [hword, hk, Option.getD_some, spelling_of_keyword? hk] at hkind
        rw [← Option.some.inj hkind, String.toList_ofList]
  | punctuation h =>
    obtain ⟨hmem, -⟩ := ofPunctuation?_spec h
    have hspellings : ∀ entry ∈ Lexeme.punctuation,
        entry.2.spelling? = some (String.ofList entry.1) := by decide
    rw [hspellings _ hmem] at hkind
    rw [← Option.some.inj hkind, String.toList_ofList]

/-- The kinds of token that are read without regard to their spelling, save those of
literals. -/
def unspelled : List TokenKind :=
  [.dollarVar, .frontmatterOpen, .frontmatterBody, .frontmatterClose]

/-- A variable starts with a dollar sign, and frontmatter is no lexeme. -/
theorem Recognized.dollar_or_other
    {replacement : Option TokenKind → List Char → Except LexicalFault Replacement}
    {before : Before} {text : List Char} {lexeme : Lexeme}
    (h : Recognized replacement before text lexeme) :
    (lexeme.kind = .dollarVar ∧ ∃ name, text.take lexeme.length = '$' :: name) ∨
      lexeme.kind ∉ unspelled := by
  cases h with
  | @dollar rest =>
    rw [Nat.add_comm, List.take_succ_cons]
    exact .inl ⟨rfl, _, rfl⟩
  | eof | newline | lineComment | format => exact .inr (by simp [unspelled, ofLineComment])
  | blockComment h =>
    rw [(ofBlockComment_delimited _ _ _ h).1]
    exact .inr (by decide)
  | quoted h =>
    rw [(ofQuoted_delimited _ _ _ _ h).1]
    exact .inr (by decide)
  | raw h =>
    rw [(ofRaw_delimited _ _ _ _ h).1]
    exact .inr (by decide)
  | @digit c rest h =>
    have hkinds : ∀ kind ∈ [TokenKind.time, .subnet, .ip, .number, .duration],
        kind ∉ unspelled := by decide
    exact .inr (hkinds _ (ofDigit_spec h rest).2)
  | @colon rest =>
    have hkinds : ∀ kind ∈ [TokenKind.colon, .moduleSep, .subnet, .ip], kind ∉ unspelled := by
      decide
    exact .inr (hkinds _ (ofColon_spec before rest).2)
  | @word c rest h =>
    obtain hmem | ⟨spelling, hspelling⟩ := ofWord_kind before h rest
    · have hkinds : ∀ kind ∈ [TokenKind.subnet, .ip, .identifier], kind ∉ unspelled := by decide
      exact .inr (hkinds _ hmem)
    · refine .inr fun hmem => ?_
      have hnone : ∀ kind ∈ unspelled, kind.spelling? = none := by decide
      rw [hnone _ hmem] at hspelling
      simp at hspelling
  | punctuation h =>
    obtain ⟨hmem, -⟩ := ofPunctuation?_spec h
    have hkinds : ∀ entry ∈ Lexeme.punctuation, entry.2 ∉ unspelled := by decide
    exact .inr (hkinds _ hmem)

end Lexeme

end PipelineLang
