import Mathlib.Data.List.Forall2
import PipelineLang.Grammar.Expression
import PipelineLang.Proofs.Grammar.FirstTokens
import PipelineLang.Proofs.Syntax.Grouping
import PipelineLang.Proofs.Syntax.Words
import PipelineLang.Syntax.Layout

/-!
# Legible expressions

## Main definitions

- `Style.layout` — the reading of an expression that is laid out
- `Expr.Legible` — an expression that its words can be read as

## Main results

- `Expr.words_cons` — the first word of an expression
- `Expr.unassigning_words` — an expression has no equals sign behind a selector
-/

namespace PipelineLang

/-- The reading of an expression that is laid out: a comma stands between two items, and
the text of a format string is laid out too. -/
def Style.layout : Style where
  comma := [(.comma, ",")]
  newline := [(.newline, "\n")]
  format segments _ := "f\x22" ++ Segment.layouts segments ++ "\x22"

/-- Whether the pieces of a format string are read as its segments. -/
inductive PieceOf : FormatPiece → Segment → Prop
  | text {raw span value span'}
    (hvalue : value = String.ofList (Utf8.decode (Escape.decodeFormat raw))) :
    PieceOf (.text raw span) (.text (String.ofList raw) value span')
  | replacement {inner innerSpan span value span' tokens}
    (htokens : (Scanner.within inner innerSpan).tokens? = .ok tokens)
    (hwords : (TokenStream.ofTokens tokens).rest.map Token.word = value.words .layout) :
    PieceOf (.replacement inner innerSpan span) (.replacement value span')

/-- Whether a format string that is laid out is read as its segments, wherever it
stands. -/
def FormatLegible (segments : List Segment) : Prop :=
  ∀ token : Token, token.text = "f\x22" ++ Segment.layouts segments ++ "\x22" →
    ∃ pieces, token.formatPieces = .ok pieces ∧ List.Forall₂ PieceOf pieces segments

/-- Whether a selector has any words. -/
def Selector.Legible : Selector → Prop
  | .metadata _ => True
  | .field selector => selector.rooted = true ∨ selector.segments ≠ []

/-- Whether the target of an argument, if it has one, has any words. -/
def Argument.Legible : Argument → Prop
  | .named target _ _ => target.Legible
  | .positional _ => True

/-- Whether the key of an item of a record, if it has one, is read as it is written. -/
def RecordItem.Legible : RecordItem → Prop
  | .field (.string value) _ _ => StringLiteral.read? value.text = some value
  | _ => True

namespace Expr

/-- Whether the words of an expression can be read as it, as far as its children can. -/
def Legible : Expr → Prop
  | .literal value _ => Literal.ofText? value.tokenKind value.text = some value
  | .format segments _ => FormatLegible segments
  | .identifier name _ => name ≠ "_"
  | .record items _ => ∀ item ∈ items, item.Legible
  | .call function arguments _ =>
    function.segments ≠ [] ∧ ∀ argument ∈ arguments, argument.Legible
  | .methodCall _ function arguments _ =>
    function.segments ≠ [] ∧ ∀ argument ∈ arguments, argument.Legible
  | _ => True

/-- Whether the words of an expression are grouped and read as it. -/
def Readable (value : Expr) : Prop := value.Grouped ∧ value.Legible

/-- Whether the function of a call has a name. -/
def Named : Expr → Prop
  | .call function _ _ => function.segments ≠ []
  | _ => True

theorem Legible.named {value : Expr} (h : value.Legible) : value.Named := by
  cases value with
  | call function arguments span => exact h.1
  | _ => trivial

/-- Whether the last operand of an expression is a name alone, which an arrow behind it
would make a parameter. -/
def endsInName : Expr → Prop
  | .identifier _ _ | .placeholder _ => True
  | .binary _ _ right _ => right.endsInName
  | .unary _ operand _ => operand.endsInName
  | .lambda _ body _ => body.endsInName
  | _ => False

end Expr

/-! ### The first words of expressions -/

theorem Entity.words_cons {entity : Entity} (h : entity.segments ≠ []) :
    ∃ name words, entity.words = (.identifier, name) :: words := by
  obtain ⟨segments, span⟩ := entity
  match segments with
  | [] => exact absurd rfl h
  | [segment] => exact ⟨segment.name, [], rfl⟩
  | segment :: other :: rest =>
    rw [words, List.map_cons, List.map_cons, List.intercalate_cons_cons]
    exact ⟨segment.name, _, rfl⟩

namespace Expr

/-- The first word of an expression is one that arguments start with. -/
theorem words_cons (style : Style) {value : Expr} (h : value.All Named) :
    ∃ word words, value.words style = word :: words ∧ Grammar.startsArgument word.1 := by
  induction value using Expr.induction with
  | step value ih =>
    have hhere := h.here
    cases value with
    | literal value span =>
      refine ⟨_, _, rfl, ?_⟩
      cases value with
      | bool value => cases value <;> decide
      | _ => rfl
    | call function arguments span =>
      obtain ⟨name, words, hwords⟩ := Entity.words_cons hhere
      rw [Expr.words, hwords]
      exact ⟨_, _, rfl, rfl⟩
    | binary op left right span =>
      obtain ⟨word, words, hwords, hstart⟩ :=
        ih left (by simp [children]) (h.child (by simp [children]))
      rw [Expr.words, hwords]
      exact ⟨_, _, rfl, hstart⟩
    | member receiver name mark span =>
      obtain ⟨word, words, hwords, hstart⟩ :=
        ih receiver (by simp [children]) (h.child (by simp [children]))
      rw [Expr.words, hwords]
      exact ⟨_, _, rfl, hstart⟩
    | index receiver key optional span =>
      obtain ⟨word, words, hwords, hstart⟩ :=
        ih receiver (by simp [children]) (h.child (by simp [children]))
      rw [Expr.words, hwords]
      exact ⟨_, _, rfl, hstart⟩
    | methodCall receiver function arguments span =>
      obtain ⟨word, words, hwords, hstart⟩ :=
        ih receiver (by simp [children]) (h.child (by simp [children]))
      rw [Expr.words, hwords]
      exact ⟨_, _, rfl, hstart⟩
    | unary op operand span =>
      refine ⟨_, _, rfl, ?_⟩
      cases op <;> decide
    | _ => exact ⟨_, _, rfl, rfl⟩

end Expr

/-! ### Equals signs -/

section

open Grammar

theorem unassigning_of_words {tokens : List Token} {words : List Word}
    (h : tokens.map Token.word = words) (hwords : ∀ word ∈ words, word.1 ≠ .assign) :
    Unassigning tokens := by
  subst h
  rw [List.forall_mem_map] at hwords
  exact unassigning_of_forall hwords

theorem unassigning_of_words_cons {tokens : List Token} {word : Word} {words : List Word}
    (h : tokens.map Token.word = word :: words) (hword : word.1 ∉ .assign :: selectorKinds) :
    Unassigning tokens := by
  obtain ⟨token, rest, rfl, rfl, -⟩ := List.map_eq_cons_iff.mp h
  rw [List.mem_cons, not_or] at hword
  exact unassigning_cons rest hword.2 hword.1

theorem unassigning_of_words_append {tokens : List Token} {words others : List Word}
    (h : tokens.map Token.word = words ++ others)
    (hwords : ∀ tokens : List Token, tokens.map Token.word = words → Unassigning tokens)
    (hothers : ∀ tokens : List Token, tokens.map Token.word = others → Unassigning tokens) :
    Unassigning tokens := by
  obtain ⟨front, back, rfl, hfront, hback⟩ := List.map_eq_append_iff.mp h
  exact (hwords front hfront).append (hothers back hback)

theorem unassigning_of_words_behind {tokens : List Token} {word : Word} {words : List Word}
    (h : tokens.map Token.word = word :: words) (hword : word.1 ≠ .assign)
    (hwords : ∀ tokens : List Token, tokens.map Token.word = words → Unassigning tokens) :
    Unassigning tokens := by
  obtain ⟨token, rest, rfl, rfl, hrest⟩ := List.map_eq_cons_iff.mp h
  exact (unassigning_singleton hword).append (hwords rest hrest)

theorem Entity.words_ne_assign (entity : Entity) : ∀ word ∈ entity.words, word.1 ≠ .assign := by
  obtain ⟨segments, span⟩ := entity
  rw [words]
  match segments with
  | [] => simp
  | name :: rest =>
    induction rest generalizing name with
    | nil => simp [Identifier.word]
    | cons other rest ih =>
      have hrest := ih other
      rw [List.map_cons] at hrest
      rw [List.map_cons, List.map_cons, List.intercalate_cons_cons, List.forall_mem_append,
        List.forall_mem_append]
      exact ⟨⟨by simp [Identifier.word], by simp⟩, hrest⟩

/-- The words of an expression bring no equals sign behind a selector. -/
theorem Expr.unassigning_words {style : Style} {value : Expr} {tokens : List Token}
    (h : tokens.map Token.word = value.words style) : Unassigning tokens := by
  induction value using Expr.induction generalizing tokens with
  | step value ih =>
    cases value with
    | literal value span =>
      refine unassigning_of_words h ?_
      cases value with
      | bool value => cases value <;> simp [Expr.words, Literal.tokenKind]
      | _ => simp [Expr.words, Literal.tokenKind]
    | format | identifier | «variable» | this | placeholder | metadata =>
      exact unassigning_of_words h (by simp [Expr.words, MetaSelector.words, Identifier.word])
    | list | record | paren =>
      rw [Expr.words] at h
      exact unassigning_of_words_cons h (by simp [selectorKinds])
    | binary op left right span =>
      rw [Expr.words] at h
      refine unassigning_of_words_append h (fun _ h => ?_)
        fun _ h => ih right (by simp [children]) h
      refine unassigning_of_words_append h (fun _ h => ih left (by simp [children]) h) fun _ h => ?_
      exact unassigning_of_words h (by cases op <;> simp [BinaryOp.words])
    | unary op operand span =>
      rw [Expr.words] at h
      exact unassigning_of_words_cons h (by cases op <;> simp [UnaryOp.word, selectorKinds])
    | lambda parameter body span =>
      rw [Expr.words] at h
      refine unassigning_of_words_behind h (by simp [Identifier.word]) fun _ h => ?_
      exact unassigning_of_words_cons h (by simp [selectorKinds])
    | member receiver name mark span =>
      rw [Expr.words] at h
      refine unassigning_of_words_append h (fun _ h => ih receiver (by simp [children]) h)
        fun _ h => ?_
      refine unassigning_of_words h ?_
      obtain _ | _ | _ := mark <;> simp [Identifier.memberWords, Identifier.word]
    | index receiver key optional span =>
      rw [Expr.words] at h
      refine unassigning_of_words_append h (fun _ h => ih receiver (by simp [children]) h)
        fun _ h => ?_
      exact unassigning_of_words_cons h (by simp [selectorKinds])
    | call function arguments span =>
      rw [Expr.words] at h
      refine unassigning_of_words_append h
        (fun _ h => unassigning_of_words h function.words_ne_assign) fun _ h => ?_
      exact unassigning_of_words_cons h (by simp [selectorKinds])
    | methodCall receiver function arguments span =>
      rw [Expr.words] at h
      refine unassigning_of_words_append h (fun _ h => ih receiver (by simp [children]) h)
        fun _ h => ?_
      refine unassigning_of_words_behind h (by simp) fun _ h => ?_
      refine unassigning_of_words_append h
        (fun _ h => unassigning_of_words h function.words_ne_assign) fun _ h => ?_
      exact unassigning_of_words_cons h (by simp [selectorKinds])

end

end PipelineLang
