import PipelineLang.Proofs.Grammar.StatementCompleteness

/-!
# Operators are grouped by their precedence

## Main definitions

- `Expr.IsOperation` — operators, lambdas and parentheses over names

## Main results

- `Program.groups_by_precedence` — all expressions of a program are grouped, and a tree
  of operators that is grouped is what its words are read as

## Design notes

The chain of operators on the left of a node is read by one loop, and the operand on
its right by a nested call with a higher least precedence. So the loop stops behind an
operand as soon as the operator ahead takes all of it, which is what grouping asks for.
-/

namespace PipelineLang

/-- Whether an expression is made up of operators, lambdas, parentheses and names, as far
as its topmost node goes. -/
def Expr.IsOperation : Expr → Prop
  | .binary _ _ _ _ | .unary _ _ _ | .lambda _ _ _ | .paren _ _ => True
  | .identifier name _ => name ≠ "_"
  | _ => False

theorem Expr.IsOperation.legible {value : Expr} (h : value.IsOperation) : value.Legible := by
  cases value with
  | identifier => exact h
  | binary | unary | lambda | paren => trivial
  | _ => exact h.elim

namespace Grammar

/-- The rules for single nodes group operands. -/
theorem local_grouped : Local (fun _ => True) (fun _ => True) Expr.Grouped where
  context := context_true
  inner _ _ _ _ _ _ := trivial
  primary h _ _ := by
    cases h with
    | name =>
      rw [nameOrPlaceholder]
      split <;> trivial
    | _ => trivial
  suffix {depth before taken ahead receiver suffix} hreceiver _ _ := by
    cases suffix <;> exact hreceiver
  unary h := h
  lambda _ _ h := h
  binary hleft hright := ⟨hleft, hright⟩

end Grammar

namespace Program

open Grammar

/-- In every program each operator has operands that bind more tightly, the left one as
tightly at least, and nothing on the right edge of its left operand would take its right
one; operands in front of which an operator stands, bodies of lambdas and receivers are
as the precedences ask. Conversely, the words of a tree of operators that is so are read
as that tree. -/
theorem groups_by_precedence :
    (∀ (limit : Nat) (tokens : List Token) (program : Program),
      ofTokens limit tokens = .ok program →
      ∀ value ∈ program.expressions, value.All Expr.Grouped) ∧
    (∀ (limit : Nat) (tokens : List Token) (target : Selector) (value : Expr),
      target.Legible → value.All Expr.IsOperation → value.All Expr.Grouped →
      value.nesting < limit →
      (TokenStream.ofTokens tokens).rest.map Token.word =
        target.words ++ (.assign, "=") :: value.words .layout →
      ∃ target' found span programSpan,
        ofTokens limit tokens = .ok ⟨none, some ⟨[.assignment target' found span], span⟩,
          programSpan⟩ ∧
        target'.unplaced = target.unplaced ∧ found.unplaced = value.unplaced) := by
  refine ⟨fun limit tokens program hprogram => ?_,
    fun limit tokens target value htarget hoperation hgrouped hdepth hwords => ?_⟩
  · exact all_of_derivation local_grouped (fun _ => trivial) trivial
      ((ofTokens_takes limit tokens).1 program hprogram)
  · have hreadable : value.All Expr.Readable :=
      hgrouped.and (hoperation.mono fun _ h => h.legible)
    exact ofTokens_assignment htarget hreadable hdepth hwords

/-- The words of `x = not a + b` are read as the negation of a sum. -/
theorem groups_by_precedence_not_sum :
    ∃ program found, ofTokens 4
        [⟨.identifier, "x", .zero⟩, ⟨.assign, "=", .zero⟩, ⟨.kwNot, "not", .zero⟩,
          ⟨.identifier, "a", .zero⟩, ⟨.plus, "+", .zero⟩, ⟨.identifier, "b", .zero⟩] =
        .ok program ∧
      program.expressions = [found] ∧ found.All Expr.Grouped ∧
      found.unplaced = .unary .not
        (.binary .add (.identifier "a" .zero) (.identifier "b" .zero) .zero) .zero := by
  have hleaf : ∀ name : String, name ≠ "_" →
      (Expr.identifier name .zero).All Expr.IsOperation ∧
      (Expr.identifier name .zero).All Expr.Grouped := fun name hname =>
    ⟨.intro hname (by simp [Expr.children]), .intro trivial (by simp [Expr.children])⟩
  have ha := hleaf "a" (by decide)
  have hb := hleaf "b" (by decide)
  obtain ⟨target, found, span, programSpan, hprogram, -, hfound⟩ := groups_by_precedence.2 4
    [⟨.identifier, "x", .zero⟩, ⟨.assign, "=", .zero⟩, ⟨.kwNot, "not", .zero⟩,
      ⟨.identifier, "a", .zero⟩, ⟨.plus, "+", .zero⟩, ⟨.identifier, "b", .zero⟩]
    (.field ⟨false, [⟨⟨"x", .zero⟩, false⟩], .zero⟩)
    (.unary .not (.binary .add (.identifier "a" .zero) (.identifier "b" .zero) .zero) .zero)
    (.inr (by simp))
    (.intro trivial (by
      rw [Expr.children, List.forall_mem_singleton]
      exact .intro trivial (by simpa [Expr.children] using ⟨ha.1, hb.1⟩)))
    (.intro (by simp [Expr.Grouped, Expr.AtLeast, Expr.operator?, UnaryOp.precedence,
        BinaryOp.precedence]) (by
      rw [Expr.children, List.forall_mem_singleton]
      refine .intro ?_ (by simpa [Expr.children] using ⟨ha.2, hb.2⟩)
      have hreceiver : (Expr.identifier "a" .zero).IsReceiver := trivial
      exact ⟨hreceiver.leftOf _, Expr.atLeast_of_operator?_eq_none rfl⟩))
    (by decide) rfl
  refine ⟨_, found, hprogram, rfl, ?_, hfound⟩
  exact groups_by_precedence.1 4 _ _ hprogram found (by simp [expressions, statements,
    Statement.allExpressions, Statement.expressions])

end Program

end PipelineLang
