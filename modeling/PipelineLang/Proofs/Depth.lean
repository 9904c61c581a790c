import PipelineLang.Proofs.Grammar.Everywhere
import PipelineLang.Proofs.Syntax.Unplaced

/-!
# How deep programs are nested

No program is nested deeper than the limit that it was read with, and neither is the
fragment that is left of a program with a fault.

## Main definitions

- `Statement.nesting`, `Program.nesting` — how deep the parts of a statement and of a program
  are nested
- `Goal.nesting` — how deep a nested part is nested itself
- `Grammar.Bounded` — nested parts are nested less than some depth

## Main results

- `Grammar.bounded_nestedTo` — what is read to some depth is nested less than that
- `Program.nesting_le_limit` — no program is nested deeper than its limit

## Design notes

A step into a part counts one: into a block, a conditional behind `else`, the arms of a
selection, the body of an arm, and from a statement, an argument or a pattern into its
expression. The items of a list or a record count one more than the step into each of them.
Left operands and receivers count nothing, since they are read before what makes them one.
-/

namespace PipelineLang

/-! ### Statements -/

/-- How deep expressions are nested in what holds them. -/
def Expr.nestingWithin : List Expr → Nat
  | [] => 0
  | value :: rest => max (1 + value.nesting) (Expr.nestingWithin rest)

mutual

/-- How deep the parts of a statement are nested. -/
def Statement.nesting : Statement → Nat
  | .letBinding _ value _ | .assignment _ value _ => 1 + value.nesting
  | .conditional inner => inner.nesting
  | .selection subject arms _ => max (1 + subject.nesting) (1 + Arm.nesting arms)
  | .invocation _ arguments _ none trailing _ =>
    max (Argument.nesting arguments) (Argument.nesting trailing)
  | .invocation _ arguments _ (some block) trailing _ =>
    max (max (Argument.nesting arguments) (1 + block.nesting)) (Argument.nesting trailing)

/-- How deep the parts of a conditional are nested. -/
def Conditional.nesting : Conditional → Nat
  | ⟨condition, consequence, alternative, _⟩ =>
    max (max (1 + condition.nesting) (1 + consequence.nesting)) alternative.nesting

/-- How deep an alternative is nested in its conditional. -/
def Alternative.nesting : Alternative → Nat
  | .absent => 0
  | .conditional inner => 1 + inner.nesting
  | .block inner => 1 + inner.nesting

/-- How deep the statements of a block are nested. -/
def Block.nesting : Block → Nat
  | ⟨none, _⟩ => 0
  | ⟨some body, _⟩ => body.nesting

/-- How deep the statements of a pipeline are nested. -/
def Pipeline.nesting : Pipeline → Nat
  | ⟨statements, _⟩ => Statement.nestingAll statements

/-- How deep the patterns and the bodies of arms are nested in them. -/
def Arm.nesting : List Arm → Nat
  | [] => 0
  | ⟨patterns, body, _⟩ :: rest =>
    max (max (Expr.nestingWithin patterns) (1 + body.nesting)) (Arm.nesting rest)

/-- How deep the parts of statements are nested. -/
def Statement.nestingAll : List Statement → Nat
  | [] => 0
  | statement :: rest => max statement.nesting (Statement.nestingAll rest)

end

/-- How deep the statements of a program are nested. -/
def Program.nesting (program : Program) : Nat :=
  match program.pipeline with
  | some pipeline => pipeline.nesting
  | none => 0

/-! ### Parts that are nested less than some depth -/

variable {depth : Nat}

theorem Segment.nesting_le {segments : List Segment}
    (h : ∀ value ∈ segments.filterMap (·.value?), value.nesting < depth) :
    nesting segments ≤ depth := by
  induction segments with
  | nil => simp [nesting]
  | cons segment rest ih =>
    cases segment with
    | text raw value span =>
      rw [nesting]
      exact ih (by simpa [Segment.value?] using h)
    | replacement value span =>
      simp only [List.filterMap_cons, Segment.value?_replacement, List.forall_mem_cons] at h
      have := ih h.2
      have := h.1
      rw [nesting]
      omega

theorem ListItem.nesting_le {items : List ListItem}
    (h : ∀ item ∈ items, item.value.nesting < depth) : nesting items ≤ depth := by
  induction items with
  | nil => simp [nesting]
  | cons item rest ih =>
    rw [List.forall_mem_cons] at h
    have := ih h.2
    have hitem := h.1
    cases item <;> rw [value] at hitem <;> rw [nesting] <;> omega

theorem RecordItem.nesting_le {items : List RecordItem}
    (h : ∀ item ∈ items, item.value.nesting < depth) : nesting items ≤ depth := by
  induction items with
  | nil => simp [nesting]
  | cons item rest ih =>
    rw [List.forall_mem_cons] at h
    have := ih h.2
    have hitem := h.1
    cases item <;> rw [value] at hitem <;> rw [nesting] <;> omega

theorem Argument.nesting_le {arguments : List Argument}
    (h : ∀ argument ∈ arguments, argument.value.nesting < depth) : nesting arguments ≤ depth := by
  induction arguments with
  | nil => simp [nesting]
  | cons argument rest ih =>
    rw [List.forall_mem_cons] at h
    have := ih h.2
    have hargument := h.1
    cases argument <;> rw [value] at hargument <;> rw [nesting] <;> omega

theorem Expr.nestingWithin_le {values : List Expr}
    (h : ∀ value ∈ values, value.nesting < depth) : nestingWithin values ≤ depth := by
  induction values with
  | nil => simp [nestingWithin]
  | cons value rest ih =>
    rw [List.forall_mem_cons] at h
    have := ih h.2
    have := h.1
    rw [nestingWithin]
    omega

theorem Arm.nesting_le {arms : List Arm}
    (h : ∀ arm ∈ arms, Expr.nestingWithin arm.patterns ≤ depth ∧ arm.body.nesting < depth) :
    nesting arms ≤ depth := by
  induction arms with
  | nil => simp [nesting]
  | cons arm rest ih =>
    obtain ⟨patterns, body, span⟩ := arm
    rw [List.forall_mem_cons] at h
    obtain ⟨⟨hpatterns, hbody⟩, hrest⟩ := h
    have := ih hrest
    rw [nesting]
    dsimp only at hpatterns hbody
    omega

theorem Statement.nestingAll_le {statements : List Statement}
    (h : ∀ statement ∈ statements, statement.nesting ≤ depth) : nestingAll statements ≤ depth := by
  induction statements with
  | nil => simp [nestingAll]
  | cons statement rest ih =>
    rw [List.forall_mem_cons] at h
    have := ih h.2
    rw [nestingAll]
    omega

/-- How deep a nested part is nested itself. -/
def Goal.nesting : {α : Type} → Goal α → α → Nat
  | _, .expression _, value => value.nesting
  | _, .listItems, items => ListItem.nesting items
  | _, .recordItems, items => RecordItem.nesting items
  | _, .arguments _, found => Argument.nesting found
  | _, .conditional, inner => inner.nesting
  | _, .block, inner => inner.nesting
  | _, .arms _, found => Arm.nesting found
  | _, .pipeline _, body => body.nesting

namespace Grammar

open Parse Shape

/-- Nested parts are nested less than `depth`. -/
def Bounded (depth : Nat) (nested : Nested) : Prop :=
  ∀ {α : Type} {goal : Goal α} {before taken ahead : List Token} {a : α},
    nested α goal before taken ahead a → goal.nesting a < depth

variable {nested : Nested} (hn : Bounded depth nested) {before taken ahead : List Token}

/-- What holds of the members of a series, whatever the tokens around them may be. -/
theorem forall_of_series_of {α : Type} {item : Shape α} {again : Shape Bool} {P : α → Prop}
    {items : List α} (hitem : ∀ {before taken ahead a}, item before taken ahead a → P a)
    (h : Series item again before taken ahead items) : ∀ a ∈ items, P a :=
  forall_of_series (W := fun _ => True) (fun h _ => hitem h) h trivial

/-- What holds of the items between brackets, whatever the tokens around them may be. -/
theorem forall_of_items_of {α : Type} {item : Shape α} {P : α → Prop} {items : List α}
    (hitem : ∀ {before taken ahead a}, item before taken ahead a → P a)
    (h : ItemsAt item before taken ahead items) : ∀ a ∈ items, P a :=
  forall_of_items (W := fun _ => True) (fun h _ => hitem h) h trivial

include hn

/-! ### Expressions -/

theorem assignment_bounded {target : Selector} {value : Expr}
    (h : AssignmentAt nested before taken ahead (target, value)) : value.nesting < depth := by
  obtain ⟨-, -, hvalue⟩ := h
  exact hn hvalue

theorem argument_bounded {argument : Argument}
    (h : ArgumentAt nested before taken ahead argument) : argument.value.nesting < depth := by
  cases h with
  | named hassignment => exact assignment_bounded hn hassignment
  | positional hvalue => exact hn hvalue

theorem call_bounded {function : Entity} {arguments : List Argument}
    (h : CallAt nested before taken ahead (function, arguments)) :
    Argument.nesting arguments < depth := by
  obtain ⟨-, ⟨-, harguments⟩⟩ := h
  exact hn harguments

theorem segments_bounded {pieces : List FormatPiece} {segments : List Segment}
    (h : SegmentsOf nested pieces segments) :
    ∀ value ∈ segments.filterMap (·.value?), value.nesting < depth := by
  induction h with
  | nil => simp
  | cons hsegment _ ih =>
    cases hsegment with
    | text => simpa [Segment.value?] using ih
    | replacement _ hvalue =>
      simp only [List.filterMap_cons, Segment.value?_replacement, List.forall_mem_cons]
      generalize (TokenStream.ofTokens _).rest = rest at hvalue
      obtain ⟨-, hvalue, -⟩ := hvalue
      exact ⟨hn hvalue, ih⟩

theorem primary_bounded {value : Expr} (h : PrimaryAt nested before taken ahead value) :
    value.nesting ≤ depth := by
  cases h with
  | literal | dollar | this | metadata => simp [Expr.nesting]
  | name =>
    rw [nameOrPlaceholder]
    split <;> simp [Expr.nesting]
  | format _ _ hsegments =>
    rw [Expr.nesting]
    exact Segment.nesting_le (segments_bounded hn hsegments)
  | call hcall =>
    have := call_bounded hn hcall
    rw [Expr.nesting]
    omega
  | list _ _ hitems | record _ _ hitems =>
    have := hn hitems
    rw [Goal.nesting] at this
    rw [Expr.nesting]
    omega
  | paren _ _ _ _ hinner =>
    have := hn hinner
    rw [Goal.nesting] at this
    rw [Expr.nesting]
    omega

theorem suffix_bounded {receiver : Expr} {suffix : Suffix} (hreceiver : receiver.nesting ≤ depth)
    (h : SuffixAt nested before taken ahead suffix) :
    (suffix.apply receiver).nesting ≤ depth := by
  cases h with
  | member | memberBehind | memberAhead => simpa [Suffix.apply, Expr.nesting] using hreceiver
  | call _ hcall =>
    have := call_bounded hn hcall
    rw [Suffix.apply, Expr.nesting]
    omega
  | index _ _ _ _ hkey | optionalIndex _ _ _ _ _ hkey =>
    have := hn hkey
    rw [Goal.nesting] at this
    rw [Suffix.apply, Expr.nesting]
    omega

theorem suffixes_bounded {receiver : Expr} {suffixes : List Suffix}
    (hreceiver : receiver.nesting ≤ depth)
    (h : Many (SuffixAt nested) before taken ahead suffixes) :
    (suffixes.foldl Suffix.apply receiver).nesting ≤ depth := by
  induction h generalizing receiver with
  | nil => exact hreceiver
  | cons hsuffix _ ih => exact ih (suffix_bounded hn hreceiver hsuffix)

theorem suffixed_bounded {value : Expr} (h : SuffixedAt nested before taken ahead value) :
    value.nesting ≤ depth := by
  obtain ⟨hreceiver, hsuffixes, -⟩ := h
  exact suffixes_bounded hn (primary_bounded hn hreceiver) hsuffixes

theorem operand_bounded {value : Expr} (h : OperandAt nested before taken ahead value) :
    value.nesting ≤ depth := by
  cases h with
  | unary _ hoperand =>
    have := hn hoperand
    rw [Goal.nesting] at this
    rw [Expr.nesting]
    omega
  | lambda _ _ _ hbody =>
    have := hn hbody
    rw [Goal.nesting] at this
    rw [Expr.nesting]
    omega
  | plain _ _ hoperand => exact suffixed_bounded hn hoperand

/-- Each operator joins what is on its left, at the same depth, with an operand that is
nested in it. -/
theorem links_bounded {least : Nat} {left : Expr} {links : List (BinaryOp × Expr)}
    (hleft : left.nesting ≤ depth) (h : Many (LinkAt nested least) before taken ahead links) :
    (links.foldl join left).nesting ≤ depth := by
  induction h generalizing left with
  | nil => exact hleft
  | cons hlink _ ih =>
    obtain ⟨-, -, -, hright⟩ := hlink
    refine ih ?_
    have := hn hright
    rw [Goal.nesting] at this
    rw [join, Expr.nesting]
    dsimp only
    omega

theorem chain_bounded {least : Nat} {value : Expr}
    (h : ChainAt nested least before taken ahead value) : value.nesting ≤ depth := by
  obtain ⟨hfirst, hlinks, -⟩ := h
  exact links_bounded hn (operand_bounded hn hfirst) hlinks

/-! ### Statements -/

theorem arguments_bounded {arguments : List Argument}
    (h : Series (ArgumentAt nested) CommaBehind before taken ahead arguments) :
    Argument.nesting arguments ≤ depth :=
  Argument.nesting_le (forall_of_series_of (argument_bounded hn) h)

theorem parenthesized_bounded {arguments : List Argument}
    (h : ParenthesizedAt nested before taken ahead arguments) :
    Argument.nesting arguments ≤ depth := by
  obtain ⟨⟨-, harguments⟩, -⟩ := h
  exact (hn harguments).le

theorem bare_bounded {arguments : List Argument}
    (h : BareAt nested before taken ahead arguments) : Argument.nesting arguments ≤ depth := by
  obtain ⟨harguments, -⟩ := h
  exact arguments_bounded hn harguments

theorem operatorArguments_bounded {found : List Argument × Bool}
    (h : OperatorArgumentsAt nested before taken ahead found) :
    Argument.nesting found.1 ≤ depth := by
  cases h with
  | parenthesized harguments => exact parenthesized_bounded hn harguments
  | none => simp [Argument.nesting]
  | bare harguments => exact bare_bounded hn harguments

theorem operatorBlock_bounded {block : Option Pipeline} {trailing : List Argument}
    (h : OperatorBlockAt nested before taken ahead (block, trailing)) :
    (∀ body ∈ block, body.nesting < depth) ∧ Argument.nesting trailing ≤ depth := by
  simp only [Option.mem_def]
  cases h with
  | none => simp [Argument.nesting]
  | alone _ _ _ hbody _ => exact ⟨by rintro _ ⟨⟩; exact hn hbody, by simp [Argument.nesting]⟩
  | parenthesized _ _ _ _ _ hbody htrailing =>
    exact ⟨by rintro _ ⟨⟩; exact hn hbody, parenthesized_bounded hn htrailing⟩
  | bare _ _ _ _ _ hbody htrailing =>
    exact ⟨by rintro _ ⟨⟩; exact hn hbody, bare_bounded hn htrailing⟩

theorem invocation_bounded {statement : Statement}
    (h : InvocationAt nested before taken ahead statement) : statement.nesting ≤ depth := by
  obtain ⟨-, harguments, hblock⟩ := h
  rename_i block trailing
  have hfront := operatorArguments_bounded hn harguments
  obtain ⟨hbody, htrailing⟩ := operatorBlock_bounded hn hblock
  cases block with
  | none =>
    rw [Statement.nesting]
    exact Nat.max_le.mpr ⟨hfront, htrailing⟩
  | some body =>
    have := hbody body rfl
    rw [Statement.nesting]
    exact Nat.max_le.mpr ⟨Nat.max_le.mpr ⟨hfront, by omega⟩, htrailing⟩

theorem conditional_bounded {inner : Conditional}
    (h : ConditionalAt nested before taken ahead inner) : inner.nesting ≤ depth := by
  cases h with
  | absent _ hcondition hconsequence _ =>
    have := hn hcondition
    have := hn hconsequence
    simp only [Goal.nesting, Conditional.nesting, Alternative.nesting] at *
    omega
  | conditional _ _ hcondition hconsequence hinner | block _ _ hcondition hconsequence hinner =>
    have := hn hcondition
    have := hn hconsequence
    have := hn hinner
    simp only [Goal.nesting, Conditional.nesting, Alternative.nesting] at *
    omega

theorem statement_bounded {statement : Statement}
    (h : StatementAt nested before taken ahead statement) : statement.nesting ≤ depth := by
  cases h with
  | letBinding hlet =>
    obtain ⟨-, -, -, hvalue⟩ := hlet
    have := hn hvalue
    rw [Goal.nesting] at this
    rw [Statement.nesting]
    omega
  | conditional hinner =>
    rw [Statement.nesting]
    exact conditional_bounded hn hinner
  | selection hselection =>
    obtain ⟨-, -, -, -, hsubject, harms⟩ := hselection
    have := hn hsubject
    have := hn harms
    simp only [Goal.nesting] at *
    rw [Statement.nesting]
    omega
  | assignment hassignment =>
    have := assignment_bounded hn hassignment
    rw [Statement.nesting]
    omega
  | invocation hinvocation => exact invocation_bounded hn hinvocation

theorem pipeline_bounded {pipeline : Pipeline}
    (h : PipelineAt nested before taken ahead pipeline) : pipeline.nesting ≤ depth := by
  obtain ⟨hstatements⟩ := h
  rw [Pipeline.nesting]
  exact Statement.nestingAll_le (forall_of_series_of (statement_bounded hn) hstatements)

theorem block_bounded {block : Block} (h : BlockAt nested before taken ahead block) :
    block.nesting ≤ depth := by
  cases h with
  | empty => simp [Block.nesting]
  | body _ _ _ hbody =>
    rw [Block.nesting]
    exact pipeline_bounded hn hbody

omit hn in
/-- A name in front of an arrow is a pattern that is not entered, but it has no parts. -/
theorem nesting_of_arrowAhead {value : Expr} (harrow : ArrowAhead (taken ++ ahead))
    (h : PrimaryAt nested before taken ahead value) : value.nesting = 0 := by
  obtain ⟨hfirst, hsecond⟩ := harrow
  cases h with
  | literal | dollar | this | metadata => simp [Expr.nesting]
  | name =>
    rw [nameOrPlaceholder]
    split <;> simp [Expr.nesting]
  | format htoken => simp [htoken] at hfirst
  | list hopener | record hopener | paren hopener => simp [hopener] at hfirst
  | @call _ _ _ function _ hcall =>
    obtain ⟨⟨hpath, -⟩, ⟨hopener, -⟩⟩ := hcall
    generalize function.segments = names at hpath
    cases hpath with
    | one => simp [hopener] at hsecond
    | more _ hseparator => simp [hseparator] at hsecond

/-- The body of an arm is nested in it, so there is room for its patterns. -/
theorem arm_bounded {arm : Arm} (h : ArmAt nested before taken ahead arm) :
    Expr.nestingWithin arm.patterns ≤ depth ∧ arm.body.nesting < depth := by
  obtain ⟨-, -, -, -, hpatterns, hbody⟩ := h
  have hbody := hn hbody
  refine ⟨Expr.nestingWithin_le (forall_of_series_of (fun h => ?_) hpatterns), hbody⟩
  cases h with
  | name harrow hpattern =>
    rw [nesting_of_arrowAhead harrow hpattern]
    exact Nat.zero_lt_of_lt hbody
  | expression _ hpattern => exact hn hpattern

theorem goal_bounded {α : Type} {goal : Goal α} {a : α}
    (h : goal.At nested before taken ahead a) : goal.nesting a ≤ depth := by
  cases goal with
  | expression least => exact chain_bounded hn h
  | listItems =>
    refine ListItem.nesting_le (forall_of_items_of (fun h => ?_) h)
    cases h with
    | spread _ hvalue | item hvalue => exact hn hvalue
  | recordItems =>
    refine RecordItem.nesting_le (forall_of_items_of (fun h => ?_) h)
    cases h with
    | spread _ hvalue | field _ _ _ hvalue => exact hn hvalue
  | arguments opener =>
    obtain ⟨-, harguments⟩ := h
    exact Argument.nesting_le (forall_of_items_of (argument_bounded hn) harguments)
  | conditional => exact conditional_bounded hn h
  | block => exact block_bounded hn h
  | arms opener =>
    cases h with
    | none => simp [Goal.nesting, Arm.nesting]
    | some harms => exact Arm.nesting_le (forall_of_series_of (arm_bounded hn) harms)
  | pipeline opener => exact pipeline_bounded hn h

omit hn in
/-- What is read to some depth is nested less than that. -/
theorem bounded_nestedTo (depth : Nat) : Bounded depth (nestedTo depth) := by
  induction depth with
  | zero => exact fun h => h.elim
  | succ depth ih => exact fun h => Nat.lt_succ_of_le (goal_bounded ih h)

end Grammar

namespace Program

open Grammar

theorem nesting_of_derivation {limit : Nat} {complete : Bool} {tokens : List Token}
    {program : Program} (h : Derivation limit complete tokens program) :
    program.nesting ≤ limit := by
  obtain ⟨-, -, hstatements⟩ := h
  rename_i statements
  have hn : Bounded limit (nestedTo limit) := bounded_nestedTo limit
  have hall : Statement.nestingAll statements ≤ limit := by
    refine Statement.nestingAll_le ?_
    cases hstatements with
    | none => simp
    | all hstatements => exact forall_of_series_of (statement_bounded hn) hstatements
    | fragment _ hstatements =>
      exact forall_of_partial (W := fun _ => True) (fun h _ => statement_bounded hn h) hstatements
        trivial
  cases statements with
  | nil => exact Nat.zero_le limit
  | cons statement rest =>
    simpa only [Program.nesting, Pipeline.ofStatements?, List.head?_cons, List.getLast?_cons,
      Pipeline.nesting] using hall

/-- No program is nested deeper than the limit it is read with; neither is the fragment
that is left of a program with a fault. -/
theorem nesting_le_limit (limit : Nat) (tokens : List Token) :
    (∀ program, ofTokens limit tokens = .ok program → program.nesting ≤ limit) ∧
      ∀ rejection, ofTokens limit tokens = .error rejection →
        rejection.fragment.nesting ≤ limit :=
  ⟨fun program h => nesting_of_derivation ((ofTokens_takes limit tokens).1 program h),
    fun rejection h => nesting_of_derivation ((ofTokens_takes limit tokens).2 rejection h)⟩

/-- The call `p a` is read with a limit of one; `q b[c]` behind it is not, and leaves the
call as a fragment. -/
theorem nesting_le_limit_call :
    (∃ program, ofTokens 1 [⟨.identifier, "p", .zero⟩, ⟨.identifier, "a", .zero⟩] = .ok program ∧
      program.nesting ≤ 1) ∧
    ∃ rejection, ofTokens 1 [⟨.identifier, "p", .zero⟩, ⟨.identifier, "a", .zero⟩,
        ⟨.newline, "\n", .zero⟩, ⟨.identifier, "q", .zero⟩, ⟨.identifier, "b", .zero⟩,
        ⟨.lBracket, "[", .zero⟩, ⟨.identifier, "c", .zero⟩, ⟨.rBracket, "]", .zero⟩] =
      .error rejection ∧ rejection.fragment.nesting ≤ 1 := by
  constructor
  · have hok : (ofTokens 1 [⟨.identifier, "p", .zero⟩, ⟨.identifier, "a", .zero⟩]).isOk = true := by
      decide +kernel
    generalize h : ofTokens 1 _ = found at hok ⊢
    cases found with
    | ok program => exact ⟨program, rfl, (nesting_le_limit 1 _).1 program h⟩
    | error rejection => cases hok
  · have hok : (ofTokens 1 [⟨.identifier, "p", .zero⟩, ⟨.identifier, "a", .zero⟩,
        ⟨.newline, "\n", .zero⟩, ⟨.identifier, "q", .zero⟩, ⟨.identifier, "b", .zero⟩,
        ⟨.lBracket, "[", .zero⟩, ⟨.identifier, "c", .zero⟩, ⟨.rBracket, "]", .zero⟩]).isOk =
        false := by decide +kernel
    generalize h : ofTokens 1 _ = found at hok ⊢
    cases found with
    | ok program => cases hok
    | error rejection => exact ⟨rejection, rfl, (nesting_le_limit 1 _).2 rejection h⟩

end Program

end PipelineLang
