import PipelineLang.Proofs.Grammar.ProgramSoundness
import PipelineLang.Proofs.Syntax.Grouping

/-!
# Properties of all expressions of a program

A property of expressions that the rules for single nodes bring about holds of all
expressions of a program. It may depend on all tokens of the program, on either side
of the node, and on what stands right before an operand.

## Main definitions

- `Grammar.Context` — what may be known of the tokens before an expression
- `Grammar.Local` — the rules for single nodes bring a property about
- `Grammar.Covers` — the property holds everywhere within a nested part

## Main results

- `Grammar.covered_of_nestedTo` — nested parts, to any depth
- `Program.all_of_derivation` — all expressions of a program

## Design notes

What an expression goes on with depends on what is behind it. So an expression is
covered before some tokens, and an operator among them takes all of it.

A pattern may stand right behind a brace, so statements are covered only where nothing is
asked of the tokens before an expression.
-/

namespace PipelineLang

open Parse Shape

namespace Grammar

/-- A property of the tokens before an expression. It holds where nothing is before it, right
behind each token that opens no statement, and behind a line end as before it. -/
structure Context (C : List Token → Prop) : Prop where
  nil : C []
  newline : ∀ {before token}, token.kind = .newline → C before → C (before ++ [token])
  behind : ∀ {before token}, token.kind ∉ Lexeme.statementOpeners → C (before ++ [token])

theorem context_true : Context fun _ => True := ⟨trivial, fun _ _ => trivial, fun _ => trivial⟩

theorem Context.second {C : List Token → Prop} (hC : Context C) {before : List Token}
    {first second : Token} (h : second.kind ∉ Lexeme.statementOpeners) :
    C (before ++ [first, second]) := by
  rw [List.append_cons]
  exact hC.behind h

theorem Context.newlines {C : List Token → Prop} (hC : Context C) {before newlines : List Token}
    (h : C before) (hnewlines : Newlines newlines) : C (before ++ newlines) := by
  induction newlines generalizing before with
  | nil => simpa using h
  | cons token newlines ih =>
    obtain ⟨htoken, hnewlines⟩ := List.forall_mem_cons.mp hnewlines
    rw [List.append_cons]
    exact ih (hC.newline htoken h) hnewlines

/-- The rules for single nodes bring `N` about, if `W` holds of all tokens of the
source that the node is in, and `C` of those before it. -/
structure Local (W C : List Token → Prop) (N : Expr → Prop) : Prop where
  context : Context C
  /-- The tokens of a replacement are such tokens. -/
  inner : ∀ {tokens token pieces text span place others}, W tokens → token ∈ tokens →
    token.kind = .formatString → token.formatPieces = .ok pieces →
    FormatPiece.replacement text span place ∈ pieces →
    (Scanner.within text span).tokens? = .ok others → W (TokenStream.ofTokens others).rest
  primary : ∀ {depth before taken ahead value},
    PrimaryAt (nestedTo depth) before taken ahead value → C before →
    W (before ++ taken ++ ahead) → N value
  suffix : ∀ {depth before taken ahead receiver suffix}, receiver.IsReceiver →
    SuffixAt (nestedTo depth) before taken ahead suffix → W (before ++ taken ++ ahead) →
    N (suffix.apply receiver)
  unary : ∀ {op operand span}, operand.AtLeast op.precedence → N (.unary op operand span)
  lambda : ∀ {before ahead : List Token} {parameter : Token} {body span},
    parameter.kind = .identifier → W (before ++ parameter :: ahead) →
    body.AtLeast lambdaPrecedence → N (.lambda (identifierOf parameter) body span)
  binary : ∀ {op left right span}, left.LeftOf op → right.AtLeast (op.precedence + 1) →
    N (.binary op left right span)

/-- The operator that is next. -/
def operatorAhead (ahead : List Token) : Option BinaryOp :=
  (binaryOp? (firstKind ahead) (secondKind ahead)).map (·.1)

/-- Whether an operator that is next takes all of an expression as its left operand. -/
def EndsBefore (ahead : List Token) (value : Expr) : Prop :=
  ∀ op, operatorAhead ahead = some op → value.LeftOf op

/-- What is known of the tokens before a nested part. -/
def StartsIn (C : List Token → Prop) : {α : Type} → Goal α → List Token → Prop
  | _, .expression _, before | _, .listItems, before | _, .arguments _, before => C before
  | _, .recordItems, _ => True
  | _, .conditional, _ | _, .block, _ | _, .arms _, _ | _, .pipeline _, _ =>
    ∀ before, C before

/-- Whether `N` holds of all expressions in what has been read before some tokens. -/
def Covers (N : Expr → Prop) : {α : Type} → Goal α → List Token → α → Prop
  | _, .expression least, ahead, value =>
    value.All N ∧ value.AtLeast least ∧ EndsBefore ahead value ∧
      ∀ op, operatorAhead ahead = some op → op.precedence < least
  | _, .listItems, _, items => ∀ item ∈ items, item.value.All N
  | _, .recordItems, _, items => ∀ item ∈ items, item.value.All N
  | _, .arguments _, _, arguments => ∀ argument ∈ arguments, argument.value.All N
  | _, .conditional, _, inner => ∀ value ∈ inner.expressions, value.All N
  | _, .block, _, block => ∀ value ∈ block.expressions, value.All N
  | _, .arms _, _, arms => ∀ value ∈ Arm.expressions arms, value.All N
  | _, .pipeline _, _, body => ∀ value ∈ body.expressions, value.All N

section

variable {W C : List Token → Prop} {N : Expr → Prop} {nested : Nested}
  {before taken ahead : List Token}

/-! ### Series -/

theorem forall_of_series_in {α : Type} {item : Shape α} {again : Shape Bool} {P : α → Prop}
    {items : List α}
    (hagain : ∀ {before taken ahead}, again before taken ahead true → C (before ++ taken))
    (hitem : ∀ {before taken ahead a}, item before taken ahead a → C before →
      W (before ++ taken ++ ahead) → P a)
    (h : Series item again before taken ahead items) (hC : C before)
    (hW : W (before ++ taken ++ ahead)) : ∀ a ∈ items, P a := by
  induction h with
  | last h _ =>
    rw [List.forall_mem_singleton]
    exact hitem h hC (by simpa using hW)
  | more h hmore _ ih =>
    rw [List.forall_mem_cons]
    exact ⟨hitem h hC (by simpa using hW), ih (hagain hmore) (by simpa using hW)⟩

theorem forall_of_series {α : Type} {item : Shape α} {again : Shape Bool} {P : α → Prop}
    {items : List α}
    (hitem : ∀ {before taken ahead a}, item before taken ahead a →
      W (before ++ taken ++ ahead) → P a)
    (h : Series item again before taken ahead items) (hW : W (before ++ taken ++ ahead)) :
    ∀ a ∈ items, P a :=
  forall_of_series_in (C := fun _ => True) (fun _ => trivial) (fun h _ hW => hitem h hW) h
    trivial hW

theorem forall_of_partial {α : Type} {item : Shape α} {again : Shape Bool} {P : α → Prop}
    {items : List α}
    (hitem : ∀ {before taken ahead a}, item before taken ahead a →
      W (before ++ taken ++ ahead) → P a)
    (h : Partial item again before taken ahead items) (hW : W (before ++ taken ++ ahead)) :
    ∀ a ∈ items, P a := by
  induction h with
  | nil => simp
  | last h =>
    rw [List.forall_mem_singleton]
    exact hitem h hW
  | more h _ _ ih =>
    rw [List.forall_mem_cons]
    exact ⟨hitem h (by simpa using hW), ih (by simpa using hW)⟩

theorem Comma.context (hcontext : Context C) {found : Bool} (h : Comma before taken ahead found)
    (hfound : found = true) : C (before ++ taken) := by
  cases h with
  | absent => simp at hfound
  | present _ hcomma htrailing =>
    rw [List.append_cons, ← List.append_assoc, ← List.append_assoc]
    exact hcontext.newlines (hcontext.behind (by rw [hcomma]; decide)) htrailing

theorem forall_of_items_in {α : Type} {item : Shape α} {P : α → Prop} {items : List α}
    (hcontext : Context C)
    (hitem : ∀ {before taken ahead a}, item before taken ahead a → C before →
      W (before ++ taken ++ ahead) → P a)
    (h : ItemsAt item before taken ahead items) (hC : C before)
    (hW : W (before ++ taken ++ ahead)) : ∀ a ∈ items, P a := by
  cases h with
  | none => simp
  | some hnewlines hitems =>
    exact forall_of_series_in (fun h => h.context hcontext rfl) hitem hitems
      (hcontext.newlines hC hnewlines) (by simpa using hW)

theorem forall_of_items {α : Type} {item : Shape α} {P : α → Prop} {items : List α}
    (hitem : ∀ {before taken ahead a}, item before taken ahead a →
      W (before ++ taken ++ ahead) → P a)
    (h : ItemsAt item before taken ahead items) (hW : W (before ++ taken ++ ahead)) :
    ∀ a ∈ items, P a :=
  forall_of_items_in context_true (fun h _ hW => hitem h hW) h trivial hW

/-! ### Expressions -/

/-- Nested parts are covered, if the tokens around them are such tokens. -/
def Covered (W C : List Token → Prop) (N : Expr → Prop) (nested : Nested) : Prop :=
  ∀ {α : Type} {goal : Goal α} {before taken ahead : List Token} {a : α},
    nested α goal before taken ahead a → StartsIn C goal before → W (before ++ taken ++ ahead) →
    Covers N goal ahead a

variable (hn : Covered W C N nested) (hcontext : Context C)

include hn hcontext

theorem assignment_covered {target : Selector} {value : Expr}
    (h : AssignmentAt nested before taken ahead (target, value))
    (hW : W (before ++ taken ++ ahead)) : value.All N := by
  obtain ⟨-, hsign, hvalue⟩ := h
  exact (hn hvalue (hcontext.behind (by rw [hsign]; decide)) (by simpa using hW)).1

theorem argument_covered {argument : Argument} (h : ArgumentAt nested before taken ahead argument)
    (hC : C before) (hW : W (before ++ taken ++ ahead)) : argument.value.All N := by
  cases h with
  | named hassignment => exact assignment_covered hn hcontext hassignment hW
  | positional hvalue => exact (hn hvalue hC hW).1

theorem callArguments_covered {arguments : List Argument}
    (h : CallArgumentsAt nested before taken ahead arguments) (hW : W (before ++ taken ++ ahead)) :
    ∀ argument ∈ arguments, argument.value.All N := by
  obtain ⟨hopener, harguments⟩ := h
  exact hn harguments (hcontext.behind (by rw [hopener]; decide)) (by simpa using hW)

theorem call_covered {call : Entity × List Argument} (h : CallAt nested before taken ahead call)
    (hW : W (before ++ taken ++ ahead)) : ∀ argument ∈ call.2, argument.value.All N := by
  obtain ⟨-, harguments⟩ := h
  exact callArguments_covered hn hcontext harguments (by simpa using hW)

theorem segments_covered {pieces : List FormatPiece} {segments : List Segment}
    (hinner : ∀ {text span place tokens}, FormatPiece.replacement text span place ∈ pieces →
      (Scanner.within text span).tokens? = .ok tokens → W (TokenStream.ofTokens tokens).rest)
    (h : SegmentsOf nested pieces segments) :
    ∀ value ∈ segments.filterMap (·.value?), value.All N := by
  induction h with
  | nil => simp
  | cons hsegment _ ih =>
    have ih := ih fun hmem => hinner (List.mem_cons_of_mem _ hmem)
    cases hsegment with
    | text => simpa [Segment.value?] using ih
    | replacement htokens hvalue =>
      simp only [List.filterMap_cons, Segment.value?_replacement, List.forall_mem_cons]
      refine ⟨?_, ih⟩
      have hW := hinner List.mem_cons_self htokens
      generalize (TokenStream.ofTokens _).rest = rest at hvalue hW
      obtain ⟨hleading, hvalue, -⟩ := hvalue
      have hC := hcontext.newlines hcontext.nil hleading
      exact (hn hvalue hC (by simpa using hW)).1

theorem primary_children_covered {value : Expr}
    (hinner : ∀ {tokens token pieces text span place others}, W tokens → token ∈ tokens →
      token.kind = .formatString → token.formatPieces = .ok pieces →
      FormatPiece.replacement text span place ∈ pieces →
      (Scanner.within text span).tokens? = .ok others → W (TokenStream.ofTokens others).rest)
    (h : PrimaryAt nested before taken ahead value) (hW : W (before ++ taken ++ ahead)) :
    ∀ child ∈ value.children, child.All N := by
  cases h with
  | literal | dollar | this | metadata => simp [Expr.children]
  | name =>
    rw [nameOrPlaceholder]
    split <;> simp [Expr.children]
  | format htoken hpieces hsegments =>
    exact segments_covered hn hcontext (hinner hW (by simp) htoken hpieces) hsegments
  | call hcall =>
    rw [Expr.children, List.forall_mem_map]
    exact call_covered hn hcontext hcall hW
  | list hopener _ hitems =>
    rw [Expr.children, List.forall_mem_map]
    exact hn hitems (hcontext.behind (by rw [hopener]; decide)) (by simpa using hW)
  | record _ _ hitems =>
    rw [Expr.children, List.forall_mem_map]
    exact hn hitems trivial (by simpa using hW)
  | paren hopener _ hleading _ hinner =>
    rw [Expr.children, List.forall_mem_singleton]
    have hopens : C (before ++ [_]) := hcontext.behind (by rw [hopener]; decide)
    exact (hn hinner (hcontext.newlines hopens hleading) (by simpa using hW)).1

theorem suffix_children_covered {receiver : Expr} {suffix : Suffix} (hreceiver : receiver.All N)
    (h : SuffixAt nested before taken ahead suffix) (hW : W (before ++ taken ++ ahead)) :
    ∀ child ∈ (suffix.apply receiver).children, child.All N := by
  cases h with
  | member | memberBehind | memberAhead =>
    rw [Suffix.apply, Expr.children, List.forall_mem_singleton]
    exact hreceiver
  | call _ hcall =>
    rw [Suffix.apply, Expr.children, List.forall_mem_cons, List.forall_mem_map]
    exact ⟨hreceiver, call_covered hn hcontext hcall (by simpa using hW)⟩
  | index hopener _ hleading _ hkey | optionalIndex hopener _ _ hleading _ hkey =>
    rw [Suffix.apply, Expr.children, List.forall_mem_cons, List.forall_mem_singleton]
    have hopens : C (before ++ [_]) := hcontext.behind (by rw [hopener]; decide)
    exact ⟨hreceiver, (hn hkey (hcontext.newlines hopens hleading) (by simpa using hW)).1⟩

end

section

variable {W C : List Token → Prop} {N : Expr → Prop} (hN : Local W C N) {depth : Nat}
  (hn : Covered W C N (nestedTo depth)) {before taken ahead : List Token}

include hN hn

theorem primary_covered {value : Expr} (h : PrimaryAt (nestedTo depth) before taken ahead value)
    (hC : C before) (hW : W (before ++ taken ++ ahead)) : value.All N :=
  .intro (hN.primary h hC hW) (primary_children_covered hn hN.context hN.inner h hW)

omit hN hn in
theorem PrimaryAt.isReceiver {nested : Nested} {value : Expr}
    (h : PrimaryAt nested before taken ahead value) : value.IsReceiver := by
  cases h with
  | name =>
    rw [nameOrPlaceholder]
    split <;> trivial
  | _ => trivial

theorem suffixes_covered {receiver : Expr} {suffixes : List Suffix} (hreceiver : receiver.All N)
    (hplain : receiver.IsReceiver)
    (h : Many (SuffixAt (nestedTo depth)) before taken ahead suffixes)
    (hW : W (before ++ taken ++ ahead)) :
    (suffixes.foldl Suffix.apply receiver).All N ∧
      (suffixes.foldl Suffix.apply receiver).IsReceiver := by
  induction h generalizing receiver with
  | nil => exact ⟨hreceiver, hplain⟩
  | @cons _ _ _ _ suffix _ hsuffix _ ih =>
    refine ih (.intro (hN.suffix hplain hsuffix (by simpa using hW))
      (suffix_children_covered hn hN.context hreceiver hsuffix (by simpa using hW))) ?_
      (by simpa using hW)
    cases suffix <;> trivial

theorem suffixed_covered {value : Expr} (h : SuffixedAt (nestedTo depth) before taken ahead value)
    (hC : C before) (hW : W (before ++ taken ++ ahead)) : value.All N ∧ value.IsReceiver := by
  obtain ⟨hreceiver, hsuffixes, -⟩ := h
  exact suffixes_covered hN hn (primary_covered hN hn hreceiver hC (by simpa using hW))
    hreceiver.isReceiver hsuffixes (by simpa using hW)

omit hN hn in
theorem not_opener_of_unaryOp? {kind : TokenKind} {op : UnaryOp} (h : unaryOp? kind = some op) :
    kind ∉ Lexeme.statementOpeners := by
  cases kind <;> simp_all [unaryOp?, Lexeme.statementOpeners]

theorem operand_covered {value : Expr} (h : OperandAt (nestedTo depth) before taken ahead value)
    (hC : C before) (hW : W (before ++ taken ++ ahead)) :
    value.All N ∧ value.operator? = none ∧ EndsBefore ahead value := by
  cases h with
  | unary hopener hoperand =>
    obtain ⟨hall, hleast, hends, hstops⟩ := hn hoperand
      (hN.context.behind (not_opener_of_unaryOp? hopener)) (by simpa using hW)
    refine ⟨.intro (hN.unary hleast) (by simpa [Expr.children] using hall), rfl, fun op hop => ?_⟩
    exact ⟨Expr.atLeast_of_operator?_eq_none rfl,
      List.forall_mem_cons.mpr ⟨hstops op hop, (hends op hop).2⟩⟩
  | lambda hparameter harrow hleading hbody =>
    obtain ⟨hall, hleast, hends, hstops⟩ := hn hbody
      (hN.context.newlines (hN.context.second (by rw [harrow]; decide)) hleading)
      (by simpa using hW)
    refine ⟨.intro (hN.lambda hparameter (by simpa using hW) hleast)
      (by simpa [Expr.children] using hall), rfl, fun op hop => ?_⟩
    exact ⟨Expr.atLeast_of_operator?_eq_none rfl,
      List.forall_mem_cons.mpr ⟨hstops op hop, (hends op hop).2⟩⟩
  | plain _ _ hoperand =>
    obtain ⟨hall, hreceiver⟩ := suffixed_covered hN hn hoperand hC hW
    exact ⟨hall, Expr.operator?_eq_none hreceiver, fun op _ => hreceiver.leftOf op⟩

omit hN hn in
theorem operatorAhead_sign {sign rest : List Token} {op : BinaryOp}
    (h : sign.map (·.kind) = op.kinds) : operatorAhead (sign ++ rest) = some op := by
  match sign with
  | [] => exact absurd h.symm (BinaryOp.kinds_ne_nil op)
  | first :: sign =>
    cases op <;> simp_all [BinaryOp.kinds, operatorAhead, binaryOp?]
    all_goals
      obtain ⟨hfirst, second, rfl, hsecond⟩ := h
      simp [hsecond]

omit hN hn in
theorem context_sign (hcontext : Context C) {sign : List Token} {op : BinaryOp}
    (h : sign.map (·.kind) = op.kinds) : C (before ++ sign) := by
  have hne : sign ≠ [] := by
    rintro rfl
    exact op.kinds_ne_nil h.symm
  obtain ⟨front, token, rfl⟩ : ∃ front token, sign = front ++ [token] :=
    ⟨_, _, (List.dropLast_concat_getLast hne).symm⟩
  have hkind : token.kind ∉ Lexeme.statementOpeners := by
    have hkinds : ∀ kind ∈ op.kinds, kind ∉ Lexeme.statementOpeners := by cases op <;> decide
    exact hkinds _ (by rw [← h]; simp)
  rw [← List.append_assoc]
  exact hcontext.behind hkind

/-- Operators join operands, each of them behind all that is on its left. -/
theorem links_covered {least : Nat} {left : Expr} {links : List (BinaryOp × Expr)}
    (hall : left.All N) (hleast : left.AtLeast least) (hends : EndsBefore (taken ++ ahead) left)
    (h : Many (LinkAt (nestedTo depth) least) before taken ahead links)
    (hW : W (before ++ taken ++ ahead)) :
    (links.foldl join left).All N ∧ (links.foldl join left).AtLeast least ∧
      EndsBefore ahead (links.foldl join left) := by
  induction h generalizing left with
  | nil => exact ⟨hall, hleast, hends⟩
  | cons hlink _ ih =>
    obtain ⟨hsign, hprecedence, hleading, hright⟩ := hlink
    obtain ⟨hrightAll, hrightLeast, hrightEnds, hstops⟩ := hn hright
      (hN.context.newlines (context_sign hN.context hsign) hleading) (by simpa using hW)
    have hleft := hends _ (by
      rw [List.append_assoc, List.append_assoc, List.append_assoc]
      exact operatorAhead_sign hsign)
    refine ih (.intro (hN.binary hleft hrightLeast) ?_) ?_ ?_ (by simpa using hW)
    · rw [join, Expr.children, List.forall_mem_cons, List.forall_mem_singleton]
      exact ⟨hall, hrightAll⟩
    · rintro op ⟨⟩
      exact hprecedence
    · intro op hop
      refine ⟨?_, (hrightEnds op hop).2⟩
      rintro op' ⟨⟩
      exact Nat.lt_succ_iff.mp (hstops op hop)

theorem chain_covered {least : Nat} {value : Expr}
    (h : ChainAt (nestedTo depth) least before taken ahead value) (hC : C before)
    (hW : W (before ++ taken ++ ahead)) : Covers N (.expression least) ahead value := by
  obtain ⟨hfirst, hlinks, hend⟩ := h
  obtain ⟨hall, hoperator, hends⟩ := operand_covered hN hn hfirst hC (by simpa using hW)
  obtain ⟨hall, hleast, hends⟩ := links_covered hN hn hall
    (Expr.atLeast_of_operator?_eq_none hoperator) hends hlinks (by simpa using hW)
  refine ⟨hall, hleast, hends, fun op hop => ?_⟩
  obtain ⟨⟨op', width⟩, hop', rfl⟩ := Option.map_eq_some_iff.mp hop
  rw [operatorAhead?, hop', Option.filter_eq_none_iff] at hend
  simpa using hend _ rfl

end

/-! ### Statements -/

theorem forall_mem_allExpressions {P : Expr → Prop} {statements : List Statement} :
    (∀ value ∈ Statement.allExpressions statements, P value) ↔
      ∀ statement ∈ statements, ∀ value ∈ statement.expressions, P value := by
  induction statements with
  | nil => simp [Statement.allExpressions]
  | cons statement statements ih =>
    rw [Statement.allExpressions, List.forall_mem_append, List.forall_mem_cons, ih]

theorem forall_mem_armExpressions {P : Expr → Prop} {arms : List Arm} :
    (∀ value ∈ Arm.expressions arms, P value) ↔
      ∀ arm ∈ arms,
        (∀ value ∈ arm.patterns, P value) ∧ ∀ value ∈ arm.body.expressions, P value := by
  induction arms with
  | nil => simp [Arm.expressions]
  | cons arm arms ih =>
    obtain ⟨patterns, body, span⟩ := arm
    rw [Arm.expressions, List.forall_mem_append, List.forall_mem_append, List.forall_mem_cons, ih]

section

variable {W C : List Token → Prop} {N : Expr → Prop} {nested : Nested}
  (hn : Covered W C N nested) (hall : ∀ before, C before) {before taken ahead : List Token}

include hn hall

omit hn in
theorem context_of_forall : Context C := ⟨hall _, fun _ _ => hall _, fun _ => hall _⟩

theorem arguments_covered {arguments : List Argument}
    (h : Series (ArgumentAt nested) CommaBehind before taken ahead arguments)
    (hW : W (before ++ taken ++ ahead)) : ∀ argument ∈ arguments, argument.value.All N :=
  forall_of_series (fun h hW => argument_covered hn (context_of_forall hall) h (hall _) hW) h hW

theorem parenthesized_covered {arguments : List Argument}
    (h : ParenthesizedAt nested before taken ahead arguments) (hW : W (before ++ taken ++ ahead)) :
    ∀ argument ∈ arguments, argument.value.All N := by
  obtain ⟨harguments, -⟩ := h
  exact callArguments_covered hn (context_of_forall hall) harguments hW

theorem bare_covered {arguments : List Argument} (h : BareAt nested before taken ahead arguments)
    (hW : W (before ++ taken ++ ahead)) : ∀ argument ∈ arguments, argument.value.All N := by
  obtain ⟨harguments, -⟩ := h
  exact arguments_covered hn hall harguments hW

theorem operatorArguments_covered {found : List Argument × Bool}
    (h : OperatorArgumentsAt nested before taken ahead found) (hW : W (before ++ taken ++ ahead)) :
    ∀ argument ∈ found.1, argument.value.All N := by
  cases h with
  | parenthesized harguments => exact parenthesized_covered hn hall harguments hW
  | none => simp
  | bare harguments => exact bare_covered hn hall harguments hW

theorem invocation_covered {statement : Statement}
    (h : InvocationAt nested before taken ahead statement) (hW : W (before ++ taken ++ ahead)) :
    ∀ value ∈ statement.expressions, value.All N := by
  obtain ⟨-, harguments, hblock⟩ := h
  have hfirst := operatorArguments_covered hn hall harguments (by simpa using hW)
  cases hblock with
  | none => simpa [Statement.expressions] using hfirst
  | alone _ _ _ hbody _ =>
    have hbody := hn hbody hall (by simpa using hW)
    simp only [Statement.expressions, List.forall_mem_append, List.forall_mem_map]
    exact ⟨⟨hfirst, hbody⟩, by simp⟩
  | parenthesized _ _ _ _ _ hbody htrailing =>
    have hbody := hn hbody hall (by simpa using hW)
    have htrailing := parenthesized_covered hn hall htrailing (by simpa using hW)
    simp only [Statement.expressions, List.forall_mem_append, List.forall_mem_map]
    exact ⟨⟨hfirst, hbody⟩, htrailing⟩
  | bare _ _ _ _ _ hbody htrailing =>
    have hbody := hn hbody hall (by simpa using hW)
    have htrailing := bare_covered hn hall htrailing (by simpa using hW)
    simp only [Statement.expressions, List.forall_mem_append, List.forall_mem_map]
    exact ⟨⟨hfirst, hbody⟩, htrailing⟩

theorem conditional_covered {inner : Conditional}
    (h : ConditionalAt nested before taken ahead inner) (hW : W (before ++ taken ++ ahead)) :
    ∀ value ∈ inner.expressions, value.All N := by
  cases h with
  | absent _ hcondition hconsequence _ =>
    rw [Conditional.expressions, List.forall_mem_cons, List.forall_mem_append]
    exact ⟨(hn hcondition (hall _) (by simpa using hW)).1, hn hconsequence hall (by simpa using hW),
      by simp [Alternative.expressions]⟩
  | conditional _ _ hcondition hconsequence hinner =>
    rw [Conditional.expressions, List.forall_mem_cons, List.forall_mem_append]
    exact ⟨(hn hcondition (hall _) (by simpa using hW)).1, hn hconsequence hall (by simpa using hW),
      hn hinner hall (by simpa using hW)⟩
  | block _ _ hcondition hconsequence hinner =>
    rw [Conditional.expressions, List.forall_mem_cons, List.forall_mem_append]
    exact ⟨(hn hcondition (hall _) (by simpa using hW)).1, hn hconsequence hall (by simpa using hW),
      hn hinner hall (by simpa using hW)⟩

theorem statement_covered {statement : Statement}
    (h : StatementAt nested before taken ahead statement) (hW : W (before ++ taken ++ ahead)) :
    ∀ value ∈ statement.expressions, value.All N := by
  cases h with
  | letBinding hlet =>
    obtain ⟨-, -, -, hvalue⟩ := hlet
    simpa [Statement.expressions] using (hn hvalue (hall _) (by simpa using hW)).1
  | conditional hinner =>
    rw [Statement.expressions]
    exact conditional_covered hn hall hinner hW
  | selection hselection =>
    obtain ⟨-, -, -, -, hsubject, harms⟩ := hselection
    rw [Statement.expressions, List.forall_mem_cons]
    exact ⟨(hn hsubject (hall _) (by simpa using hW)).1, hn harms hall (by simpa using hW)⟩
  | assignment hassignment =>
    simpa [Statement.expressions] using assignment_covered hn (context_of_forall hall)
      hassignment hW
  | invocation hinvocation => exact invocation_covered hn hall hinvocation hW

theorem pipeline_covered {pipeline : Pipeline}
    (h : PipelineAt nested before taken ahead pipeline) (hW : W (before ++ taken ++ ahead)) :
    ∀ value ∈ pipeline.expressions, value.All N := by
  obtain ⟨hstatements⟩ := h
  rw [Pipeline.expressions, forall_mem_allExpressions]
  exact forall_of_series (statement_covered hn hall) hstatements hW

theorem block_covered {block : Block} (h : BlockAt nested before taken ahead block)
    (hW : W (before ++ taken ++ ahead)) : ∀ value ∈ block.expressions, value.All N := by
  cases h with
  | empty => simp [Block.expressions]
  | body _ _ _ hbody =>
    rw [Block.expressions]
    exact pipeline_covered hn hall hbody (by simpa using hW)

end

section

variable {W C : List Token → Prop} {N : Expr → Prop} (hN : Local W C N) {depth : Nat}
  (hn : Covered W C N (nestedTo depth)) {before taken ahead : List Token}

include hN hn

theorem arm_covered (hall : ∀ before, C before) {arm : Arm}
    (h : ArmAt (nestedTo depth) before taken ahead arm) (hW : W (before ++ taken ++ ahead)) :
    (∀ value ∈ arm.patterns, value.All N) ∧ ∀ value ∈ arm.body.expressions, value.All N := by
  obtain ⟨-, -, -, -, hpatterns, hbody⟩ := h
  refine ⟨forall_of_series (fun h hW => ?_) hpatterns (by simpa using hW),
    hn hbody hall (by simpa using hW)⟩
  cases h with
  | name _ hpattern => exact primary_covered hN hn hpattern (hall _) hW
  | expression _ hpattern => exact (hn hpattern (hall _) hW).1

theorem goal_covered : Covered W C N (nestedTo (depth + 1)) := by
  intro α goal before taken ahead a h hstarts hW
  cases goal with
  | expression least => exact chain_covered hN hn h hstarts hW
  | listItems =>
    refine forall_of_items_in hN.context (fun h hC hW => ?_) h hstarts hW
    cases h with
    | spread hellipsis hvalue =>
      exact (hn hvalue (hN.context.behind (by rw [hellipsis]; decide)) (by simpa using hW)).1
    | item hvalue => exact (hn hvalue hC (by simpa using hW)).1
  | recordItems =>
    refine forall_of_items (fun h hW => ?_) h hW
    cases h with
    | spread hellipsis hvalue =>
      exact (hn hvalue (hN.context.behind (by rw [hellipsis]; decide)) (by simpa using hW)).1
    | field _ hcolon hleading hvalue =>
      exact (hn hvalue
        (hN.context.newlines (hN.context.second (by rw [hcolon]; decide)) hleading)
        (by simpa using hW)).1
  | arguments opener =>
    obtain ⟨-, harguments⟩ := h
    exact forall_of_items_in hN.context (argument_covered hn hN.context) harguments hstarts
      (by simpa using hW)
  | conditional => exact conditional_covered hn hstarts h hW
  | block => exact block_covered hn hstarts h hW
  | arms opener =>
    cases h with
    | none => simp [Covers, Arm.expressions]
    | some harms =>
      rw [Covers, forall_mem_armExpressions]
      exact forall_of_series (arm_covered hN hn hstarts) harms hW
  | pipeline opener => exact pipeline_covered hn hstarts h hW

end

/-- The property holds of all expressions within a nested part. -/
theorem covered_of_nestedTo {W C : List Token → Prop} {N : Expr → Prop} (hN : Local W C N)
    (depth : Nat) : Covered W C N (nestedTo depth) := by
  induction depth with
  | zero => exact fun h => h.elim
  | succ depth ih => exact goal_covered hN ih

end Grammar

namespace Program

open Grammar

/-- The property holds of all expressions of a program, or of a fragment of one. -/
theorem all_of_derivation {W C : List Token → Prop} {N : Expr → Prop} (hN : Local W C N)
    (hall : ∀ before, C before) {limit : Nat} {complete : Bool} {tokens : List Token}
    {program : Program}
    (hW : W (TokenStream.ofTokens tokens).rest)
    (h : Derivation limit complete tokens program) :
    ∀ value ∈ program.expressions, value.All N := by
  obtain ⟨htokens, -, hstatements⟩ := h
  have hn : Covered W C N (nestedTo limit) := covered_of_nestedTo hN limit
  rw [htokens] at hW
  rw [expressions, statements_ofStatements?, forall_mem_allExpressions]
  cases hstatements with
  | none => simp
  | all hstatements =>
    exact forall_of_series (statement_covered hn hall) hstatements (by simpa using hW)
  | fragment _ hstatements =>
    exact forall_of_partial (statement_covered hn hall) hstatements (by simpa using hW)

end Program

end PipelineLang
