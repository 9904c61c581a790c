import PipelineLang.Proofs.Grammar.DerivedExpressions

/-!
# What statements start with

What tells a record from a block are the first tokens behind the brace, and what tells
arguments in parentheses from a first argument in parentheses is the token behind them.

## Main definitions

- `Grammar.RecordAhead` — what stands behind the opening brace of a record
- `Grammar.FollowsName` — what may come behind the name of an operator

## Main results

- `Grammar.callArguments_of_argument` — parentheses around an argument may hold all of them
- `Grammar.recordAhead_of_bareArguments`, `Grammar.not_recordAhead_of_operatorBlock` — what
  starts with a brace is not both a record and a block
-/

namespace PipelineLang

open TokenStream Parse Shape

namespace Grammar

/-! ### Records and blocks -/

/-- The tokens that statements start with. -/
def statementOpeners : List TokenKind := [.kwLet, .kwIf, .kwMatch, .identifier, .kwThis, .atSign]

/-- No statement starts with a token that stands behind statements. -/
theorem not_closer_of_opener {kind : TokenKind} (h : kind ∈ statementOpeners) :
    kind ∉ statementClosers := by
  have hnone : ∀ kind ∈ statementOpeners, kind ∉ statementClosers := by decide
  exact hnone kind h

/-- What stands behind the opening brace of a record: it is closed, or an item comes. -/
def RecordAhead (ahead : List Token) : Prop :=
  let rest := ahead.dropWhile fun token => token.kind == .newline
  firstKind rest ∈ [TokenKind.rBrace, .ellipsis, .string] ∨
    firstKind rest = .identifier ∧ secondKind rest = .colon

theorem dropWhile_newlines {newlines : List Token} (h : Newlines newlines) {ahead : List Token}
    (hahead : firstKind ahead ≠ .newline) :
    (newlines ++ ahead).dropWhile (fun token => token.kind == .newline) = ahead := by
  rw [List.dropWhile_append_of_pos fun token htoken => beq_iff_eq.mpr (h token htoken)]
  cases ahead with
  | nil => rfl
  | cons token rest => simp [show token.kind ≠ .newline from hahead]

section

variable {nested : Nested} {before taken ahead : List Token}

theorem start_of_many_suffixes {suffixes : List Suffix}
    (h : Many (SuffixAt nested) before taken ahead suffixes) :
    taken = [] ∧ suffixes = [] ∨ taken ≠ [] ∧ firstKind taken ∈ suffixOpeners := by
  cases h with
  | nil => exact .inl ⟨rfl, rfl⟩
  | cons hsuffix _ =>
    refine .inr ⟨by simp [hsuffix.ne_nil], ?_⟩
    rw [firstKind_append_of_ne_nil hsuffix.ne_nil]
    cases hsuffix with
    | member hdot _ _ | memberBehind hdot _ _ | memberAhead hdot _ | call hdot _ =>
      simp [hdot, suffixOpeners]
    | index hopener _ _ _ _ | optionalIndex hopener _ _ _ _ _ => simp [hopener, suffixOpeners]

theorem start_of_many_links {least : Nat} {links : List (BinaryOp × Expr)}
    (h : Many (LinkAt nested least) before taken ahead links) :
    taken = [] ∧ links = [] ∨ taken ≠ [] ∧ firstKind taken ∉ invocationClosers := by
  cases h with
  | nil => exact .inl ⟨rfl, rfl⟩
  | cons hlink _ =>
    obtain @⟨_, sign, leading, tokens, _, op, right, hsign, -, -, -⟩ := hlink
    obtain ⟨kind, kinds, hkinds, hkind⟩ : ∃ kind kinds, op.kinds = kind :: kinds ∧
        kind ∉ invocationClosers := by
      cases op <;> exact ⟨_, _, rfl, by decide⟩
    rw [hkinds] at hsign
    obtain ⟨token, rest, rfl, rfl, -⟩ := List.map_eq_cons_iff.mp hsign
    exact .inr ⟨by simp, hkind⟩

/-- An expression that starts with a bracket starts with what stands in it, and what comes
behind goes on with the expression. -/
theorem primary_of_expression {depth least : Nat} {value : Expr}
    (h : nestedTo depth _ (.expression least) before taken ahead value)
    (hfirst : firstKind taken ∈ [TokenKind.lParen, .lBrace]) :
    ∃ depth' tokens others receiver, depth = depth' + 1 ∧ taken = tokens ++ others ∧
      PrimaryAt (nestedTo depth') before tokens (others ++ ahead) receiver ∧
      (others = [] ∧ value = receiver ∨ others ≠ [] ∧ firstKind others ∉ invocationClosers) := by
  cases depth with
  | zero => exact h.elim
  | succ depth =>
    obtain ⟨hoperand, hlinks, -⟩ := h
    rename_i tokens others first links
    have hstart : firstKind (tokens ++ others) ∈ [TokenKind.lParen, .lBrace] := hfirst
    cases hoperand with
    | unary hopener _ =>
      rw [List.cons_append, firstKind_cons] at hstart
      simp only [List.mem_cons, List.not_mem_nil, or_false] at hstart
      obtain hk | hk := hstart <;> simp [hk, unaryOp?] at hopener
    | lambda hparameter _ _ _ => simp [hparameter] at hstart
    | plain _ _ hoperand =>
      obtain @⟨_, front, back, _, receiver, suffixes, hreceiver, hsuffixes, -⟩ := hoperand
      refine ⟨depth, front, back ++ others, receiver, rfl, by simp, by simpa using hreceiver, ?_⟩
      obtain ⟨rfl, rfl⟩ | ⟨hne, hkind⟩ := start_of_many_suffixes hsuffixes
      · obtain ⟨rfl, rfl⟩ | ⟨hne, hkind⟩ := start_of_many_links hlinks
        · exact .inl ⟨rfl, rfl⟩
        · exact .inr ⟨hne, hkind⟩
      · refine .inr ⟨by simp [hne], ?_⟩
        rw [firstKind_append_of_ne_nil hne]
        simp only [suffixOpeners, List.mem_cons, List.not_mem_nil, or_false] at hkind
        obtain hk | hk | hk := hkind <;> rw [hk] <;> decide

/-- What stands in the parentheses that an expression starts with can be read as arguments. -/
theorem callArguments_of_expression {depth least : Nat} {value : Expr}
    (h : nestedTo depth _ (.expression least) before taken ahead value)
    (hparen : firstKind taken = .lParen) :
    ∃ parens others inner, taken = parens ++ others ∧
      CallArgumentsAt (nestedTo depth) before parens (others ++ ahead) [.positional inner] ∧
      (others = [] ∧ (∃ span, value = .paren inner span) ∨
        others ≠ [] ∧ firstKind others ∉ invocationClosers) := by
  obtain ⟨depth, tokens, others, receiver, rfl, rfl, hprimary, hothers⟩ :=
    primary_of_expression h (by simp [hparen])
  have hfirst : firstKind (tokens ++ others) = .lParen := hparen
  cases hprimary with
  | literal hvalue =>
    rw [List.cons_append, firstKind_cons] at hfirst
    simp [hfirst, Literal.ofText?] at hvalue
  | format htoken _ _ | name htoken _ | dollar htoken | this htoken =>
    simp [htoken] at hfirst
  | metadata hopener _ | list hopener _ _ | record hopener _ _ => simp [hopener] at hfirst
  | call hcall => simp [(callAhead_of_call hcall others).1] at hfirst
  | @paren _ opener closer leading tokens trailing _ inner hopener hcloser hleading
      htrailing hinner =>
    refine ⟨opener :: (leading ++ tokens ++ trailing ++ [closer]), others, inner, rfl, ?_, ?_⟩
    · have hitem : Series (ArgumentAt (nestedTo depth)) Comma (before ++ [opener] ++ leading)
          (tokens ++ trailing) (closer :: (others ++ ahead)) [.positional inner] :=
        .last (.positional hinner) (.absent htrailing)
      have hitems := ItemsAt.some hleading hitem
      rw [← List.append_assoc] at hitems
      exact .intro hopener (.intro hcloser hitems)
    · obtain ⟨hnil, rfl⟩ | hmore := hothers
      · exact .inl ⟨hnil, _, rfl⟩
      · exact .inr hmore

/-- What stands behind the brace that an expression starts with is what a record has there. -/
theorem recordAhead_of_expression {depth least : Nat} {value : Expr} {brace : Token}
    {rest ahead' : List Token} (h : nestedTo depth _ (.expression least) before taken ahead value)
    (htaken : taken ++ ahead' = brace :: rest) (hbrace : brace.kind = .lBrace) :
    RecordAhead rest := by
  have hstart := startsArgument_expression h
  have hfirst : firstKind (taken ++ ahead') = .lBrace := by
    rw [htaken]
    exact hbrace
  rw [firstKind_append (ne_eof_of_startsArgument hstart)] at hfirst
  obtain ⟨depth, tokens, others, receiver, rfl, rfl, hprimary, -⟩ :=
    primary_of_expression h (by simp [hfirst])
  cases hprimary with
  | literal hvalue =>
    rw [List.cons_append, firstKind_cons] at hfirst
    simp [hfirst, Literal.ofText?] at hvalue
  | format htoken _ _ | name htoken _ | dollar htoken | this htoken =>
    simp [htoken] at hfirst
  | metadata hopener _ | list hopener _ _ | paren hopener _ _ _ _ => simp [hopener] at hfirst
  | call hcall => simp [(callAhead_of_call hcall others).1] at hfirst
  | @record _ opener closer tokens _ items hopener hcloser hitems =>
    simp only [List.cons_append, List.cons.injEq, List.append_assoc, List.nil_append] at htaken
    obtain ⟨rfl, rfl⟩ := htaken
    cases depth with
    | zero => exact hitems.elim
    | succ depth =>
      cases hitems with
      | none hnewlines =>
        rw [RecordAhead, dropWhile_newlines hnewlines (by simp [hcloser])]
        exact .inl (by simp [hcloser])
      | some hnewlines hitems =>
        have hstart := hitems.start (fun ahead => firstKind ahead ∈ [TokenKind.ellipsis, .string] ∨
          firstKind ahead = .identifier ∧ secondKind ahead = .colon) (by
            intro before taken ahead item hitem ahead'
            cases hitem with
            | spread hellipsis _ => exact .inl (by simp [hellipsis])
            | field hkey hcolon _ _ =>
              cases hkey with
              | identifier hname => exact .inr ⟨hname, hcolon⟩
              | string htoken _ => exact .inl (by simp [htoken]))
        rw [RecordAhead, List.append_assoc, dropWhile_newlines hnewlines]
        · obtain hstart | hstart := hstart (closer :: (others ++ ahead'))
          · exact .inl (List.mem_cons_of_mem _ hstart)
          · exact .inr hstart
        · obtain hstart | hstart := hstart (closer :: (others ++ ahead'))
          · rintro hk
            rw [hk] at hstart
            exact absurd hstart (by decide)
          · rw [hstart.1]
            decide

end

/-! ### The first tokens of statements -/

section

variable {nested : Nested} {before taken ahead : List Token}

theorem firstKind_target {target : Selector} (h : SelectorOf taken target) (ahead : List Token) :
    firstKind (taken ++ ahead) ∈ [TokenKind.identifier, .kwThis, .atSign] := by
  cases h with
  | metadata hsign _ => simp [hsign]
  | root hthis | rooted hthis _ _ => simp [hthis]
  | path hsteps =>
    rw [firstKind_steps hsteps]
    decide

theorem firstKind_statement {statement : Statement}
    (h : StatementAt nested before taken ahead statement) (ahead' : List Token) :
    firstKind (taken ++ ahead') ∈ statementOpeners := by
  cases h with
  | letBinding hlet =>
    obtain ⟨hkeyword, -, -, -⟩ := hlet
    simp [hkeyword, statementOpeners]
  | conditional hinner =>
    cases hinner with
    | absent hkeyword _ _ _ | conditional hkeyword _ _ _ _ | block hkeyword _ _ _ _ =>
      simp [hkeyword, statementOpeners]
  | selection hselection =>
    obtain ⟨hkeyword, -, -, -, -, -⟩ := hselection
    simp [hkeyword, statementOpeners]
  | assignment hassignment =>
    obtain ⟨htarget, -, -⟩ := hassignment
    rw [List.append_assoc]
    exact List.mem_append_right [.kwLet, .kwIf, .kwMatch]
      (List.mem_append_left _ (firstKind_target htarget _))
  | invocation hinvocation =>
    obtain ⟨⟨hpath, -⟩, -, -⟩ := hinvocation
    rw [List.append_assoc, List.append_assoc, hpath.firstKind]
    decide

theorem firstKind_block {depth : Nat} {block : Block}
    (h : nestedTo depth _ .block before taken ahead block) (ahead' : List Token) :
    firstKind (taken ++ ahead') = .lBrace := by
  cases depth with
  | zero => exact h.elim
  | succ depth =>
    cases h with
    | empty hopener _ _ | body hopener _ _ _ => exact hopener

theorem firstKind_conditional {depth : Nat} {inner : Conditional}
    (h : nestedTo depth _ .conditional before taken ahead inner) (ahead' : List Token) :
    firstKind (taken ++ ahead') = .kwIf := by
  cases depth with
  | zero => exact h.elim
  | succ depth =>
    cases h with
    | absent hkeyword _ _ _ | conditional hkeyword _ _ _ _ | block hkeyword _ _ _ _ =>
      exact hkeyword

theorem firstKind_pipeline {depth : Nat} {opener : Token} {body : Pipeline}
    (h : nestedTo depth _ (.pipeline opener) before taken ahead body) (ahead' : List Token) :
    firstKind (taken ++ ahead') ∈ statementOpeners := by
  cases depth with
  | zero => exact h.elim
  | succ depth =>
    obtain ⟨hstatements, -⟩ := h
    exact hstatements.start (fun ahead => firstKind ahead ∈ statementOpeners) firstKind_statement _

section

variable {depth : Nat} {ahead' : List Token}

theorem startsArgument_pattern {pattern : Expr}
    (h : PatternAt (nestedTo depth) before taken ahead pattern) (ahead' : List Token) :
    startsArgument (firstKind (taken ++ ahead')) := by
  cases h with
  | name _ hpattern =>
    have hstart := hpattern.startsArgument
    rwa [firstKind_append (ne_eof_of_startsArgument hstart)]
  | expression _ hpattern =>
    have hstart := startsArgument_expression hpattern
    rwa [firstKind_append (ne_eof_of_startsArgument hstart)]

theorem startsArgument_arm {arm : Arm} (h : ArmAt (nestedTo depth) before taken ahead arm)
    (ahead' : List Token) : startsArgument (firstKind (taken ++ ahead')) := by
  obtain ⟨-, -, -, -, hpatterns, -⟩ := h
  rw [List.append_assoc]
  exact hpatterns.start (fun ahead => startsArgument (firstKind ahead)) startsArgument_pattern _

/-- The tokens that may stand behind the name of an operator. -/
def FollowsName (kind : TokenKind) : Prop := startsArgument kind ∨ kind ∈ statementClosers

theorem FollowsName.ne {kind other : TokenKind} (h : FollowsName kind)
    (hother : startsArgument other = false ∧ other ∉ statementClosers) : kind ≠ other := by
  rintro rfl
  obtain h | h := h
  · rw [hother.1] at h
    exact absurd h (by decide)
  · exact hother.2 h

theorem startsArgument_bare {arguments : List Argument}
    (h : BareAt (nestedTo depth) before taken ahead arguments) (ahead' : List Token) :
    startsArgument (firstKind (taken ++ ahead')) := by
  obtain ⟨harguments, -⟩ := h
  exact harguments.start (fun ahead => startsArgument (firstKind ahead))
    (startsArgument_argument fun h => ⟨unassigning_expression h, startsArgument_expression h⟩) _

theorem startsArgument_operatorArguments {found : List Argument × Bool}
    (h : OperatorArgumentsAt (nestedTo depth) before taken ahead found) :
    taken = [] ∨ ∀ ahead', startsArgument (firstKind (taken ++ ahead')) := by
  cases h with
  | parenthesized harguments =>
    obtain ⟨⟨hopener, -⟩, -⟩ := harguments
    exact .inr fun _ => by simp [hopener, startsArgument]
  | none _ => exact .inl rfl
  | bare harguments => exact .inr (startsArgument_bare harguments)

theorem firstKind_operatorBlock {found : Option Pipeline × List Argument}
    (h : OperatorBlockAt nested before taken ahead found) :
    taken = [] ∨ ∀ ahead', firstKind (taken ++ ahead') = .lBrace := by
  cases h with
  | none _ => exact .inl rfl
  | alone hopener _ _ _ _ | parenthesized hopener _ _ _ _ _ _ | bare hopener _ _ _ _ _ _ =>
    exact .inr fun _ => hopener

/-- What comes behind the name of an operator. -/
theorem followsName {tokens others : List Token} {before' : List Token}
    {arguments : List Argument × Bool} {block : Option Pipeline × List Argument}
    (harguments : OperatorArgumentsAt (nestedTo depth) before tokens (others ++ ahead) arguments)
    (hblock : OperatorBlockAt (nestedTo depth) before' others ahead block) {ahead' : List Token}
    (hahead : firstKind ahead' ∈ statementClosers) :
    FollowsName (firstKind (tokens ++ (others ++ ahead'))) := by
  obtain rfl | hstart := startsArgument_operatorArguments harguments
  · obtain rfl | hbrace := firstKind_operatorBlock hblock
    · exact .inr hahead
    · rw [List.nil_append, hbrace]
      exact .inl rfl
  · exact .inl (hstart _)

/-- A colon never comes behind the first name of a statement. -/
theorem secondKind_statement {statement : Statement}
    (h : StatementAt (nestedTo depth) before taken ahead statement) {ahead' : List Token}
    (hahead : firstKind ahead' ∈ statementClosers)
    (hname : firstKind (taken ++ ahead') = .identifier) :
    secondKind (taken ++ ahead') ≠ .colon := by
  cases h with
  | letBinding hlet =>
    obtain ⟨hkeyword, -, -, -⟩ := hlet
    simp [hkeyword] at hname
  | conditional hinner =>
    cases hinner with
    | absent hkeyword _ _ _ | conditional hkeyword _ _ _ _ | block hkeyword _ _ _ _ =>
      simp [hkeyword] at hname
  | selection hselection =>
    obtain ⟨hkeyword, -, -, -, -, -⟩ := hselection
    simp [hkeyword] at hname
  | assignment hassignment =>
    obtain ⟨htarget, hsign, -⟩ := hassignment
    cases htarget with
    | metadata hopener _ | root hopener | rooted hopener _ _ => simp [hopener] at hname
    | @path first steps _ hsteps =>
      cases steps with
      | nil => simp [hsign]
      | cons second steps =>
        have hkind := hsteps.kinds second (by simp)
        intro hcolon
        change second.kind = _ at hcolon
        rw [hcolon] at hkind
        exact absurd hkind (by decide)
  | invocation hinvocation =>
    obtain @⟨_, name, tokens, others, _, operator, arguments, _, _, _, ⟨hpath, -⟩, harguments,
      hblock⟩ := hinvocation
    have hfollows := followsName harguments hblock hahead
    rw [List.append_assoc, List.append_assoc]
    generalize operator.segments = names at hpath
    cases hpath with
    | one => exact hfollows.ne (by decide)
    | more _ hseparator _ => simp [hseparator]

/-- What stands in the parentheses that an argument starts with can be read as arguments. -/
theorem callArguments_of_argument {argument : Argument}
    (h : ArgumentAt (nestedTo depth) before taken ahead argument)
    (hparen : firstKind (taken ++ ahead') = .lParen) :
    ∃ parens others inner, taken = parens ++ others ∧
      CallArgumentsAt (nestedTo depth) before parens (others ++ ahead) [.positional inner] ∧
      (others = [] ∧ (∃ span, argument = .positional (.paren inner span)) ∨
        others ≠ [] ∧ firstKind others ∉ invocationClosers) := by
  cases h with
  | named hassignment =>
    obtain ⟨htarget, -, -⟩ := hassignment
    rw [List.append_assoc] at hparen
    exact absurd (hparen ▸ firstKind_target htarget _) (by decide)
  | positional hvalue =>
    rw [firstKind_append (ne_eof_of_startsArgument (startsArgument_expression hvalue))] at hparen
    obtain ⟨parens, others, inner, hsplit, hcall, hend⟩ :=
      callArguments_of_expression hvalue hparen
    refine ⟨parens, others, inner, hsplit, hcall, ?_⟩
    obtain ⟨hnil, span, rfl⟩ | hmore := hend
    · exact .inl ⟨hnil, span, rfl⟩
    · exact .inr hmore

theorem firstKind_gap (htaken : ∀ token ∈ taken, token.kind ∈ [TokenKind.newline, .pipe])
    (hahead : taken = [] → firstKind ahead' ∈ statementClosers) :
    firstKind (taken ++ ahead') ∈ statementClosers := by
  cases taken with
  | nil => exact hahead rfl
  | cons token rest =>
    have hkind := htaken token (by simp)
    simp only [List.mem_cons, List.not_mem_nil, or_false] at hkind
    obtain hk | hk := hkind <;> simp [hk, statementClosers]

/-- Between statements stands a token that may stand behind a statement, or nothing. -/
theorem firstKind_separator {closer : TokenKind} {found : Bool}
    (h : Separator closer before taken ahead found)
    (hahead : taken = [] → firstKind ahead' ∈ statementClosers) :
    firstKind (taken ++ ahead') ∈ statementClosers := by
  cases h with
  | last htaken _ | more htaken _ => exact firstKind_gap htaken hahead

/-- The statements of a block are not what a record has behind its brace. -/
theorem not_recordAhead_of_pipeline {opener : Token} {body : Pipeline} {leading : List Token}
    (hleading : Newlines leading)
    (h : nestedTo depth _ (.pipeline opener) before taken ahead body)
    (hahead : firstKind ahead' ∈ statementClosers) :
    ¬ RecordAhead (leading ++ (taken ++ ahead')) := by
  have hfirst := firstKind_pipeline h ahead'
  have hnewline : firstKind (taken ++ ahead') ≠ .newline := by
    intro hk
    rw [hk] at hfirst
    exact absurd hfirst (by decide)
  rw [RecordAhead, dropWhile_newlines hleading hnewline]
  rintro (hstart | ⟨hname, hcolon⟩)
  · simp only [List.mem_cons, List.not_mem_nil, or_false] at hstart
    obtain hk | hk | hk := hstart <;> (rw [hk] at hfirst; exact absurd hfirst (by decide))
  · cases depth with
    | zero => exact h.elim
    | succ depth =>
      obtain ⟨hstatements, -⟩ := h
      cases hstatements with
      | last hitem hgap =>
        rw [List.append_assoc] at hname hcolon
        exact secondKind_statement hitem (firstKind_separator hgap fun _ => hahead) hname hcolon
      | more hitem hgap hothers =>
        rw [List.append_assoc, List.append_assoc] at hname hcolon
        refine secondKind_statement hitem (firstKind_separator hgap fun hnil => ?_) hname hcolon
        cases hgap with
        | more _ hsome => exact absurd hnil hsome

theorem not_recordAhead_of_operatorBlock {found : Option Pipeline × List Argument} {brace : Token}
    {rest : List Token} (h : OperatorBlockAt (nestedTo depth) before taken ahead found)
    (hne : taken ≠ []) (htaken : taken ++ ahead' = brace :: rest) : ¬ RecordAhead rest := by
  cases h with
  | none => exact absurd rfl hne
  | alone hopener hcloser hleading hbody _
  | parenthesized hopener hcloser _ hleading _ hbody _
  | bare hopener hcloser _ hleading _ hbody _ =>
    rw [List.cons_append] at htaken
    obtain rfl := (List.cons.inj htaken).2
    rw [List.append_assoc, List.append_assoc]
    exact not_recordAhead_of_pipeline hleading hbody (by simp [hcloser, statementClosers])

/-- Arguments without parentheses that start with a brace start with a record. -/
theorem recordAhead_of_bareArguments {limit : Nat} {stop brace : Token} {rest : List Token}
    {arguments : List Argument} {behind : TokenStream} (hstop : stop.kind = .eof)
    (hbrace : brace.kind = .lBrace)
    (h : (bareArguments (enterTo limit depth)).run (between before (brace :: rest) stop) =
      .ok arguments behind) : RecordAhead rest := by
  have hrefused : firstKind (brace :: rest) = .lParen →
      (parenthesized? (enterTo limit depth)).run (between before (brace :: rest) stop) =
        .ok none (between before (brace :: rest) stop) :=
    fun hparen => absurd (hbrace.symm.trans hparen) (by decide)
  obtain ⟨taken, others, hsplit, -, ⟨harguments, -⟩⟩ :=
    bareArguments_sound (enterTo_sound limit depth) hstop hrefused h
  refine harguments.start (fun tokens => tokens = brace :: rest → RecordAhead rest) ?_ others
    hsplit.symm
  intro before taken ahead argument hargument ahead' htaken
  cases hargument with
  | named hassignment =>
    obtain ⟨htarget, -, -⟩ := hassignment
    have hfirst := congrArg firstKind htaken
    rw [firstKind_cons, hbrace, List.append_assoc] at hfirst
    exact absurd (hfirst ▸ firstKind_target htarget _) (by decide)
  | positional hvalue => exact recordAhead_of_expression hvalue htaken hbrace

end

end

end Grammar

end PipelineLang
