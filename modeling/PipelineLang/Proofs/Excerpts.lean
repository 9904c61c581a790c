import PipelineLang.Proofs.Grammar.Containment
import PipelineLang.Proofs.Grammar.Everywhere
import PipelineLang.Proofs.Grammar.ProgramCompleteness

/-!
# Statements stand alone

A statement, wherever it stands in a program, is read from a part of the tokens that says
all about it: the tree does not depend on what is around that part.

## Main definitions

- `Grammar.Excerpted` — a statement is read from a part of some tokens
- `Statement.Reaches` — the place of all tokens of a statement

## Main results

- `Grammar.excerptsAll_nestedTo` — all statements in nested parts are read from parts of the tokens
- `Program.statements_alone` — a statement is all that is read from the tokens within its place

## Design notes

What comes behind a statement is looked at where the statement might go on. All that may come
there, and the end of the tokens too, stops a statement in the same way.
-/

namespace PipelineLang

open TokenStream Parse Shape

/-- The statements in a nested part. -/
def Goal.statements : {α : Type} → Goal α → α → List Statement
  | _, .conditional, inner => inner.allStatements
  | _, .block, inner => inner.allStatements
  | _, .arms _, found => Arm.allStatements found
  | _, .pipeline _, body => body.allStatements
  | _, _, _ => []

namespace Grammar

/-! ### Statements among the tokens of a source -/

theorem forall_mem_allWithin {P : Statement → Prop} {statements : List Statement} :
    (∀ inner ∈ Statement.allWithin statements, P inner) ↔
      ∀ statement ∈ statements, ∀ inner ∈ statement.allStatements, P inner := by
  induction statements with
  | nil => simp [Statement.allWithin]
  | cons statement statements ih =>
    rw [Statement.allWithin, List.forall_mem_append, List.forall_mem_cons, ih]

theorem forall_mem_armStatements {P : Statement → Prop} {arms : List Arm} :
    (∀ inner ∈ Arm.allStatements arms, P inner) ↔
      ∀ arm ∈ arms, ∀ inner ∈ arm.body.allStatements, P inner := by
  induction arms with
  | nil => simp [Arm.allStatements]
  | cons arm arms ih =>
    obtain ⟨patterns, body, span⟩ := arm
    rw [Arm.allStatements, List.forall_mem_append, List.forall_mem_cons, ih]

/-- A statement is read from a part of some tokens, behind which a statement may end. -/
def Excerpted (limit : Nat) (tokens : List Token) (statement : Statement) : Prop :=
  ∃ depth before taken ahead, depth ≤ limit ∧ tokens = before ++ taken ++ ahead ∧
    StatementAt (nestedTo depth) before taken ahead statement ∧
    firstKind ahead ∈ statementClosers

/-- The statements in nested parts are read from parts of the tokens. -/
def ExcerptsAll (limit : Nat) (nested : Nested) : Prop :=
  ∀ {α : Type} {goal : Goal α} {before taken ahead : List Token} {a : α},
    nested α goal before taken ahead a →
    ∀ inner ∈ goal.statements a, Excerpted limit (before ++ taken ++ ahead) inner

section

variable {limit depth : Nat} {before taken ahead : List Token}

/-- Where statements are separated, a statement may end. -/
theorem closes_of_separator {closer : TokenKind} {again : Bool}
    (h : Separator closer before taken ahead again) (hcloser : closer ∈ statementClosers) :
    firstKind (taken ++ ahead) ∈ statementClosers := by
  refine firstKind_separator h fun hnil => ?_
  cases h with
  | last _ hahead => rwa [hahead]
  | more _ hsome => exact absurd hnil hsome

variable (hdepth : depth ≤ limit) (hn : ExcerptsAll limit (nestedTo depth))

include hn

theorem excerpted_conditional {inner : Conditional}
    (h : ConditionalAt (nestedTo depth) before taken ahead inner) :
    ∀ statement ∈ inner.allStatements, Excerpted limit (before ++ taken ++ ahead) statement := by
  cases h with
  | absent _ _ hconsequence _ =>
    rw [Conditional.allStatements, List.forall_mem_append]
    exact ⟨by simpa [Goal.statements] using hn hconsequence, by simp [Alternative.allStatements]⟩
  | conditional _ _ _ hconsequence hinner =>
    rw [Conditional.allStatements, List.forall_mem_append]
    exact ⟨by simpa [Goal.statements] using hn hconsequence,
      by simpa [Goal.statements, Alternative.allStatements] using hn hinner⟩
  | block _ _ _ hconsequence hinner =>
    rw [Conditional.allStatements, List.forall_mem_append]
    exact ⟨by simpa [Goal.statements] using hn hconsequence,
      by simpa [Goal.statements, Alternative.allStatements] using hn hinner⟩

include hdepth

theorem excerpted_statement {found : Statement}
    (h : StatementAt (nestedTo depth) before taken ahead found)
    (hahead : firstKind ahead ∈ statementClosers) :
    ∀ statement ∈ found.allStatements, Excerpted limit (before ++ taken ++ ahead) statement := by
  have hself : Excerpted limit (before ++ taken ++ ahead) found :=
    ⟨depth, before, taken, ahead, hdepth, rfl, h, hahead⟩
  cases h with
  | letBinding hlet =>
    obtain ⟨-, -, -, -⟩ := hlet
    simpa [Statement.allStatements] using hself
  | conditional hinner =>
    rw [Statement.allStatements, List.forall_mem_cons]
    exact ⟨hself, excerpted_conditional hn hinner⟩
  | selection hselection =>
    obtain ⟨-, -, -, -, -, harms⟩ := hselection
    rw [Statement.allStatements, List.forall_mem_cons]
    exact ⟨hself, by simpa [Goal.statements] using hn harms⟩
  | assignment => simpa [Statement.allStatements] using hself
  | invocation hinvocation =>
    obtain ⟨-, -, hblock⟩ := hinvocation
    cases hblock with
    | none => simpa [Statement.allStatements] using hself
    | alone _ _ _ hbody _ | parenthesized _ _ _ _ _ hbody _ | bare _ _ _ _ _ hbody _ =>
      rw [Statement.allStatements, List.forall_mem_cons]
      exact ⟨hself, by simpa [Goal.statements] using hn hbody⟩

/-- Statements in a row are read from parts of the tokens, with the statements in them. -/
theorem excerpted_series {closer : TokenKind} (hcloser : closer ∈ statementClosers)
    {statements : List Statement}
    (h : Series (StatementAt (nestedTo depth)) (Separator closer) before taken ahead statements) :
    ∀ statement ∈ Statement.allWithin statements,
      Excerpted limit (before ++ taken ++ ahead) statement := by
  rw [forall_mem_allWithin]
  induction h with
  | last hstatement hagain =>
    rw [List.forall_mem_singleton]
    simpa using excerpted_statement hdepth hn hstatement (closes_of_separator hagain hcloser)
  | more hstatement hagain _ ih =>
    rw [List.forall_mem_cons]
    refine ⟨?_, by simpa using ih⟩
    simpa using excerpted_statement hdepth hn hstatement (closes_of_separator hagain hcloser)

theorem excerpted_pipeline {body : Pipeline}
    (h : PipelineAt (nestedTo depth) before taken ahead body) :
    ∀ statement ∈ body.allStatements, Excerpted limit (before ++ taken ++ ahead) statement := by
  obtain ⟨hstatements, -⟩ := h
  exact excerpted_series hdepth hn (by decide) hstatements

/-- If the statements in nested parts are read from parts of the tokens, so are those in what
these are nested in. -/
theorem excerptsAll_at : ExcerptsAll limit fun _ goal => goal.At (nestedTo depth) := by
  intro α goal before taken ahead a h
  cases goal with
  | expression | listItems | recordItems | arguments => simp [Goal.statements]
  | conditional => exact excerpted_conditional hn h
  | block =>
    cases h with
    | empty => simp [Goal.statements, Block.allStatements]
    | body _ _ _ hbody =>
      simpa [Goal.statements, Block.allStatements] using excerpted_pipeline hdepth hn hbody
  | arms opener =>
    cases h with
    | none => simp [Goal.statements, Arm.allStatements]
    | some harms =>
      rw [Goal.statements, forall_mem_armStatements]
      refine forall_of_series (W := (· = before ++ taken ++ ahead)) (fun harm hwhole => ?_)
        harms rfl
      obtain ⟨-, -, -, -, -, hbody⟩ := harm
      rw [← hwhole]
      simpa [Goal.statements] using hn hbody
  | pipeline opener => exact excerpted_pipeline hdepth hn h

end

/-- The statements in nested parts are read from parts of the tokens, however deep they are
nested. -/
theorem excerptsAll_nestedTo {limit depth : Nat} (h : depth ≤ limit) :
    ExcerptsAll limit (nestedTo depth) := by
  induction depth with
  | zero => exact fun h => h.elim
  | succ depth ih =>
    have hle : depth ≤ limit := by omega
    intro α goal before taken ahead a h
    exact excerptsAll_at hle (ih hle) h

/-! ### Statements alone -/

/-- A statement that is read from a part of some tokens is all that is read from that part. -/
theorem statementsToEnd_alone {limit depth : Nat} (hdepth : depth ≤ limit) {stop : Token}
    (hstop : stop.kind = .eof) {before taken ahead : List Token} {found : Statement}
    (h : StatementAt (nestedTo depth) before taken ahead found)
    (hahead : firstKind ahead ∈ statementClosers) :
    statementsToEnd (enterTo limit limit) (between [] taken stop) =
      ⟨[found], none, between taken [] stop⟩ := by
  have hfirst : firstKind taken ∈ statementOpeners := by
    have hstart := firstKind_statement h []
    rwa [List.append_nil] at hstart
  have hrun := derived_statement hstop [] (readsDerived_enterTo limit hdepth) h
    (.ends hahead (by decide) : Alike ahead []) (by decide)
  have hlast : (anotherStatement .eof).Takes stop ([] ++ taken) [] [] false :=
    anotherStatement_takes_last hstop _ (by simp) (by decide) rfl
  have hseries : Series ((statement (enterTo limit limit)).TakesSome stop)
      ((anotherStatement .eof).Takes stop) [] (taken ++ []) [] [found] := .last hrun hlast
  rw [List.append_nil] at hseries
  refine statementsToEnd_series hstop (fun hk => ?_) hseries
  rw [hk] at hfirst
  exact absurd hfirst (by decide)

end Grammar

/-! ### Tokens within a place -/

theorem significant_filter (p : Token → Bool) (tokens : List Token) :
    significant (tokens.filter p) = (significant tokens).filter p := by
  simp only [significant, List.filter_filter, Bool.and_comm]

/-- The tokens of a stream are those that are kept of them, if an end comes behind them. -/
theorem rest_ofTokens_filter {others taken : List Token} {stop : Token} {p : Token → Bool}
    (hstop : stop.kind = .eof) (hfilter : (significant others).filter p = taken)
    (htaken : ∀ token ∈ taken, token.kind ≠ .eof) :
    (TokenStream.ofTokens ((others ++ [stop]).filter p)).rest = taken := by
  have hend : ([stop].filter p).takeWhile (·.kind != .eof) = [] := by
    rw [List.filter_singleton]
    cases p stop <;> simp [hstop]
  rw [TokenStream.ofTokens, significant_filter, significant_concat _ hstop, List.filter_append,
    hfilter]
  dsimp only
  rw [List.takeWhile_append_of_pos fun token htoken => by simpa using htaken token htoken, hend,
    List.append_nil]

/-- Of tokens in order, those within the place from a first to a last one are those between. -/
theorem AreOrdered.filter_within {source : List Char} {before taken ahead : List Token}
    {first last : Token} (h : AreOrdered source (before ++ taken ++ ahead))
    (hkind : ∀ token ∈ before ++ taken ++ ahead, token.kind ≠ .eof)
    (hfirst : taken.head? = some first) (hlast : taken.getLast? = some last) :
    (before ++ taken ++ ahead).filter
      (fun token => (first.span.through last.span).contains token.span) = taken := by
  have hmem : first ∈ taken ∧ last ∈ taken :=
    ⟨List.mem_of_head? hfirst, List.mem_of_getLast? hlast⟩
  have hcontains : ∀ token : Token, (first.span.through last.span).contains token.span = true ↔
      first.span.start ≤ token.span.start ∧ token.span.stop ≤ last.span.stop := by
    intro token
    rw [Span.contains, Bool.and_eq_true, decide_eq_true_eq, decide_eq_true_eq]
    rfl
  have hnonempty : ∀ token ∈ before ++ taken ++ ahead, token.span.start < token.span.stop :=
    fun token htoken => h.nonempty token htoken (hkind token htoken)
  have hordered := List.pairwise_append.mp h.ordered
  have hbefore : before.filter
      (fun token => (first.span.through last.span).contains token.span) = [] := by
    refine List.filter_eq_nil_iff.mpr fun token htoken => ?_
    have hlt := hnonempty token (by simp [htoken])
    have hle := (List.pairwise_append.mp hordered.1).2.2 token htoken first hmem.1
    rw [hcontains]
    omega
  have hahead : ahead.filter
      (fun token => (first.span.through last.span).contains token.span) = [] := by
    refine List.filter_eq_nil_iff.mpr fun token htoken => ?_
    have hlt := hnonempty token (by simp [htoken])
    have hle := hordered.2.2 last (List.mem_append_right _ hmem.2) token htoken
    rw [hcontains]
    omega
  have htaken : AreOrdered source taken :=
    h.sublist ((List.sublist_append_right _ _).trans (List.sublist_append_left _ _))
  rw [List.filter_append, List.filter_append, hbefore, hahead, List.filter_eq_self.mpr,
    List.nil_append, List.append_nil]
  exact fun token htoken => (hcontains token).mpr
    ⟨htaken.start_le hfirst htoken, htaken.le_stop hlast htoken⟩

/-! ### Programs -/

/-- The place of all tokens of a statement. The name of a metadata expression at the end of a
statement is out of the place of the statement. -/
inductive Statement.Reaches (tokens : List Token) (statement : Statement) : Span → Prop
  | here : Reaches tokens statement statement.span
  | behind {sign name} (hnext : [sign, name] <:+: significant tokens) (hsign : sign.kind = .atSign)
    (hstop : statement.span.stop = sign.span.stop) :
    Reaches tokens statement (statement.span.through name.span)

/-- A statement that starts with the first of some tokens reaches the last one. -/
theorem Statement.reaches_of_runsOver {statement : Statement}
    {tokens before taken ahead : List Token}
    {first last : Token} (hsplit : significant tokens = before ++ taken ++ ahead)
    (hruns : statement.span.RunsOver taken) (hfirst : taken.head? = some first)
    (hlast : taken.getLast? = some last) :
    statement.Reaches tokens (first.span.through last.span) := by
  obtain ⟨first', last', hfirst', hends, hspan⟩ := hruns
  obtain rfl := Option.some.inj (hfirst.symm.trans hfirst')
  obtain hlast' | ⟨front, name, rfl, hsign⟩ := hends
  · obtain rfl := Option.some.inj (hlast.symm.trans hlast')
    rw [← hspan]
    exact .here
  · obtain rfl : name = last := by simpa using hlast
    have hnext : [last', name] <:+: significant tokens :=
      ⟨before ++ front, ahead, by rw [hsplit]; simp⟩
    have hreaches : statement.Reaches tokens (statement.span.through name.span) :=
      .behind hnext hsign (by rw [hspan]; rfl)
    rwa [hspan, Span.through_through] at hreaches

namespace Program

open Grammar

variable {limit : Nat}

/-- The statements of a program are read from parts of its tokens. -/
theorem excerpted_of_ok {tokens : List Token} {program : Program}
    (h : ofTokens limit tokens = .ok program) :
    ∀ statement ∈ program.allStatements,
      Excerpted limit (TokenStream.ofTokens tokens).rest statement := by
  have hderivation := (ofTokens_takes limit tokens).1 program h
  obtain @⟨head, taken, ahead, frontmatter, statements, htokens, hhead, hstatements⟩ := hderivation
  rw [allStatements, statements_ofStatements?, htokens, ← List.append_assoc]
  cases hstatements with
  | fragment hpartial _ => cases hpartial
  | none => simp [Statement.allWithin]
  | all hstatements =>
    exact excerpted_series (le_refl limit) (excerptsAll_nestedTo (le_refl limit)) (by decide)
      hstatements

/-- Tokens that a statement is read from are that statement alone. -/
theorem finds_alone {depth : Nat} {tokens before taken ahead : List Token} {statement : Statement}
    (hrest : (TokenStream.ofTokens tokens).rest = taken) (hdepth : depth ≤ limit)
    (h : StatementAt (nestedTo depth) before taken ahead statement)
    (hahead : firstKind ahead ∈ statementClosers) : Finds limit tokens [statement] none := by
  have hstop := kind_stop_ofTokens tokens
  have hstream : TokenStream.ofTokens tokens =
      between [] ([] ++ taken) (TokenStream.ofTokens tokens).stop := by
    rw [List.nil_append, ← hrest]
    exact ofTokens_eq_between tokens
  have hother : firstKind taken ∉ [TokenKind.newline, .frontmatterOpen] := by
    have hnone : ∀ kind ∈ statementOpeners, kind ∉ [TokenKind.newline, .frontmatterOpen] := by
      decide
    have hstart := firstKind_statement h []
    rw [List.append_nil] at hstart
    exact hnone _ hstart
  have hfinds : Finds limit tokens _ _ :=
    finds_statementsToEnd hstop hstream (by simp [Newlines]) hother
  rwa [statementsToEnd_alone hdepth hstop h hahead] at hfinds

/-- Each statement of a program, at any depth, is all that is read from the tokens within its
place, if a metadata expression at its end is taken with its name. -/
theorem statements_alone {source : String} {program : Program}
    (h : ofSource limit source = .ok program) :
    ∃ tokens, tokenize source = .ok tokens ∧ ∀ statement ∈ program.allStatements,
      ∃ place, statement.Reaches tokens place ∧
        ∃ alone, ofTokens limit (tokens.filter fun token => place.contains token.span) = .ok alone ∧
          alone.frontmatter = none ∧ alone.statements = [statement] := by
  obtain ⟨tokens, htokens, hok⟩ := exists_tokens_of_ok h
  refine ⟨tokens, htokens, fun statement hstatement => ?_⟩
  obtain ⟨depth, before, taken, ahead, hdepth, hsplit, hderived, hahead⟩ :=
    excerpted_of_ok hok statement hstatement
  have hreads := Scanner.reads_of_tokenize htokens
  have hordered := (hreads.areOrdered (Cursor.standsIn_ofSource source.toList)).1
  obtain ⟨others, stop, rfl, hstop, hothers⟩ := hreads.eof
  rw [ofTokens_concat hstop hothers] at hsplit
  replace hsplit : significant others = before ++ taken ++ ahead := hsplit
  have hne : taken ≠ [] := hderived.ne_nil
  have hfirst := List.head?_eq_some_head hne
  have hlast := List.getLast?_eq_some_getLast hne
  have hruns : statement.span.RunsOver taken := by
    rw [← span_statement_places]
    exact (laid_statement (laysAll_nestedTo depth) hderived).runsOver
  have hkind : ∀ token ∈ before ++ taken ++ ahead, token.kind ≠ .eof := by
    rw [← hsplit]
    exact fun token htoken => hothers token (List.mem_of_mem_filter htoken)
  have hwithin : (significant others).filter (fun token =>
      ((taken.head hne).span.through (taken.getLast hne).span).contains token.span) = taken := by
    rw [hsplit]
    refine AreOrdered.filter_within (hordered.sublist ?_) hkind hfirst hlast
    rw [← hsplit]
    exact (List.filter_sublist).trans (List.sublist_append_left _ _)
  have hconcat : significant (others ++ [stop]) = before ++ taken ++ (ahead ++ [stop]) := by
    rw [significant_concat _ hstop, hsplit, List.append_assoc]
  refine ⟨_, Statement.reaches_of_runsOver hconcat hruns hfirst hlast, ?_⟩
  have hrest :=
    rest_ofTokens_filter hstop hwithin fun token htoken => hkind token (by simp [htoken])
  exact (finds_alone hrest hdepth hderived hahead).exists_program

end Program

end PipelineLang
