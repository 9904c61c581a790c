import PipelineLang.Proofs.Grammar.ProgramSoundness
import PipelineLang.Proofs.Grammar.Reading
import PipelineLang.Proofs.Syntax.Places
import PipelineLang.Proofs.Token.Spelling

/-!
# Trees lie over their tokens

The place of a node runs from the first to the last of the tokens that the node has been
read from, and the nodes in it lie over some of these tokens, one behind another.

## Main definitions

- `EndsAt` — the token at which the place of a node ends
- `Span.RunsOver` — a place runs from the first to the last of some tokens
- `Places.Laid` — a tree lies over tokens

## Main results

- `Grammar.laysAll_nestedTo` — nested parts lie over their tokens
- `Program.laid_of_derivation` — so do the statements of a program

## Design notes

The place of a metadata expression is that of its sign alone, and a node that ends with
one ends there too. This is the only node whose last token is out of its place.

A replacement of a format string lies over tokens of its own, which are read from the
text of the format string.
-/

namespace PipelineLang

open TokenStream Shape

/-- `last` is the last of some tokens, or the sign before the last one. -/
def EndsAt (taken : List Token) (last : Token) : Prop :=
  taken.getLast? = some last ∨
    ∃ front name, taken = front ++ [last, name] ∧ last.kind = .atSign

/-- A place runs from the first to the last of some tokens; the name of a metadata
expression at their end is left out. -/
def Span.RunsOver (taken : List Token) (span : Span) : Prop :=
  ∃ first last, taken.head? = some first ∧ EndsAt taken last ∧
    span = first.span.through last.span

/-- A place runs from the first to the last of some tokens. -/
def Span.RunsThrough (taken : List Token) (span : Span) : Prop :=
  ∃ first last, taken.head? = some first ∧ taken.getLast? = some last ∧
    span = first.span.through last.span

/-- A token is spelled as its kind asks. -/
structure Token.IsSpelled (token : Token) : Prop where
  spelling : ∀ spelling, token.kind.spelling? = some spelling → token.text = spelling
  dollar : token.kind = .dollarVar → ∃ name, token.text.toList = '$' :: name

/-- A place ends with the last of some tokens, or with the last of some parts. -/
def Span.EndsWith (taken : List Token) (parts : List Places) (span : Span) : Prop :=
  (∃ last, taken.getLast? = some last ∧ span.stop = last.span.stop) ∨
    ∃ part, parts.getLast? = some part ∧ span.stop = part.span.stop

/-- What is said of a node fits the tokens and the parts of the node. -/
def NodeSort.Fits (taken : List Token) (span : Span) (parts : List Places) : NodeSort → Prop
  | .word text => parts = [] ∧ ∃ token, taken = [token] ∧ (token.IsSpelled → token.text = text)
  | .path => span.EndsWith taken parts ∧ parts ≠ []
  | .metadata => ∃ sign name selector, taken = [sign, name] ∧ name.kind = .identifier ∧
      parts = [selector] ∧ span = sign.span ∧ selector.span = sign.span.through name.span
  | .pipeline => span.EndsWith taken parts ∧ parts ≠ []
  | .arm patterns => span.EndsWith taken parts ∧ 0 < patterns
  | .piece => False
  | .program => False
  | .other => span.EndsWith taken parts

namespace Places

mutual

/-- A tree lies over some tokens. -/
inductive Laid : List Token → Places → Prop
  | node {taken sort span parts} (hspan : span.RunsOver taken) (hsort : sort.Fits taken span parts)
    (hparts : LaidAll taken parts) : Laid taken (.node sort span parts)
  | format {token pieces parts} (hpieces : token.formatPieces = .ok pieces)
    (hparts : LaidPieces pieces parts) : Laid [token] (.node .other token.span parts)

/-- Trees lie over some of a list of tokens, one behind another. -/
inductive LaidAll : List Token → List Places → Prop
  | nil {gap} : LaidAll gap []
  | cons {gap taken rest place places} (hplace : Laid taken place)
    (hplaces : LaidAll rest places) : LaidAll (gap ++ (taken ++ rest)) (place :: places)

/-- The pieces of a format string; the tree of a replacement lies over tokens in it. -/
inductive LaidPieces : List FormatPiece → List Places → Prop
  | nil : LaidPieces [] []
  | text {raw span pieces places} (hrest : LaidPieces pieces places) :
    LaidPieces (.text raw span :: pieces) (.node .piece span [] :: places)
  | replacement {inner innerSpan span tokens leading taken trailing place pieces places}
    (htokens : (Scanner.within inner innerSpan).tokens? = .ok tokens)
    (hsplit : (TokenStream.ofTokens tokens).rest = leading ++ (taken ++ trailing))
    (hplace : Laid taken place) (hrest : LaidPieces pieces places) :
    LaidPieces (.replacement inner innerSpan span :: pieces)
      (.node .piece span [place] :: places)

end

end Places

open Places

/-! ### Ends of tokens -/

theorem EndsAt.behind {taken : List Token} {last : Token} (h : EndsAt taken last)
    (front : List Token) : EndsAt (front ++ taken) last := by
  obtain h | ⟨middle, name, rfl, hk⟩ := h
  · refine .inl ?_
    rw [List.getLast?_append, h]
    rfl
  · exact .inr ⟨front ++ middle, name, (List.append_assoc _ _ _).symm, hk⟩

namespace Span

variable {taken others : List Token} {span other : Span}

@[simp] theorem through_through (first middle last : Span) :
    (first.through middle).through last = first.through last := rfl

@[simp] theorem stop_through (first last : Span) : (first.through last).stop = last.stop := rfl

theorem runsThrough_singleton (token : Token) : token.span.RunsThrough [token] :=
  ⟨token, token, rfl, rfl, rfl⟩

theorem RunsThrough.runsOver (h : span.RunsThrough taken) : span.RunsOver taken := by
  obtain ⟨first, last, hfirst, hlast, hspan⟩ := h
  exact ⟨first, last, hfirst, .inl hlast, hspan⟩

theorem RunsThrough.endsWith (h : span.RunsThrough taken) (parts : List Places) :
    span.EndsWith taken parts := by
  obtain ⟨first, last, -, hlast, rfl⟩ := h
  exact .inl ⟨last, hlast, rfl⟩

theorem runsOver_singleton (token : Token) : token.span.RunsOver [token] :=
  (runsThrough_singleton token).runsOver

theorem RunsOver.ne_nil (h : span.RunsOver taken) : taken ≠ [] := by
  obtain ⟨first, -, hfirst, -, -⟩ := h
  rintro rfl
  simp at hfirst

/-- From the place of some tokens to the place of later ones. -/
theorem RunsOver.through (h : span.RunsOver taken) (hother : other.RunsOver others)
    (middle : List Token) : (span.through other).RunsOver (taken ++ (middle ++ others)) := by
  obtain ⟨first, _, hfirst, -, rfl⟩ := h
  obtain ⟨_, last, -, hlast, rfl⟩ := hother
  refine ⟨first, last, ?_, (hlast.behind middle).behind taken, rfl⟩
  rw [List.head?_append, hfirst]
  rfl

/-- From the place of some tokens to the end of later ones. -/
theorem RunsOver.through_endOf (h : span.RunsOver taken) (rest : List Token) :
    (span.through (endOf (taken ++ rest))).RunsThrough (taken ++ rest) := by
  have hne : taken ++ rest ≠ [] := List.append_ne_nil_of_left_ne_nil h.ne_nil rest
  obtain ⟨first, _, hfirst, -, rfl⟩ := h
  refine ⟨first, (taken ++ rest).getLast hne, ?_, List.getLast?_eq_some_getLast hne, ?_⟩
  · rw [List.head?_append, hfirst]
    rfl
  · rw [endOf, List.getLast?_eq_some_getLast hne]
    rfl

/-- From the place of some tokens to that of a token behind them. -/
theorem RunsOver.through_token (h : span.RunsOver taken) (middle : List Token) (last : Token) :
    (span.through last.span).RunsThrough (taken ++ (middle ++ [last])) := by
  have hruns := h.through_endOf (middle ++ [last])
  rwa [← List.append_assoc, endOf_concat, List.append_assoc] at hruns

end Span

/-! ### Trees one behind another -/

namespace Places

variable {taken others : List Token} {place : Places} {places more : List Places}

theorem LaidAll.one (h : Laid taken place) : LaidAll taken [place] := by
  have hall : LaidAll ([] ++ (taken ++ [])) [place] := .cons h .nil
  rwa [List.nil_append, List.append_nil] at hall

theorem LaidAll.behind (h : LaidAll taken places) (gap : List Token) :
    LaidAll (gap ++ taken) places := by
  cases h with
  | nil => exact .nil
  | cons hplace hplaces =>
    rw [← List.append_assoc]
    exact .cons hplace hplaces

theorem LaidAll.append : ∀ {taken : List Token} {places : List Places},
    LaidAll taken places → LaidAll others more → LaidAll (taken ++ others) (places ++ more)
  | _, _, .nil, hmore => hmore.behind _
  | _, _, .cons hplace hplaces, hmore => by
    rw [List.append_assoc, List.append_assoc]
    exact .cons hplace (hplaces.append hmore)

theorem LaidAll.ahead (h : LaidAll taken places) (gap : List Token) :
    LaidAll (taken ++ gap) places := by
  rw [← List.append_nil places]
  exact h.append .nil

theorem LaidAll.followed (h : LaidAll taken places) (hplace : Laid others place) :
    LaidAll (taken ++ others) (places ++ [place]) :=
  h.append (.one hplace)

/-- The place of a tree runs over the tokens that the tree lies over. -/
theorem Laid.runsOver (h : Laid taken place) : place.span.RunsOver taken := by
  cases h with
  | node hspan => exact hspan
  | format => exact Span.runsOver_singleton _

/-- A word lies over its token. -/
theorem laid_word {token : Token} {text : String} (h : token.IsSpelled → token.text = text) :
    Laid [token] (.node (.word text) token.span []) :=
  .node (Span.runsOver_singleton token) ⟨rfl, token, rfl, h⟩ .nil

theorem laid_identifier (token : Token) :
    Laid [token] (Grammar.identifierOf token).places := laid_word fun _ => rfl

/-- A node that ends with its last token. -/
theorem laid_through {span : Span} (hspan : span.RunsThrough taken)
    (hparts : LaidAll taken places) : Laid taken (.node .other span places) :=
  .node hspan.runsOver (hspan.endsWith places) hparts

/-- A node that ends with its last part. -/
theorem laid_open (last : Places) {span : Span} (hspan : span.RunsOver taken)
    (hparts : LaidAll taken places) (hlast : places.getLast? = some last)
    (hstop : span.stop = last.span.stop) : Laid taken (.node .other span places) :=
  .node hspan (.inr ⟨last, hlast, hstop⟩) hparts

end Places

namespace Grammar

/-! ### Series -/

section

variable {α : Type} {item : Shape α} {again : Shape Bool} {place : α → Places}
  {before taken ahead : List Token} {items : List α}

/-- The items of a series lie over its tokens, save what stands behind the last item. -/
theorem exists_of_series
    (hitem : ∀ before taken ahead a, item before taken ahead a → Laid taken (place a))
    (h : Series item again before taken ahead items) :
    ∃ body behind first last, taken = body ++ behind ∧ LaidAll body (items.map place) ∧
      items.head? = some first ∧ items.getLast? = some last ∧
      ((place first).span.through (place last).span).RunsOver body := by
  induction h with
  | @last before taken gap ahead a h hagain =>
    obtain ⟨start, stop, hstart, hstop, heq⟩ := (hitem _ _ _ _ h).runsOver
    refine ⟨taken, gap, a, a, rfl, .one (hitem _ _ _ _ h), rfl, rfl, start, stop, hstart, hstop, ?_⟩
    rw [heq]
    rfl
  | @more before taken gap others ahead a as h hagain hothers ih =>
    obtain ⟨body, behind, first, last, rfl, hbody, -, hlast, hspan⟩ := ih
    refine ⟨taken ++ (gap ++ body), behind, a, last, by simp, ?_, rfl, ?_, ?_⟩
    · exact (LaidAll.one (hitem _ _ _ _ h)).append (hbody.behind gap)
    · rw [List.getLast?_cons, hlast]
      rfl
    · exact (hitem _ _ _ _ h).runsOver.through hspan gap

/-- Those of a series that ends with an error, too. -/
theorem exists_of_partial
    (hitem : ∀ before taken ahead a, item before taken ahead a → Laid taken (place a))
    (h : Partial item again before taken ahead items) (hne : items ≠ []) :
    ∃ body behind first last, taken = body ++ behind ∧ LaidAll body (items.map place) ∧
      items.head? = some first ∧ items.getLast? = some last ∧
      ((place first).span.through (place last).span).RunsOver body := by
  induction h with
  | nil => exact absurd rfl hne
  | @last before taken ahead a h =>
    exact ⟨taken, [], a, a, by simp, .one (hitem _ _ _ _ h), rfl, rfl, (hitem _ _ _ _ h).runsOver⟩
  | @more before taken gap others ahead a as h hagain hothers ih =>
    by_cases has : as = []
    · subst has
      exact ⟨taken, gap ++ others, a, a, by simp, .one (hitem _ _ _ _ h), rfl, rfl,
        (hitem _ _ _ _ h).runsOver⟩
    · obtain ⟨body, behind, first, last, rfl, hbody, -, hlast, hspan⟩ := ih has
      refine ⟨taken ++ (gap ++ body), behind, a, last, by simp, ?_, rfl, ?_, ?_⟩
      · exact (LaidAll.one (hitem _ _ _ _ h)).append (hbody.behind gap)
      · rw [List.getLast?_cons, hlast]
        rfl
      · exact (hitem _ _ _ _ h).runsOver.through hspan gap

theorem laid_of_series
    (hitem : ∀ before taken ahead a, item before taken ahead a → Laid taken (place a))
    (h : Series item again before taken ahead items) : LaidAll taken (items.map place) := by
  obtain ⟨body, behind, -, -, rfl, hbody, -⟩ := exists_of_series hitem h
  exact hbody.ahead behind

theorem laid_of_items
    (hitem : ∀ before taken ahead a, item before taken ahead a → Laid taken (place a))
    (h : ItemsAt item before taken ahead items) : LaidAll taken (items.map place) := by
  cases h with
  | none => exact .nil
  | some _ hitems => exact (laid_of_series hitem hitems).behind _

end

/-! ### Names -/

theorem laid_path {taken : List Token} {names : List Identifier} (h : Path taken names) :
    LaidAll taken (names.map (·.places)) ∧
      (((names.head?.map (·.span)).getD Span.zero).RunsOver (taken.take 1)) := by
  induction h with
  | @one name hname => exact ⟨.one (laid_identifier name), Span.runsOver_singleton name⟩
  | @more name separator tokens names hname hseparator hnames ih =>
    refine ⟨?_, Span.runsOver_singleton name⟩
    exact (LaidAll.one (laid_identifier name)).append (ih.1.behind [separator])

theorem laid_entity {before taken ahead : List Token} {entity : Entity}
    (h : EntityAt before taken ahead entity) : Laid taken entity.places := by
  obtain ⟨hpath, -, hspan⟩ := h
  obtain ⟨hnames, hfirst⟩ := laid_path hpath
  have hruns := hfirst.through_endOf (taken.drop 1)
  rw [List.take_append_drop, ← hspan] at hruns
  refine .node hruns.runsOver ⟨hruns.endsWith _, ?_⟩ hnames
  obtain ⟨segments, span⟩ := entity
  show segments.map (·.places) ≠ []
  cases hpath <;> simp

theorem laid_step {taken : List Token} {segment : FieldSegment} (h : Step taken segment) :
    LaidAll taken [segment.name.places] := by
  cases h with
  | plain => exact .one (laid_identifier _)
  | @optional name mark => exact (LaidAll.one (laid_identifier name)).ahead [mark]

theorem laid_steps {taken : List Token} {segments : List FieldSegment}
    (h : Steps taken segments) : LaidAll taken (segments.map (·.name.places)) := by
  induction h with
  | one hstep => exact laid_step hstep
  | more hstep hdot _ ih => exact (laid_step hstep).append (ih.behind [_])

theorem laid_selector {taken : List Token} {selector : Selector} (h : SelectorOf taken selector) :
    Laid taken selector.places := by
  cases h with
  | @metadata sign name hsign hname =>
    exact laid_through ((Span.runsOver_singleton sign).through_token [] name)
      ((LaidAll.one (laid_identifier name)).behind [sign])
  | @root this hthis => exact laid_through (Span.runsThrough_singleton this) .nil
  | @rooted this dot steps segments hthis hdot hsteps =>
    exact laid_through ((Span.runsOver_singleton this).through_endOf (dot :: steps))
      ((laid_steps hsteps).behind [this, dot])
  | @path first steps segments hsteps =>
    exact laid_through ((Span.runsOver_singleton first).through_endOf steps) (laid_steps hsteps)

theorem laid_variable {token : Token} (htoken : token.kind = .dollarVar) :
    Laid [token] (.node (.word ("$" ++ variableName token)) token.span []) := by
  refine laid_word fun hspelled => ?_
  obtain ⟨name, hname⟩ := hspelled.dollar htoken
  apply String.toList_injective
  rw [variableName, hname, String.toList_append]
  simp

theorem laid_key {name : Token} {key : RecordKey} (h : KeyOf name key) :
    LaidAll [name] key.places := by
  cases h with
  | identifier => exact .one (laid_identifier name)
  | string => exact .nil

/-! ### Expressions -/

@[simp] theorem span_entity_places (entity : Entity) : entity.places.span = entity.span := rfl

@[simp] theorem span_selector_places (selector : Selector) :
    selector.places.span = selector.span := by
  cases selector <;> rfl

@[simp] theorem span_expr_places (value : Expr) : value.places.span = value.span := by
  cases value <;> rfl

@[simp] theorem span_conditional_places (inner : Conditional) :
    inner.places.span = inner.span := by
  cases inner
  rfl

@[simp] theorem span_block_places (block : Block) : block.places.span = block.span := by
  obtain ⟨_ | body, span⟩ := block <;> rfl

@[simp] theorem span_statement_places (statement : Statement) :
    statement.places.span = statement.span := by
  cases statement with
  | conditional inner => exact span_conditional_places inner
  | invocation _ _ _ block => cases block <;> rfl
  | _ => rfl

/-- A pipeline lies over what its statements lie over. -/
theorem laid_ofStatements? {taken : List Token} {statements : List Statement}
    {first last : Statement} {body : Pipeline}
    (hbody : Pipeline.ofStatements? statements = some body)
    (hfirst : statements.head? = some first) (hlast : statements.getLast? = some last)
    (hparts : LaidAll taken (statements.map (·.places)))
    (hspan : (first.places.span.through last.places.span).RunsOver taken) :
    Laid taken body.places := by
  simp only [Pipeline.ofStatements?, hfirst, hlast, Option.some.injEq] at hbody
  subst hbody
  rw [span_statement_places, span_statement_places] at hspan
  rw [Pipeline.places, Statement.allPlaces_eq_map]
  refine .node hspan ⟨.inr ⟨last.places, ?_, ?_⟩, fun hnone => ?_⟩ hparts
  · rw [List.getLast?_map, hlast]
    rfl
  · rw [Span.stop_through, span_statement_places]
  · rw [List.map_eq_nil_iff.mp hnone] at hfirst
    simp at hfirst

/-- What is built up from the left lies over all tokens up to its last part. -/
theorem laid_foldl {α : Type} {item : Shape α} {extend : Expr → α → Expr}
    {start before taken ahead : List Token} {value : Expr} {items : List α}
    (h : Many item before taken ahead items) (hvalue : Laid start value.places)
    (hextend : ∀ start before taken ahead value a, Laid start (Expr.places value) →
      item before taken ahead a → Laid (start ++ taken) (extend value a).places) :
    Laid (start ++ taken) (items.foldl extend value).places := by
  induction h generalizing start value with
  | nil => rwa [List.append_nil]
  | cons hitem _ ih =>
    rw [← List.append_assoc]
    exact ih (hextend _ _ _ _ _ _ hvalue hitem)

/-- What a nested part has been read from lies under it. Behind the statements of a
pipeline there may be what separates statements. -/
def Lays : {α : Type} → Goal α → List Token → α → Prop
  | _, .expression _, taken, value => Laid taken value.places
  | _, .listItems, taken, items => LaidAll taken (items.map (·.places))
  | _, .recordItems, taken, items => LaidAll taken (items.map (·.places))
  | _, .arguments _, taken, arguments => LaidAll taken (arguments.map (·.places))
  | _, .conditional, taken, inner => Laid taken inner.places
  | _, .block, taken, block => Laid taken block.places
  | _, .arms _, taken, arms => LaidAll taken (arms.map (·.places))
  | _, .pipeline _, taken, body => ∃ tokens behind, taken = tokens ++ behind ∧
      Laid tokens body.places

/-- Nested parts lie over their tokens. -/
def LaysAll (nested : Nested) : Prop :=
  ∀ (α : Type) (goal : Goal α) (before taken ahead : List Token) (a : α),
    nested α goal before taken ahead a → Lays goal taken a

section

variable {nested : Nested} {before taken ahead : List Token} (hn : LaysAll nested)

include hn

theorem laid_expression {least : Nat} {value : Expr}
    (h : nested _ (.expression least) before taken ahead value) : Laid taken value.places :=
  hn _ _ _ _ _ _ h

/-- The place of an expression runs over its tokens. -/
theorem runsOver_expression {least : Nat} {value : Expr}
    (h : nested _ (.expression least) before taken ahead value) : value.span.RunsOver taken := by
  rw [← span_expr_places]
  exact (laid_expression hn h).runsOver

/-- From a first token to an expression behind it. -/
theorem runsOver_behind (first : Token) (middle : List Token) {least : Nat} {value : Expr}
    (h : nested _ (.expression least) before taken ahead value) :
    (first.span.through value.span).RunsOver (first :: (middle ++ taken)) :=
  (Span.runsOver_singleton first).through (runsOver_expression hn h) middle

theorem laid_assignment {target : Selector} {value : Expr}
    (h : AssignmentAt nested before taken ahead (target, value)) :
    LaidAll taken [target.places, value.places] ∧
      (target.span.through value.span).RunsOver taken := by
  obtain @⟨_, front, sign, tokens, _, _, _, htarget, hsign, hvalue⟩ := h
  have htarget := laid_selector htarget
  have hspan := htarget.runsOver
  rw [span_selector_places] at hspan
  refine ⟨?_, hspan.through (runsOver_expression hn hvalue) [sign]⟩
  exact (LaidAll.one htarget).append ((LaidAll.one (laid_expression hn hvalue)).behind [sign])

theorem laid_argument {argument : Argument} (h : ArgumentAt nested before taken ahead argument) :
    Laid taken argument.places := by
  cases h with
  | named hassignment =>
    obtain ⟨hparts, hspan⟩ := laid_assignment hn hassignment
    exact laid_open _ hspan hparts rfl (by simp)
  | positional hvalue => exact laid_expression hn hvalue

theorem laid_callArguments {arguments : List Argument}
    (h : CallArgumentsAt nested before taken ahead arguments) :
    LaidAll taken (arguments.map (·.places)) := by
  obtain @⟨_, opener, tokens, _, _, hopener, harguments⟩ := h
  have hparts : LaidAll tokens (arguments.map (·.places)) :=
    hn _ _ _ _ _ _ harguments
  exact hparts.behind [opener]

theorem laid_call {function : Entity} {arguments : List Argument}
    (h : CallAt nested before taken ahead (function, arguments)) :
    LaidAll taken (function.places :: Argument.allPlaces arguments) ∧
      (function.span.through (endOf taken)).RunsThrough taken := by
  obtain @⟨_, name, tokens, _, _, _, hname, harguments⟩ := h
  have hfunction := laid_entity hname
  rw [Argument.allPlaces_eq_map]
  refine ⟨(LaidAll.one hfunction).append (laid_callArguments hn harguments), ?_⟩
  exact hfunction.runsOver.through_endOf tokens

theorem laid_segments {pieces : List FormatPiece} {segments : List Segment}
    (h : SegmentsOf nested pieces segments) :
    LaidPieces pieces (segments.map (·.places)) := by
  induction h with
  | nil => exact .nil
  | cons hsegment _ ih =>
    cases hsegment with
    | text => exact .text ih
    | @replacement _ _ _ tokens _ htokens hvalue =>
      generalize hrest : (TokenStream.ofTokens tokens).rest = rest at hvalue
      cases hvalue with
      | intro _ hvalue _ => exact .replacement htokens hrest (laid_expression hn hvalue) ih

theorem laid_primary {value : Expr} (h : PrimaryAt nested before taken ahead value) :
    Laid taken value.places := by
  cases h with
  | @literal _ token _ value hvalue =>
    refine laid_word fun hspelled => ?_
    exact (Prod.mk.inj (Literal.word_of_ofText? hvalue hspelled.spelling)).2.symm
  | format _ hpieces hsegments =>
    rw [Expr.places, Segment.allPlaces_eq_map]
    exact .format hpieces (laid_segments hn hsegments)
  | call hcall =>
    obtain ⟨hparts, hspan⟩ := laid_call hn hcall
    exact laid_through hspan hparts
  | @name _ token _ _ _ =>
    rw [nameOrPlaceholder]
    split
    · next hname => exact laid_word fun _ => by simpa using hname
    · exact laid_word fun _ => rfl
  | dollar htoken => exact laid_variable htoken
  | this htoken => exact laid_word fun hspelled => hspelled.spelling _ (by rw [htoken]; rfl)
  | @metadata _ sign name _ hsign hname =>
    exact .node ⟨sign, sign, rfl, .inr ⟨[], name, rfl, hsign⟩, rfl⟩
      ⟨sign, name, _, rfl, hname, rfl, rfl, rfl⟩ (.one (laid_selector (.metadata hsign hname)))
  | @list _ opener closer tokens _ items _ _ hitems =>
    have hparts : LaidAll tokens (items.map (·.places)) := hn _ _ _ _ _ _ hitems
    rw [Expr.places, ListItem.allPlaces_eq_map]
    exact laid_through ((Span.runsOver_singleton opener).through_token _ closer)
      ((hparts.ahead [closer]).behind [opener])
  | @record _ opener closer tokens _ items _ _ hitems =>
    have hparts : LaidAll tokens (items.map (·.places)) := hn _ _ _ _ _ _ hitems
    rw [Expr.places, RecordItem.allPlaces_eq_map]
    exact laid_through ((Span.runsOver_singleton opener).through_token _ closer)
      ((hparts.ahead [closer]).behind [opener])
  | @paren _ opener closer leading tokens trailing _ _ _ _ _ _ hinner =>
    refine laid_through ((Span.runsOver_singleton opener).through_token _ closer) ?_
    have hparts := LaidAll.one (laid_expression hn hinner)
    exact (((hparts.behind leading).ahead trailing).ahead [closer]).behind [opener]

/-- An operand with a suffix lies over the tokens of both. -/
theorem laid_suffix {start : List Token} {receiver : Expr} {suffix : Suffix}
    (hreceiver : Laid start receiver.places) (h : SuffixAt nested before taken ahead suffix) :
    Laid (start ++ taken) (suffix.apply receiver).places := by
  have hspan : receiver.span.RunsOver start := by
    rw [← span_expr_places]
    exact hreceiver.runsOver
  have hparts := LaidAll.one hreceiver
  cases h with
  | @member _ dot name _ _ _ _ =>
    exact laid_through (hspan.through_token [dot] name)
      (hparts.append ((LaidAll.one (laid_identifier name)).behind [dot]))
  | @memberBehind _ dot name mark _ _ _ _ =>
    exact laid_through (hspan.through_token [dot, name] mark)
      (hparts.append (((LaidAll.one (laid_identifier name)).behind [dot]).ahead [mark]))
  | @memberAhead _ dot name _ _ _ =>
    exact laid_through (hspan.through_token [dot] name)
      (hparts.append ((LaidAll.one (laid_identifier name)).behind [dot]))
  | @call _ dot tokens _ function arguments _ hcall =>
    obtain ⟨hcalled, -⟩ := laid_call hn hcall
    refine laid_through ?_ (hparts.append (hcalled.behind [dot]))
    have hruns := hspan.through_endOf (dot :: tokens)
    rwa [endOf_append _ (List.cons_ne_nil _ _)] at hruns
  | @index _ opener closer leading tokens trailing _ key _ _ _ _ hkey =>
    have hkey := ((LaidAll.one (laid_expression hn hkey)).behind leading).ahead trailing
    refine laid_through ?_ (hparts.append ((hkey.ahead [closer]).behind [opener]))
    exact hspan.through_token (opener :: (leading ++ tokens ++ trailing)) closer
  | @optionalIndex _ opener closer mark leading tokens trailing _ key _ _ _ _ _ hkey =>
    have hkey := ((LaidAll.one (laid_expression hn hkey)).behind leading).ahead trailing
    refine laid_through ?_ (hparts.append ((hkey.ahead [closer, mark]).behind [opener]))
    have hruns := hspan.through_token (opener :: (leading ++ tokens ++ trailing ++ [closer])) mark
    simpa using hruns

theorem laid_suffixed {value : Expr} (h : SuffixedAt nested before taken ahead value) :
    Laid taken value.places := by
  obtain ⟨hreceiver, hsuffixes, -⟩ := h
  exact laid_foldl hsuffixes (laid_primary hn hreceiver) fun _ _ _ _ _ _ => laid_suffix hn

theorem laid_operand {value : Expr} (h : OperandAt nested before taken ahead value) :
    Laid taken value.places := by
  cases h with
  | @unary _ opener tokens _ _ _ _ hoperand =>
    exact laid_open _ (runsOver_behind hn opener [] hoperand)
      ((LaidAll.one (laid_expression hn hoperand)).behind [opener]) rfl (by simp)
  | @lambda _ parameter arrow leading tokens _ _ _ _ _ hbody =>
    have hparts := (LaidAll.one (laid_expression hn hbody)).behind (arrow :: leading)
    exact laid_open _ (runsOver_behind hn parameter (arrow :: leading) hbody)
      ((LaidAll.one (laid_identifier parameter)).append hparts) rfl (by simp)
  | plain _ _ hoperand => exact laid_suffixed hn hoperand

/-- Operands with an operator between them lie over the tokens of all three. -/
theorem laid_join {start : List Token} {left : Expr} {least : Nat} {link : BinaryOp × Expr}
    (hleft : Laid start left.places) (h : LinkAt nested least before taken ahead link) :
    Laid (start ++ taken) (join left link).places := by
  have hspan := hleft.runsOver
  rw [span_expr_places] at hspan
  obtain @⟨_, sign, leading, tokens, _, op, right, _, _, _, hright⟩ := h
  have hparts := (LaidAll.one (laid_expression hn hright)).behind (sign ++ leading)
  exact laid_open _ (hspan.through (runsOver_expression hn hright) (sign ++ leading))
    ((LaidAll.one hleft).append hparts) rfl (by simp)

theorem laid_chain {least : Nat} {value : Expr}
    (h : ChainAt nested least before taken ahead value) :
    Laid taken value.places := by
  obtain ⟨hfirst, hlinks, -⟩ := h
  exact laid_foldl hlinks (laid_operand hn hfirst) fun _ _ _ _ _ _ => laid_join hn

/-! ### Items -/

theorem laid_listItem {item : ListItem} (h : ListItemAt nested before taken ahead item) :
    Laid taken item.places := by
  cases h with
  | @spread _ ellipsis _ _ _ _ hvalue =>
    exact laid_open _ (runsOver_behind hn ellipsis [] hvalue)
      ((LaidAll.one (laid_expression hn hvalue)).behind [ellipsis]) rfl (by simp)
  | item hvalue => exact laid_expression hn hvalue

theorem laid_recordItem {item : RecordItem} (h : RecordItemAt nested before taken ahead item) :
    Laid taken item.places := by
  cases h with
  | @spread _ ellipsis _ _ _ _ hvalue =>
    exact laid_open _ (runsOver_behind hn ellipsis [] hvalue)
      ((LaidAll.one (laid_expression hn hvalue)).behind [ellipsis]) rfl (by simp)
  | @field _ name colon leading tokens _ key value hkey _ _ hvalue =>
    have hparts := (LaidAll.one (laid_expression hn hvalue)).behind (colon :: leading)
    exact laid_open value.places (runsOver_behind hn name (colon :: leading) hvalue)
      ((laid_key hkey).append hparts) (by simp) (by simp)

theorem laid_argumentsBehind {arguments : List Argument}
    (h : ArgumentsBehindAt nested before taken ahead arguments) :
    LaidAll taken (arguments.map (·.places)) := by
  obtain @⟨_, tokens, closer, _, _, _, harguments⟩ := h
  exact (laid_of_items (fun _ _ _ _ h => laid_argument hn h) harguments).ahead [closer]

/-! ### Statements -/

theorem laid_body {opener : Token} {body : Pipeline}
    (h : nested _ (.pipeline opener) before taken ahead body) : LaidAll taken [body.places] := by
  obtain ⟨tokens, behind, rfl, hbody⟩ :
    ∃ tokens behind, taken = tokens ++ behind ∧ Laid tokens body.places := hn _ _ _ _ _ _ h
  exact (LaidAll.one hbody).ahead behind

theorem laid_let {statement : Statement} (h : LetAt nested before taken ahead statement) :
    Laid taken statement.places := by
  obtain @⟨_, keyword, name, sign, tokens, _, value, _, hname, _, hvalue⟩ := h
  have hparts := (LaidAll.one (laid_expression hn hvalue)).behind [sign]
  exact laid_open _ (runsOver_behind hn keyword [name, sign] hvalue)
    (((LaidAll.one (laid_variable hname)).append hparts).behind [keyword]) rfl (by simp)

theorem laid_conditional {inner : Conditional}
    (h : ConditionalAt nested before taken ahead inner) : Laid taken inner.places := by
  cases h with
  | @absent _ keyword tokens others _ _ consequence _ hcondition hconsequence =>
    have hblock : Laid others consequence.places := hn _ _ _ _ _ _ hconsequence
    have hparts := (LaidAll.one (laid_expression hn hcondition)).followed hblock
    have hspan := (Span.runsOver_singleton keyword).through hblock.runsOver tokens
    rw [span_block_places] at hspan
    exact laid_open consequence.places hspan (hparts.behind [keyword]) rfl (by simp)
  | @conditional _ keyword word tokens others rest _ _ consequence inner _ _ hcondition
      hconsequence hinner =>
    have hblock : Laid others consequence.places := hn _ _ _ _ _ _ hconsequence
    have helse : Laid rest inner.places := hn _ _ _ _ _ _ hinner
    have hparts := (LaidAll.one (laid_expression hn hcondition)).followed hblock
    have hspan := (Span.runsOver_singleton keyword).through helse.runsOver
      (tokens ++ others ++ [word])
    exact laid_open inner.places (by simpa using hspan)
      ((hparts.append ((LaidAll.one helse).behind [word])).behind [keyword]) rfl (by simp)
  | @block _ keyword word tokens others rest _ _ consequence inner _ _ hcondition
      hconsequence hinner =>
    have hblock : Laid others consequence.places := hn _ _ _ _ _ _ hconsequence
    have helse : Laid rest inner.places := hn _ _ _ _ _ _ hinner
    have hparts := (LaidAll.one (laid_expression hn hcondition)).followed hblock
    have hspan := (Span.runsOver_singleton keyword).through helse.runsOver
      (tokens ++ others ++ [word])
    exact laid_open inner.places (by simpa using hspan)
      ((hparts.append ((LaidAll.one helse).behind [word])).behind [keyword]) rfl (by simp)

theorem laid_selection {statement : Statement}
    (h : SelectionAt nested before taken ahead statement) : Laid taken statement.places := by
  obtain @⟨_, keyword, opener, closer, tokens, leading, others, _, subject, arms, _, _, _, _,
    hsubject, harms⟩ := h
  have harms : LaidAll others (arms.map (·.places)) := hn _ _ _ _ _ _ harms
  have hbehind := ((harms.behind leading).ahead [closer]).behind [opener]
  rw [Statement.places, Arm.allPlaces_eq_map]
  have hspan := (Span.runsOver_singleton keyword).through_token
    (tokens ++ opener :: (leading ++ others)) closer
  exact laid_through (by simpa using hspan)
    (((LaidAll.one (laid_expression hn hsubject)).append hbehind).behind [keyword])

theorem laid_bare {arguments : List Argument} (h : BareAt nested before taken ahead arguments) :
    LaidAll taken (arguments.map (·.places)) := by
  obtain ⟨harguments, -⟩ := h
  exact laid_of_series (fun _ _ _ _ h => laid_argument hn h) harguments

theorem laid_parenthesized {arguments : List Argument}
    (h : ParenthesizedAt nested before taken ahead arguments) :
    LaidAll taken (arguments.map (·.places)) := by
  obtain ⟨harguments, -⟩ := h
  exact laid_callArguments hn harguments

theorem laid_operatorArguments {arguments : List Argument} {parenthesized : Bool}
    (h : OperatorArgumentsAt nested before taken ahead (arguments, parenthesized)) :
    LaidAll taken (arguments.map (·.places)) := by
  cases h with
  | parenthesized harguments => exact laid_parenthesized hn harguments
  | none => exact .nil
  | bare harguments => exact laid_bare hn harguments

theorem laid_operatorBlock {block : Option Pipeline} {trailing : List Argument}
    (h : OperatorBlockAt nested before taken ahead (block, trailing)) :
    LaidAll taken ((block.map (·.places)).toList ++ trailing.map (·.places)) := by
  cases h with
  | none => exact .nil
  | @alone _ opener closer leading tokens _ body _ _ _ hbody =>
    exact ((laid_body hn hbody).behind leading |>.ahead [closer]).behind [opener]
  | @parenthesized _ opener closer comma leading tokens newlines others _ body _ _ _ _ _ _ hbody
      harguments =>
    have htrailing := (laid_parenthesized hn harguments).behind (closer :: comma :: newlines)
    exact (((laid_body hn hbody).behind leading).append htrailing).behind [opener]
  | @bare _ opener closer comma leading tokens newlines others _ body _ _ _ _ _ _ hbody
      harguments =>
    have htrailing := (laid_bare hn harguments).behind (closer :: comma :: newlines)
    exact (((laid_body hn hbody).behind leading).append htrailing).behind [opener]

theorem laid_invocation {statement : Statement}
    (h : InvocationAt nested before taken ahead statement) : Laid taken statement.places := by
  obtain @⟨_, name, tokens, others, _, operator, arguments, _, block, trailing, hname, harguments,
    hblock⟩ := h
  have hoperator := laid_entity hname
  have hspan := hoperator.runsOver.through_endOf (tokens ++ others)
  rw [← List.append_assoc] at hspan
  have hparts := ((LaidAll.one hoperator).append (laid_operatorArguments hn harguments)).append
    (laid_operatorBlock hn hblock)
  cases block with
  | none =>
    rw [Statement.places, Argument.allPlaces_eq_map, Argument.allPlaces_eq_map]
    exact laid_through hspan (by simpa using hparts)
  | some body =>
    rw [Statement.places, Argument.allPlaces_eq_map, Argument.allPlaces_eq_map]
    exact laid_through hspan (by simpa using hparts)

theorem laid_statement {statement : Statement}
    (h : StatementAt nested before taken ahead statement) : Laid taken statement.places := by
  cases h with
  | letBinding hlet => exact laid_let hn hlet
  | conditional hinner => exact laid_conditional hn hinner
  | selection hselection => exact laid_selection hn hselection
  | assignment hassignment =>
    obtain ⟨hparts, hspan⟩ := laid_assignment hn hassignment
    exact laid_open _ hspan hparts rfl (by simp)
  | invocation hinvocation => exact laid_invocation hn hinvocation

theorem laid_pipeline {body : Pipeline} (h : PipelineAt nested before taken ahead body) :
    ∃ tokens behind, taken = tokens ++ behind ∧ Laid tokens body.places := by
  obtain @⟨_, _, _, statements, span, hstatements, hspan⟩ := h
  obtain ⟨tokens, behind, first, last, htaken, hparts, hfirst, hlast, hruns⟩ :=
    exists_of_series (fun _ _ _ _ h => laid_statement hn h) hstatements
  exact ⟨tokens, behind, htaken, laid_ofStatements? hspan hfirst hlast hparts hruns⟩

theorem laid_block {block : Block} (h : BlockAt nested before taken ahead block) :
    Laid taken block.places := by
  cases h with
  | @empty _ opener closer leading =>
    exact laid_through ((Span.runsOver_singleton opener).through_token leading closer) .nil
  | @body _ opener closer leading tokens _ body _ _ _ hbody =>
    obtain ⟨inner, behind, rfl, hlaid⟩ := laid_pipeline hn hbody
    have hparts := ((LaidAll.one hlaid).ahead behind).behind leading
    exact laid_through ((Span.runsOver_singleton opener).through_token _ closer)
      ((hparts.ahead [closer]).behind [opener])

theorem laid_pattern {pattern : Expr} (h : PatternAt nested before taken ahead pattern) :
    Laid taken pattern.places := by
  cases h with
  | name _ hpattern => exact laid_primary hn hpattern
  | expression _ hpattern => exact laid_expression hn hpattern

theorem laid_arm {arm : Arm} (h : ArmAt nested before taken ahead arm) :
    Laid taken arm.places := by
  obtain @⟨_, arrow, opener, closer, tokens, leading, others, _, patterns, body, _, _, _, _,
    hpatterns, hbody⟩ := h
  obtain ⟨inner, behind, first, last, rfl, hparts, hfirst, -, hruns⟩ :=
    exists_of_series (fun _ _ _ _ h => laid_pattern hn h) hpatterns
  have hbody := ((laid_body hn hbody).behind (arrow :: opener :: leading)).ahead [closer]
  have hspan := hruns.through_token (behind ++ arrow :: opener :: (leading ++ others)) closer
  have htokens : inner ++ (behind ++ arrow :: opener :: (leading ++ others) ++ [closer]) =
      inner ++ behind ++ arrow :: opener :: (leading ++ others ++ [closer]) := by simp
  rw [htokens, Span.through_through] at hspan
  rw [List.head?_eq_some_iff] at hfirst
  obtain ⟨rest, rfl⟩ := hfirst
  refine .node ?_ ⟨?_, Nat.succ_pos _⟩ ?_
  · simpa using hspan.runsOver
  · simpa using hspan.endsWith _
  · simpa using (hparts.ahead behind).append hbody

theorem laid_armsBehind {arms : List Arm} (h : ArmsBehindAt nested before taken ahead arms) :
    LaidAll taken (arms.map (·.places)) := by
  cases h with
  | none => exact .nil
  | some harms => exact laid_of_series (fun _ _ _ _ h => laid_arm hn h) harms

/-- If nested parts lie over their tokens, so does what they are nested in. -/
theorem laysAll_at : LaysAll fun _ goal => goal.At nested := by
  intro α goal before taken ahead a h
  cases goal with
  | expression least => exact laid_chain hn h
  | listItems => exact laid_of_items (fun _ _ _ _ h => laid_listItem hn h) h
  | recordItems => exact laid_of_items (fun _ _ _ _ h => laid_recordItem hn h) h
  | arguments => exact laid_argumentsBehind hn h
  | conditional => exact laid_conditional hn h
  | block => exact laid_block hn h
  | arms => exact laid_armsBehind hn h
  | pipeline => exact laid_pipeline hn h

end

/-! ### Programs -/

/-- Nested parts lie over their tokens, however deep they are nested. -/
theorem laysAll_nestedTo (depth : Nat) : LaysAll (nestedTo depth) := by
  induction depth with
  | zero => exact fun _ _ _ _ _ _ h => h.elim
  | succ depth ih => exact laysAll_at ih

end Grammar

namespace Program

open Grammar

theorem laid_frontmatter {taken : List Token} {block : FrontmatterBlock}
    (h : FrontmatterOf taken block) : Laid taken block.places := by
  obtain ⟨-, -, -, hlast⟩ := h
  exact laid_through ⟨_, _, rfl, hlast, rfl⟩ .nil

theorem laid_head {taken : List Token} {frontmatter : Option FrontmatterBlock}
    (h : HeadOf taken frontmatter) : LaidAll taken (frontmatter.map (·.places)).toList := by
  cases h with
  | none => exact .nil
  | some _ hblock =>
    exact ((LaidAll.one (laid_frontmatter hblock)).behind _).ahead _

theorem laid_statementsTo {limit : Nat} {complete : Bool} {before taken ahead : List Token}
    {statements : List Statement} (h : StatementsTo limit complete before taken ahead statements) :
    LaidAll taken ((Pipeline.ofStatements? statements).map (·.places)).toList := by
  have hitem : ∀ before taken ahead statement,
      StatementAt (nestedTo limit) before taken ahead statement → Laid taken statement.places :=
    fun _ _ _ _ h => laid_statement (laysAll_nestedTo limit) h
  cases hbody : Pipeline.ofStatements? statements with
  | none => exact .nil
  | some body =>
    have hlaid : ∃ tokens behind, taken = tokens ++ behind ∧ Laid tokens body.places := by
      cases h with
      | none => simp [Pipeline.ofStatements?] at hbody
      | all hstatements =>
        obtain ⟨tokens, behind, first, last, htaken, hparts, hfirst, hlast, hruns⟩ :=
          exists_of_series hitem hstatements
        exact ⟨tokens, behind, htaken, laid_ofStatements? hbody hfirst hlast hparts hruns⟩
      | fragment _ hstatements =>
        have hne : statements ≠ [] := by
          rintro rfl
          simp [Pipeline.ofStatements?] at hbody
        obtain ⟨tokens, behind, first, last, htaken, hparts, hfirst, hlast, hruns⟩ :=
          exists_of_partial hitem hstatements hne
        exact ⟨tokens, behind, htaken, laid_ofStatements? hbody hfirst hlast hparts hruns⟩
    obtain ⟨tokens, behind, rfl, hlaid⟩ := hlaid
    exact (LaidAll.one hlaid).ahead behind

/-- What a program or a fragment is made of lies over the tokens of the source. -/
theorem laid_of_derivation {limit : Nat} {complete : Bool} {tokens : List Token}
    {program : Program} (h : Derivation limit complete tokens program) :
    LaidAll (TokenStream.ofTokens tokens).rest program.places.parts := by
  obtain ⟨hsplit, hhead, hstatements⟩ := h
  rw [hsplit]
  exact (laid_head hhead).append ((laid_statementsTo hstatements).ahead _)

end Program

end PipelineLang
