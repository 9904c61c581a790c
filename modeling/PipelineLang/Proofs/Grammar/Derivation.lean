import PipelineLang.Grammar.Program
import PipelineLang.Proofs.Grammar.Series

/-!
# Derivations

A derivation says how tokens make up a tree. It is a relation, so it can be taken
apart: what the rules of the grammar try and give up again leaves no trace in it.

## Main definitions

- `Nested` — the shapes of nested parts
- `ChainAt`, `StatementAt`, … — the shape of each rule, given those of nested parts
- `Goal.At` — the shape of a nested part
- `nestedTo` — nested parts to some depth

## Design notes

The shapes go by the depth of nesting, as the rules do. The places of trees are told as
the rules tell them, from the places of tokens and of other trees.
-/

namespace PipelineLang

/-- The shapes of nested parts. -/
abbrev Nested := (α : Type) → Goal α → Shape α

/-- The kinds of the tokens of an operator. -/
def BinaryOp.kinds : BinaryOp → List TokenKind
  | .orElse => [.kwElse] | .onlyIf => [.kwIf] | .or => [.kwOr] | .and => [.kwAnd]
  | .eq => [.eqEq] | .notEq => [.notEq] | .gt => [.gt] | .gtEq => [.gtEq]
  | .lt => [.lt] | .ltEq => [.ltEq] | .isIn => [.kwIn] | .isNotIn => [.kwNot, .kwIn]
  | .add => [.plus] | .sub => [.minus] | .mul => [.star] | .div => [.slash]

theorem BinaryOp.kinds_ne_nil (op : BinaryOp) : op.kinds ≠ [] := by cases op <;> simp [kinds]

namespace Grammar

open Parse Shape TokenStream

/-! ### Names -/

/-- Identifiers with `::` between them. -/
inductive Path : List Token → List Identifier → Prop
  | one {name : Token} (hname : name.kind = .identifier) : Path [name] [identifierOf name]
  | more {name separator : Token} {tokens names} (hname : name.kind = .identifier)
    (hseparator : separator.kind = .moduleSep) (hnames : Path tokens names) :
    Path (name :: separator :: tokens) (identifierOf name :: names)

/-- The name of an operator or a function; it goes on as far as it can. -/
def EntityAt : Shape Entity := fun _ taken ahead entity =>
  Path taken entity.segments ∧ firstKind ahead ≠ .moduleSep ∧
    entity.span = ((entity.segments.head?.map (·.span)).getD Span.zero).through (endOf taken)

/-- A step of a field path. -/
inductive Step : List Token → FieldSegment → Prop
  | plain {name : Token} (hname : name.kind = .identifier) :
    Step [name] ⟨identifierOf name, false⟩
  | optional {name mark : Token} (hname : name.kind = .identifier)
    (hmark : mark.kind = .question) : Step [name, mark] ⟨identifierOf name, true⟩

/-- Steps with dots between them. -/
inductive Steps : List Token → List FieldSegment → Prop
  | one {tokens segment} (hstep : Step tokens segment) : Steps tokens [segment]
  | more {tokens : List Token} {dot : Token} {others segment segments}
    (hstep : Step tokens segment) (hdot : dot.kind = .dot) (hsteps : Steps others segments) :
    Steps (tokens ++ dot :: others) (segment :: segments)

/-- What can be assigned to. -/
inductive SelectorOf : List Token → Selector → Prop
  | metadata {sign name : Token} (hsign : sign.kind = .atSign)
    (hname : name.kind = .identifier) :
    SelectorOf [sign, name] (.metadata ⟨identifierOf name, sign.span.through name.span⟩)
  | root {this : Token} (hthis : this.kind = .kwThis) :
    SelectorOf [this] (.field ⟨true, [], this.span⟩)
  | rooted {this dot : Token} {steps segments} (hthis : this.kind = .kwThis)
    (hdot : dot.kind = .dot) (hsteps : Steps steps segments) :
    SelectorOf (this :: dot :: steps)
      (.field ⟨true, segments, this.span.through (endOf (this :: dot :: steps))⟩)
  | path {first : Token} {steps segments} (hsteps : Steps (first :: steps) segments) :
    SelectorOf (first :: steps)
      (.field ⟨false, segments, first.span.through (endOf (first :: steps))⟩)

/-- Whether an identifier and an arrow are next. -/
def ArrowAhead (ahead : List Token) : Prop :=
  firstKind ahead = .identifier ∧ secondKind ahead = .fatArrow

/-- Whether the next token is an identifier that is called. -/
def CallAhead (ahead : List Token) : Prop :=
  firstKind ahead = .identifier ∧ (secondKind ahead = .moduleSep ∨ secondKind ahead = .lParen)

section

variable (nested : Nested)

/-! ### Arguments -/

/-- A selector, an equals sign and an expression. -/
inductive AssignmentAt : Shape (Selector × Expr)
  | intro {before target sign tokens ahead selector value}
    (htarget : SelectorOf target selector) (hsign : sign.kind = .assign)
    (hvalue : nested _ (.expression 0) (before ++ target ++ [sign]) tokens ahead value) :
    AssignmentAt before (target ++ sign :: tokens) ahead (selector, value)

/-- An argument of an operator or a function. -/
inductive ArgumentAt : Shape Argument
  | named {before taken ahead target value}
    (hassignment : AssignmentAt nested before taken ahead (target, value)) :
    ArgumentAt before taken ahead (.named target value (target.span.through value.span))
  | positional {before taken ahead value}
    (hvalue : nested _ (.expression 0) before taken ahead value) :
    ArgumentAt before taken ahead (.positional value)

/-- The arguments of a call, with their parentheses. -/
inductive CallArgumentsAt : Shape (List Argument)
  | intro {before opener tokens ahead arguments} (hopener : opener.kind = .lParen)
    (harguments : nested _ (.arguments opener) (before ++ [opener]) tokens ahead arguments) :
    CallArgumentsAt before (opener :: tokens) ahead arguments

/-- The name and the arguments of a call. -/
inductive CallAt : Shape (Entity × List Argument)
  | intro {before name tokens ahead function arguments}
    (hname : EntityAt before name (tokens ++ ahead) function)
    (harguments : CallArgumentsAt nested (before ++ name) tokens ahead arguments) :
    CallAt before (name ++ tokens) ahead (function, arguments)

/-! ### Operands -/

/-- The expression of a replacement, which takes all of its tokens. -/
inductive ReplacementOf : List Token → Expr → Prop
  | intro {leading tokens trailing value} (hleading : Newlines leading)
    (hvalue : nested _ (.expression 0) leading tokens trailing value)
    (htrailing : Newlines trailing) : ReplacementOf (leading ++ (tokens ++ trailing)) value

/-- The tree of a piece of a format string. -/
inductive SegmentOf : FormatPiece → Segment → Prop
  | text {raw span} :
    SegmentOf (.text raw span)
      (.text (String.ofList raw) (String.ofList (Utf8.decode (Escape.decodeFormat raw))) span)
  | replacement {inner innerSpan span tokens value}
    (htokens : (Scanner.within inner innerSpan).tokens? = .ok tokens)
    (hvalue : ReplacementOf nested (TokenStream.ofTokens tokens).rest value) :
    SegmentOf (.replacement inner innerSpan span) (.replacement value span)

/-- The trees of the pieces of a format string. -/
inductive SegmentsOf : List FormatPiece → List Segment → Prop
  | nil : SegmentsOf [] []
  | cons {piece pieces segment segments} (hsegment : SegmentOf nested piece segment)
    (hsegments : SegmentsOf pieces segments) :
    SegmentsOf (piece :: pieces) (segment :: segments)

/-- An operand without what is written behind it. -/
inductive PrimaryAt : Shape Expr
  | literal {before : List Token} {token : Token} {ahead value}
    (hvalue : Literal.ofText? token.kind token.text = some value) :
    PrimaryAt before [token] ahead (.literal value token.span)
  | format {before : List Token} {token : Token} {ahead pieces segments}
    (htoken : token.kind = .formatString) (hpieces : token.formatPieces = .ok pieces)
    (hsegments : SegmentsOf nested pieces segments) :
    PrimaryAt before [token] ahead (.format segments token.span)
  | call {before taken ahead function arguments}
    (hcall : CallAt nested before taken ahead (function, arguments)) :
    PrimaryAt before taken ahead
      (.call function arguments (function.span.through (endOf taken)))
  | name {before : List Token} {token : Token} {ahead} (htoken : token.kind = .identifier)
    (hcall : ¬ CallAhead (token :: ahead)) :
    PrimaryAt before [token] ahead (nameOrPlaceholder token)
  | dollar {before : List Token} {token : Token} {ahead} (htoken : token.kind = .dollarVar) :
    PrimaryAt before [token] ahead (.variable (variableName token) token.span)
  | this {before : List Token} {token : Token} {ahead} (htoken : token.kind = .kwThis) :
    PrimaryAt before [token] ahead (.this token.span)
  | metadata {before : List Token} {sign name : Token} {ahead}
    (hsign : sign.kind = .atSign) (hname : name.kind = .identifier) :
    PrimaryAt before [sign, name] ahead
      (.metadata ⟨identifierOf name, sign.span.through name.span⟩ sign.span)
  | list {before : List Token} {opener closer : Token} {tokens ahead items}
    (hopener : opener.kind = .lBracket) (hcloser : closer.kind = .rBracket)
    (hitems : nested _ .listItems (before ++ [opener]) tokens (closer :: ahead) items) :
    PrimaryAt before (opener :: (tokens ++ [closer])) ahead
      (.list items (opener.span.through closer.span))
  | record {before : List Token} {opener closer : Token} {tokens ahead items}
    (hopener : opener.kind = .lBrace) (hcloser : closer.kind = .rBrace)
    (hitems : nested _ .recordItems (before ++ [opener]) tokens (closer :: ahead) items) :
    PrimaryAt before (opener :: (tokens ++ [closer])) ahead
      (.record items (opener.span.through closer.span))
  | paren {before : List Token} {opener closer : Token} {leading tokens trailing ahead inner}
    (hopener : opener.kind = .lParen) (hcloser : closer.kind = .rParen)
    (hleading : Newlines leading) (htrailing : Newlines trailing)
    (hinner : nested _ (.expression 0) (before ++ [opener] ++ leading) tokens
      (trailing ++ closer :: ahead) inner) :
    PrimaryAt before (opener :: (leading ++ tokens ++ trailing ++ [closer])) ahead
      (.paren inner (opener.span.through closer.span))

/-- What is written behind an operand. -/
inductive SuffixAt : Shape Suffix
  | member {before : List Token} {dot name : Token} {ahead} (hdot : dot.kind = .dot)
    (hname : name.kind = .identifier) (hcall : ¬ CallAhead (name :: ahead)) :
    SuffixAt before [dot, name] ahead (.member (identifierOf name) none name.span)
  | memberBehind {before : List Token} {dot name mark : Token} {ahead}
    (hdot : dot.kind = .dot) (hname : name.kind = .identifier) (hmark : mark.kind = .question) :
    SuffixAt before [dot, name, mark] ahead
      (.member (identifierOf name) (some .behind) mark.span)
  | memberAhead {before : List Token} {dot name : Token} {ahead}
    (hdot : dot.kind = .dotQuestion) (hname : name.kind = .identifier) :
    SuffixAt before [dot, name] ahead (.member (identifierOf name) (some .ahead) name.span)
  | call {before : List Token} {dot : Token} {tokens ahead function arguments}
    (hdot : dot.kind = .dot)
    (hcall : CallAt nested (before ++ [dot]) tokens ahead (function, arguments)) :
    SuffixAt before (dot :: tokens) ahead (.call function arguments (endOf (dot :: tokens)))
  | index {before : List Token} {opener closer : Token} {leading tokens trailing ahead key}
    (hopener : opener.kind = .lBracket) (hcloser : closer.kind = .rBracket)
    (hleading : Newlines leading) (htrailing : Newlines trailing)
    (hkey : nested _ (.expression 0) (before ++ [opener] ++ leading) tokens
      (trailing ++ closer :: ahead) key) :
    SuffixAt before (opener :: (leading ++ tokens ++ trailing ++ [closer])) ahead
      (.index key false closer.span)
  | optionalIndex {before : List Token} {opener closer mark : Token}
    {leading tokens trailing ahead key}
    (hopener : opener.kind = .lBracket) (hcloser : closer.kind = .rBracket)
    (hmark : mark.kind = .question)
    (hleading : Newlines leading) (htrailing : Newlines trailing)
    (hkey : nested _ (.expression 0) (before ++ [opener] ++ leading) tokens
      (trailing ++ closer :: mark :: ahead) key) :
    SuffixAt before (opener :: (leading ++ tokens ++ trailing ++ [closer, mark])) ahead
      (.index key true mark.span)

/-- An operand with all of its suffixes. -/
inductive SuffixedAt : Shape Expr
  | intro {before tokens others ahead receiver suffixes}
    (hreceiver : PrimaryAt nested before tokens (others ++ ahead) receiver)
    (hsuffixes : Many (SuffixAt nested) (before ++ tokens) others ahead suffixes)
    (hend : firstKind ahead ∉ suffixOpeners) :
    SuffixedAt before (tokens ++ others) ahead (suffixes.foldl Suffix.apply receiver)

/-! ### Operators -/

/-- An operand of binary operators. -/
inductive OperandAt : Shape Expr
  | unary {before : List Token} {opener : Token} {tokens ahead op operand}
    (hopener : unaryOp? opener.kind = some op)
    (hoperand : nested _ (.expression op.precedence) (before ++ [opener]) tokens ahead operand) :
    OperandAt before (opener :: tokens) ahead
      (.unary op operand (opener.span.through operand.span))
  | lambda {before : List Token} {parameter arrow : Token} {leading tokens ahead body}
    (hparameter : parameter.kind = .identifier) (harrow : arrow.kind = .fatArrow)
    (hleading : Newlines leading)
    (hbody : nested _ (.expression lambdaPrecedence) (before ++ [parameter, arrow] ++ leading)
      tokens ahead body) :
    OperandAt before (parameter :: arrow :: (leading ++ tokens)) ahead
      (.lambda (identifierOf parameter) body (parameter.span.through body.span))
  | plain {before tokens ahead operand} (hop : unaryOp? (firstKind (tokens ++ ahead)) = none)
    (harrow : ¬ ArrowAhead (tokens ++ ahead))
    (hoperand : SuffixedAt nested before tokens ahead operand) :
    OperandAt before tokens ahead operand

/-- The operator that is next, if its precedence is at least `least`. -/
def operatorAhead? (least : Nat) (ahead : List Token) : Option (BinaryOp × Nat) :=
  (binaryOp? (firstKind ahead) (secondKind ahead)).filter fun (op, _) => least ≤ op.precedence

/-- An operator and its right operand. -/
inductive LinkAt (least : Nat) : Shape (BinaryOp × Expr)
  | intro {before sign leading tokens ahead op right} (hsign : sign.map (·.kind) = op.kinds)
    (hleast : least ≤ op.precedence) (hleading : Newlines leading)
    (hright : nested _ (.expression (op.precedence + 1)) (before ++ sign ++ leading) tokens ahead
      right) :
    LinkAt least before (sign ++ leading ++ tokens) ahead (op, right)

/-- Operands with operators of a precedence of at least `least` between them. -/
inductive ChainAt (least : Nat) : Shape Expr
  | intro {before tokens others ahead first links}
    (hfirst : OperandAt nested before tokens (others ++ ahead) first)
    (hlinks : Many (LinkAt nested least) (before ++ tokens) others ahead links)
    (hend : operatorAhead? least ahead = none) :
    ChainAt least before (tokens ++ others) ahead (links.foldl join first)

/-! ### Items between brackets -/

/-- A comma and the line ends around it, or line ends alone. -/
inductive Comma : Shape Bool
  | absent {before newlines ahead} (hnewlines : Newlines newlines) :
    Comma before newlines ahead false
  | present {before leading comma trailing ahead found} (hleading : Newlines leading)
    (hcomma : comma.kind = .comma) (htrailing : Newlines trailing) :
    Comma before (leading ++ comma :: trailing) ahead found

/-- Items between brackets, with commas between them. -/
inductive ItemsAt {α : Type} (item : Shape α) : Shape (List α)
  | none {before newlines ahead} (hnewlines : Newlines newlines) :
    ItemsAt item before newlines ahead []
  | some {before newlines tokens ahead items} (hnewlines : Newlines newlines)
    (hitems : Series item Comma (before ++ newlines) tokens ahead items) :
    ItemsAt item before (newlines ++ tokens) ahead items

/-- An item of a list. -/
inductive ListItemAt : Shape ListItem
  | spread {before : List Token} {ellipsis : Token} {tokens ahead value}
    (hellipsis : ellipsis.kind = .ellipsis)
    (hvalue : nested _ (.expression 0) (before ++ [ellipsis]) tokens ahead value) :
    ListItemAt before (ellipsis :: tokens) ahead
      (.spread value (ellipsis.span.through value.span))
  | item {before tokens ahead value}
    (hvalue : nested _ (.expression 0) before tokens ahead value) :
    ListItemAt before tokens ahead (.item value)

/-- The key of a field of a record. -/
inductive KeyOf : Token → RecordKey → Prop
  | identifier {name : Token} (hname : name.kind = .identifier) :
    KeyOf name (.identifier (identifierOf name))
  | string {token : Token} {value} (htoken : token.kind = .string)
    (hvalue : StringLiteral.read? token.text = some value) : KeyOf token (.string value)

/-- An item of a record. -/
inductive RecordItemAt : Shape RecordItem
  | spread {before : List Token} {ellipsis : Token} {tokens ahead value}
    (hellipsis : ellipsis.kind = .ellipsis)
    (hvalue : nested _ (.expression 0) (before ++ [ellipsis]) tokens ahead value) :
    RecordItemAt before (ellipsis :: tokens) ahead
      (.spread value (ellipsis.span.through value.span))
  | field {before : List Token} {name colon : Token} {leading tokens ahead key value}
    (hkey : KeyOf name key) (hcolon : colon.kind = .colon) (hleading : Newlines leading)
    (hvalue : nested _ (.expression 0) (before ++ [name, colon] ++ leading) tokens ahead value) :
    RecordItemAt before (name :: colon :: (leading ++ tokens)) ahead
      (.field key value (name.span.through value.span))

/-- The arguments of a call behind their opening parenthesis, with the closing one. -/
inductive ArgumentsBehindAt : Shape (List Argument)
  | intro {before : List Token} {tokens closer ahead arguments} (hcloser : closer.kind = .rParen)
    (harguments : ItemsAt (ArgumentAt nested) before tokens (closer :: ahead) arguments) :
    ArgumentsBehindAt before (tokens ++ [closer]) ahead arguments

/-! ### Statements -/

/-- A binding of a variable. -/
inductive LetAt : Shape Statement
  | intro {before : List Token} {keyword name sign : Token} {tokens ahead value}
    (hkeyword : keyword.kind = .kwLet) (hname : name.kind = .dollarVar)
    (hsign : sign.kind = .assign)
    (hvalue : nested _ (.expression 0) (before ++ [keyword, name, sign]) tokens ahead value) :
    LetAt before (keyword :: name :: sign :: tokens) ahead
      (.letBinding ⟨variableName name, name.span⟩ value (keyword.span.through value.span))

/-- A conditional. -/
inductive ConditionalAt : Shape Conditional
  | absent {before : List Token} {keyword : Token} {tokens others ahead condition consequence}
    (hkeyword : keyword.kind = .kwIf)
    (hcondition : nested _ (.expression 0) (before ++ [keyword]) tokens (others ++ ahead)
      condition)
    (hconsequence : nested _ .block (before ++ [keyword] ++ tokens) others ahead consequence)
    (helse : firstKind ahead ≠ .kwElse) :
    ConditionalAt before (keyword :: (tokens ++ others)) ahead
      ⟨condition, consequence, .absent, keyword.span.through consequence.span⟩
  | conditional {before : List Token}
    {keyword word : Token} {tokens others rest ahead condition consequence inner}
    (hkeyword : keyword.kind = .kwIf) (hword : word.kind = .kwElse)
    (hcondition : nested _ (.expression 0) (before ++ [keyword]) tokens
      (others ++ word :: rest ++ ahead) condition)
    (hconsequence : nested _ .block (before ++ [keyword] ++ tokens) others
      (word :: rest ++ ahead) consequence)
    (hinner : nested _ .conditional (before ++ [keyword] ++ tokens ++ others ++ [word]) rest ahead
      inner) :
    ConditionalAt before (keyword :: (tokens ++ others ++ word :: rest)) ahead
      ⟨condition, consequence, .conditional inner, keyword.span.through inner.span⟩
  | block {before : List Token}
    {keyword word : Token} {tokens others rest ahead condition consequence inner}
    (hkeyword : keyword.kind = .kwIf) (hword : word.kind = .kwElse)
    (hcondition : nested _ (.expression 0) (before ++ [keyword]) tokens
      (others ++ word :: rest ++ ahead) condition)
    (hconsequence : nested _ .block (before ++ [keyword] ++ tokens) others
      (word :: rest ++ ahead) consequence)
    (hinner : nested _ .block (before ++ [keyword] ++ tokens ++ others ++ [word]) rest ahead
      inner) :
    ConditionalAt before (keyword :: (tokens ++ others ++ word :: rest)) ahead
      ⟨condition, consequence, .block inner, keyword.span.through inner.span⟩

/-- A selection. -/
inductive SelectionAt : Shape Statement
  | intro {before : List Token} {keyword opener closer : Token}
    {tokens leading others ahead subject arms}
    (hkeyword : keyword.kind = .kwMatch) (hopener : opener.kind = .lBrace)
    (hcloser : closer.kind = .rBrace) (hleading : Newlines leading)
    (hsubject : nested _ (.expression 0) (before ++ [keyword]) tokens
      (opener :: (leading ++ others ++ closer :: ahead)) subject)
    (harms : nested _ (.arms opener) (before ++ [keyword] ++ tokens ++ [opener] ++ leading) others
      (closer :: ahead) arms) :
    SelectionAt before (keyword :: (tokens ++ opener :: (leading ++ others ++ [closer]))) ahead
      (.selection subject arms (keyword.span.through closer.span))

/-- A comma and the line ends behind it, or nothing. -/
inductive CommaBehind : Shape Bool
  | absent {before ahead} (hcomma : firstKind ahead ≠ .comma) : CommaBehind before [] ahead false
  | present {before comma newlines ahead} (hcomma : comma.kind = .comma)
    (hnewlines : Newlines newlines) : CommaBehind before (comma :: newlines) ahead true

/-- Arguments in parentheses behind which the invocation ends. -/
inductive ParenthesizedAt : Shape (List Argument)
  | intro {before taken ahead arguments}
    (harguments : CallArgumentsAt nested before taken ahead arguments)
    (hend : firstKind ahead ∈ invocationClosers) :
    ParenthesizedAt before taken ahead arguments

/-- One or more arguments without parentheses around them. Behind a single argument in
parentheses an invocation does not end, since they would hold all arguments. -/
inductive BareAt : Shape (List Argument)
  | intro {before taken ahead arguments}
    (harguments : Series (ArgumentAt nested) CommaBehind before taken ahead arguments)
    (hparen : ∀ inner span, arguments = [.positional (.paren inner span)] →
      firstKind ahead ∉ invocationClosers) :
    BareAt before taken ahead arguments

/-- The arguments behind the name of an operator. -/
inductive OperatorArgumentsAt : Shape (List Argument × Bool)
  | parenthesized {before taken ahead arguments}
    (harguments : ParenthesizedAt nested before taken ahead arguments) :
    OperatorArgumentsAt before taken ahead (arguments, true)
  | none {before ahead} (hnone : startsArgument (firstKind ahead) → firstKind ahead = .lBrace) :
    OperatorArgumentsAt before [] ahead ([], false)
  | bare {before taken ahead arguments}
    (harguments : BareAt nested before taken ahead arguments) :
    OperatorArgumentsAt before taken ahead (arguments, false)

/-- The block of an operator, and the arguments behind it. -/
inductive OperatorBlockAt : Shape (Option Pipeline × List Argument)
  | none {before ahead} (hbrace : firstKind ahead ≠ .lBrace) :
    OperatorBlockAt before [] ahead (none, [])
  | alone {before : List Token} {opener closer : Token} {leading tokens ahead body}
    (hopener : opener.kind = .lBrace) (hcloser : closer.kind = .rBrace)
    (hleading : Newlines leading)
    (hbody : nested _ (.pipeline opener) (before ++ [opener] ++ leading) tokens (closer :: ahead)
      body)
    (hcomma : firstKind ahead ≠ .comma) :
    OperatorBlockAt before (opener :: (leading ++ tokens ++ [closer])) ahead (some body, [])
  | parenthesized {before : List Token} {opener closer comma : Token}
    {leading tokens newlines others ahead body arguments}
    (hopener : opener.kind = .lBrace) (hcloser : closer.kind = .rBrace)
    (hcomma : comma.kind = .comma) (hleading : Newlines leading) (hnewlines : Newlines newlines)
    (hbody : nested _ (.pipeline opener) (before ++ [opener] ++ leading) tokens
      (closer :: comma :: (newlines ++ others ++ ahead)) body)
    (harguments : ParenthesizedAt nested
      (before ++ [opener] ++ leading ++ tokens ++ [closer, comma] ++ newlines) others ahead
      arguments) :
    OperatorBlockAt before
      (opener :: (leading ++ tokens ++ closer :: comma :: (newlines ++ others))) ahead
      (some body, arguments)
  | bare {before : List Token} {opener closer comma : Token}
    {leading tokens newlines others ahead body arguments}
    (hopener : opener.kind = .lBrace) (hcloser : closer.kind = .rBrace)
    (hcomma : comma.kind = .comma) (hleading : Newlines leading) (hnewlines : Newlines newlines)
    (hbody : nested _ (.pipeline opener) (before ++ [opener] ++ leading) tokens
      (closer :: comma :: (newlines ++ others ++ ahead)) body)
    (harguments : BareAt nested
      (before ++ [opener] ++ leading ++ tokens ++ [closer, comma] ++ newlines) others ahead
      arguments) :
    OperatorBlockAt before
      (opener :: (leading ++ tokens ++ closer :: comma :: (newlines ++ others))) ahead
      (some body, arguments)

/-- An invocation of an operator. -/
inductive InvocationAt : Shape Statement
  | intro {before name tokens others ahead operator arguments parenthesized block trailing}
    (hname : EntityAt before name (tokens ++ others ++ ahead) operator)
    (harguments : OperatorArgumentsAt nested (before ++ name) tokens (others ++ ahead)
      (arguments, parenthesized))
    (hblock : OperatorBlockAt nested (before ++ name ++ tokens) others ahead (block, trailing)) :
    InvocationAt before (name ++ tokens ++ others) ahead
      (.invocation operator arguments parenthesized block trailing
        (operator.span.through (endOf (name ++ tokens ++ others))))

/-- A statement. -/
inductive StatementAt : Shape Statement
  | letBinding {before taken ahead statement} (hlet : LetAt nested before taken ahead statement) :
    StatementAt before taken ahead statement
  | conditional {before taken ahead inner}
    (hinner : ConditionalAt nested before taken ahead inner) :
    StatementAt before taken ahead (.conditional inner)
  | selection {before taken ahead statement}
    (hselection : SelectionAt nested before taken ahead statement) :
    StatementAt before taken ahead statement
  | assignment {before taken ahead target value}
    (hassignment : AssignmentAt nested before taken ahead (target, value)) :
    StatementAt before taken ahead (.assignment target value (target.span.through value.span))
  | invocation {before taken ahead statement}
    (hinvocation : InvocationAt nested before taken ahead statement) :
    StatementAt before taken ahead statement

/-- What separates statements; something must, except before `closer`. -/
inductive Separator (closer : TokenKind) : Shape Bool
  | last {before taken ahead} (htaken : ∀ token ∈ taken, token.kind ∈ [.newline, .pipe])
    (hcloser : firstKind ahead = closer) : Separator closer before taken ahead false
  | more {before taken ahead} (htaken : ∀ token ∈ taken, token.kind ∈ [.newline, .pipe])
    (hsome : taken ≠ []) : Separator closer before taken ahead true

/-- Statements up to a closing brace. -/
inductive PipelineAt : Shape Pipeline
  | intro {before taken ahead statements span}
    (hstatements : Series (StatementAt nested) (Separator .rBrace) before taken ahead
      statements) (hspan : Pipeline.ofStatements? statements = some ⟨statements, span⟩) :
    PipelineAt before taken ahead ⟨statements, span⟩

/-- A block. -/
inductive BlockAt : Shape Block
  | empty {before : List Token} {opener closer : Token} {leading ahead}
    (hopener : opener.kind = .lBrace) (hcloser : closer.kind = .rBrace)
    (hleading : Newlines leading) :
    BlockAt before (opener :: (leading ++ [closer])) ahead
      ⟨none, opener.span.through closer.span⟩
  | body {before : List Token} {opener closer : Token} {leading tokens ahead body}
    (hopener : opener.kind = .lBrace) (hcloser : closer.kind = .rBrace)
    (hleading : Newlines leading)
    (hbody : PipelineAt nested (before ++ [opener] ++ leading) tokens (closer :: ahead) body) :
    BlockAt before (opener :: (leading ++ tokens ++ [closer])) ahead
      ⟨some body, opener.span.through closer.span⟩

/-- The pattern of an arm. -/
inductive PatternAt : Shape Expr
  | name {before taken ahead pattern} (harrow : ArrowAhead (taken ++ ahead))
    (hpattern : PrimaryAt nested before taken ahead pattern) :
    PatternAt before taken ahead pattern
  | expression {before taken ahead pattern} (harrow : ¬ ArrowAhead (taken ++ ahead))
    (hpattern : nested _ (.expression 0) before taken ahead pattern) :
    PatternAt before taken ahead pattern

/-- An arm of a selection. -/
inductive ArmAt : Shape Arm
  | intro {before : List Token} {arrow opener closer : Token}
    {tokens leading others ahead patterns body}
    (harrow : arrow.kind = .fatArrow) (hopener : opener.kind = .lBrace)
    (hcloser : closer.kind = .rBrace) (hleading : Newlines leading)
    (hpatterns : Series (PatternAt nested) CommaBehind before tokens
      (arrow :: opener :: (leading ++ others ++ closer :: ahead)) patterns)
    (hbody : nested _ (.pipeline opener) (before ++ tokens ++ [arrow, opener] ++ leading) others
      (closer :: ahead) body) :
    ArmAt before (tokens ++ arrow :: opener :: (leading ++ others ++ [closer])) ahead
      ⟨patterns, body, ((patterns.head?.map (·.span)).getD opener.span).through closer.span⟩

/-- What separates arms. -/
inductive ArmSeparator : Shape Bool
  | last {before taken ahead} (htaken : ∀ token ∈ taken, token.kind ∈ [.newline, .comma])
    (hcloser : firstKind ahead = .rBrace) : ArmSeparator before taken ahead false
  | more {before taken ahead} (htaken : ∀ token ∈ taken, token.kind ∈ [.newline, .comma]) :
    ArmSeparator before taken ahead true

/-- The arms behind the opening brace of a selection, up to its closing brace. -/
inductive ArmsBehindAt : Shape (List Arm)
  | none {before ahead} : ArmsBehindAt before [] ahead []
  | some {before taken ahead arms}
    (harms : Series (ArmAt nested) ArmSeparator before taken ahead arms) :
    ArmsBehindAt before taken ahead arms

end

end Grammar

open Grammar in
/-- The shape of a nested part, given the shapes of the parts nested in it. -/
def Goal.At (nested : Nested) : {α : Type} → Goal α → Shape α
  | _, .expression least => ChainAt nested least
  | _, .listItems => ItemsAt (ListItemAt nested)
  | _, .recordItems => ItemsAt (RecordItemAt nested)
  | _, .arguments _ => ArgumentsBehindAt nested
  | _, .conditional => ConditionalAt nested
  | _, .block => BlockAt nested
  | _, .arms _ => ArmsBehindAt nested
  | _, .pipeline _ => PipelineAt nested

namespace Grammar

/-- The shapes of nested parts that are nested at most `depth` deep. -/
def nestedTo : (depth : Nat) → Nested
  | 0 => fun _ _ _ _ _ _ => False
  | depth + 1 => fun _ goal => goal.At (nestedTo depth)

end Grammar

end PipelineLang
