import PipelineLang.Proofs.Grammar.StatementSoundness
import PipelineLang.Proofs.Syntax.Pieces
import PipelineLang.Proofs.Token.Place

/-!
# What is read is what has been taken

The words of a tree are those of the tokens that it has been made of, save the tokens that
only separate.

## Main definitions

- `Grammar.separators` — the kinds of the tokens that only separate
- `Grammar.kept` — the words of all other tokens
- `Grammar.Keeps` — the tree of a nested part has the words of its tokens

## Main results

- `Grammar.keeps_of_nestedTo` — nested parts, to any depth
-/

namespace PipelineLang

theorem StringLiteral.text_of_read? {text : String} {value : StringLiteral}
    (h : read? text = some value) : value.text = text := by
  unfold read? at h
  split at h <;>
    (obtain ⟨found, -, rfl⟩ := Option.map_eq_some_iff.mp h
     rfl)

/-- A literal has the kind and the text of its token. -/
theorem Literal.word_of_ofText? {kind : TokenKind} {text : String} {value : Literal}
    (h : ofText? kind text = some value)
    (hspelling : ∀ spelling, kind.spelling? = some spelling → text = spelling) :
    (value.tokenKind, value.text) = (kind, text) := by
  unfold ofText? at h
  split at h
  · obtain rfl := Option.some.inj h
    rw [hspelling "null" rfl]
    rfl
  · obtain rfl := Option.some.inj h
    rw [hspelling "true" rfl]
    rfl
  · obtain rfl := Option.some.inj h
    rw [hspelling "false" rfl]
    rfl
  · obtain rfl := Option.some.inj h
    rfl
  · obtain ⟨found, hfound, rfl⟩ := Option.map_eq_some_iff.mp h
    simp only [Literal.tokenKind, Literal.text, StringLiteral.text_of_read? hfound]
  · obtain rfl := Option.some.inj h
    rfl
  · obtain ⟨found, hfound, rfl⟩ := Option.map_eq_some_iff.mp h
    unfold Subnet.read? at hfound
    split at hfound
    · simp at hfound
    · obtain ⟨bits, -, rfl⟩ := Option.map_eq_some_iff.mp hfound
      rfl
  · obtain rfl := Option.some.inj h
    rfl
  · obtain ⟨found, hfound, rfl⟩ := Option.map_eq_some_iff.mp h
    simp only [Duration.read?, Option.bind_eq_bind, Option.bind_eq_some_iff, Option.pure_def,
      Option.some.injEq] at hfound
    obtain ⟨unit, -, rfl⟩ := hfound
    rfl
  · simp at h

namespace Grammar

open Parse Shape

/-- The kinds of the tokens that only separate. -/
def separators : List TokenKind := [.newline, .comment, .pipe, .comma, .eof]

/-- The words of the tokens that do more than separate. -/
def kept (tokens : List Token) : List Word :=
  (tokens.filter fun token => token.kind ∉ separators).map Token.word

@[simp] theorem kept_nil : kept [] = [] := rfl

@[simp] theorem kept_append (tokens others : List Token) :
    kept (tokens ++ others) = kept tokens ++ kept others := by
  simp [kept]

theorem kept_cons {token : Token} (h : token.kind ∉ separators) (rest : List Token) :
    kept (token :: rest) = token.word :: kept rest := by
  simp [kept, h]

theorem kept_eq_nil {tokens : List Token} (h : ∀ token ∈ tokens, token.kind ∈ separators) :
    kept tokens = [] := by
  simpa [kept] using h

@[simp] theorem kept_newlines {newlines : List Token} (h : Newlines newlines) :
    kept newlines = [] :=
  kept_eq_nil fun token htoken => by
    rw [h token htoken]
    decide

theorem kept_cons_separator {token : Token} (h : token.kind ∈ separators) (rest : List Token) :
    kept (token :: rest) = kept rest := by
  simp [kept, h]

theorem kept_identifier {name : Token} (h : name.kind = .identifier) (rest : List Token) :
    kept (name :: rest) = (identifierOf name).word :: kept rest := by
  rw [kept_cons (by rw [h]; decide), Token.word, h]
  rfl

/-- Whether all of some tokens stand in a source. -/
def Stand (source : List Char) (tokens : List Token) : Prop :=
  ∀ token ∈ tokens, token.StandsIn source

@[simp] theorem stand_nil (source : List Char) : Stand source [] := by simp [Stand]

@[simp] theorem stand_cons {source : List Char} {token : Token} {rest : List Token} :
    Stand source (token :: rest) ↔ token.StandsIn source ∧ Stand source rest :=
  List.forall_mem_cons

@[simp] theorem stand_append {source : List Char} {tokens others : List Token} :
    Stand source (tokens ++ others) ↔ Stand source tokens ∧ Stand source others :=
  List.forall_mem_append

/-- The word of a token whose kind is written in one way only. -/
theorem kept_spelled {source : List Char} {token : Token} {kind : TokenKind} {spelling : String}
    (h : token.StandsIn source) (hkind : token.kind = kind)
    (hspelling : kind.spelling? = some spelling) (hkept : kind ∉ separators) (rest : List Token) :
    kept (token :: rest) = (kind, spelling) :: kept rest := by
  subst hkind
  rw [kept_cons hkept, Token.word, h.spelling spelling hspelling]

theorem kept_dollar {source : List Char} {token : Token} (h : token.StandsIn source)
    (hkind : token.kind = .dollarVar) (rest : List Token) :
    kept (token :: rest) = (.dollarVar, "$" ++ variableName token) :: kept rest := by
  obtain ⟨name, hname⟩ := h.dollar hkind
  have htext : token.text = "$" ++ variableName token := by
    simp [← String.toList_inj, variableName, hname]
  rw [kept_cons (by rw [hkind]; decide), Token.word, hkind, ← htext]

theorem intercalate_nil_eq_flatten (lists : List (List Word)) :
    List.intercalate [] lists = lists.flatten := by
  match lists with
  | [] => rfl
  | [words] => simp
  | words :: other :: rest =>
    rw [List.intercalate_cons_cons, intercalate_nil_eq_flatten (other :: rest), List.append_nil]
    rfl

theorem listWords_source (source : List Char) (arguments : List Argument) :
    Argument.listWords (.source source) arguments =
      (arguments.map (·.words (.source source))).flatten := by
  rw [Argument.listWords, Argument.allWords_eq_map]
  exact intercalate_nil_eq_flatten _

section

variable {source : List Char}

/-! ### Names -/

theorem kept_path {taken : List Token} {names : List Identifier} (h : Path taken names)
    (hstand : Stand source taken) (span : Span) : kept taken = (Entity.mk names span).words := by
  induction h with
  | one hname => rw [kept_identifier hname]; rfl
  | more hname hseparator hnames ih =>
    simp only [stand_cons] at hstand
    obtain ⟨-, hsep, hrest⟩ := hstand
    rw [kept_identifier hname, kept_spelled hsep hseparator rfl (by decide), ih hrest]
    cases hnames <;> simp [Entity.words]

theorem kept_step {taken : List Token} {segment : FieldSegment} (h : Step taken segment)
    (hstand : Stand source taken) : kept taken = segment.words := by
  cases h with
  | plain hname => rw [kept_identifier hname]; rfl
  | optional hname hmark =>
    simp only [stand_cons] at hstand
    rw [kept_identifier hname, kept_spelled hstand.2.1 hmark rfl (by decide)]
    rfl

theorem kept_steps {taken : List Token} {segments : List FieldSegment} (h : Steps taken segments)
    (hstand : Stand source taken) :
    kept taken = List.intercalate [(.dot, ".")] (segments.map (·.words)) := by
  induction h with
  | one hstep => simpa using kept_step hstep hstand
  | more hstep hdot hsteps ih =>
    simp only [stand_append, stand_cons] at hstand
    obtain ⟨hfirst, hsign, hrest⟩ := hstand
    rw [kept_append, kept_step hstep hfirst, kept_spelled hsign hdot rfl (by decide), ih hrest]
    cases hsteps <;> simp [List.intercalate_cons_cons]

theorem kept_selector {taken : List Token} {selector : Selector} (h : SelectorOf taken selector)
    (hstand : Stand source taken) : kept taken = selector.words := by
  cases h with
  | metadata hsign hname =>
    simp only [stand_cons] at hstand
    rw [kept_spelled hstand.1 hsign rfl (by decide), kept_identifier hname]
    rfl
  | root hthis =>
    simp only [stand_cons] at hstand
    rw [kept_spelled hstand.1 hthis rfl (by decide)]
    rfl
  | rooted hthis hdot hsteps =>
    simp only [stand_cons] at hstand
    obtain ⟨hroot, hsign, hrest⟩ := hstand
    rw [kept_spelled hroot hthis rfl (by decide), kept_spelled hsign hdot rfl (by decide),
      kept_steps hsteps hrest]
    cases hsteps <;> simp [Selector.words, FieldSelector.words, List.intercalate_cons_cons]
  | path hsteps => simpa [Selector.words, FieldSelector.words] using kept_steps hsteps hstand

/-! ### Series -/

theorem kept_series {α : Type} {item : Shape α} {again : Shape Bool} {words : α → List Word}
    (hitem : ∀ {before taken ahead a}, item before taken ahead a → Stand source taken →
      kept taken = words a)
    (hagain : ∀ {before taken ahead found}, again before taken ahead found →
      ∀ token ∈ taken, token.kind ∈ separators)
    {before taken ahead : List Token} {items : List α}
    (h : Series item again before taken ahead items) (hstand : Stand source taken) :
    kept taken = (items.map words).flatten := by
  induction h with
  | last h hend =>
    rw [stand_append] at hstand
    rw [kept_append, hitem h hstand.1, kept_eq_nil (hagain hend)]
    simp
  | more h hnext _ ih =>
    rw [stand_append, stand_append] at hstand
    rw [kept_append, kept_append, hitem h hstand.1.1, kept_eq_nil (hagain hnext), ih hstand.2]
    simp

theorem comma_separators {before taken ahead : List Token} {found : Bool}
    (h : Comma before taken ahead found) : ∀ token ∈ taken, token.kind ∈ separators := by
  have hnewline : ∀ {newlines : List Token}, Newlines newlines →
      ∀ token ∈ newlines, token.kind ∈ separators := fun h token htoken => by
    rw [h token htoken]
    decide
  cases h with
  | absent h => exact hnewline h
  | present hleading hcomma htrailing =>
    rw [List.forall_mem_append, List.forall_mem_cons, hcomma]
    exact ⟨hnewline hleading, by decide, hnewline htrailing⟩

theorem commaBehind_separators {before taken ahead : List Token} {found : Bool}
    (h : CommaBehind before taken ahead found) : ∀ token ∈ taken, token.kind ∈ separators := by
  cases h with
  | absent => simp
  | present hcomma hnewlines =>
    rw [List.forall_mem_cons, hcomma]
    refine ⟨by decide, fun token htoken => ?_⟩
    rw [hnewlines token htoken]
    decide

theorem kept_items {α : Type} {item : Shape α} {words : α → List Word}
    (hitem : ∀ {before taken ahead a}, item before taken ahead a → Stand source taken →
      kept taken = words a)
    {before taken ahead : List Token} {items : List α} (h : ItemsAt item before taken ahead items)
    (hstand : Stand source taken) : kept taken = (items.map words).flatten := by
  cases h with
  | none hnewlines => exact kept_newlines hnewlines
  | some hnewlines hitems =>
    rw [stand_append] at hstand
    rw [kept_append, kept_newlines hnewlines, List.nil_append]
    exact kept_series (fun h => hitem h) (fun h => comma_separators h) hitems hstand.2

end

/-! ### Expressions -/

/-- Whether the tree of a nested part has the words of its tokens. -/
def Keeps (source : List Char) : {α : Type} → Goal α → List Token → α → Prop
  | _, .expression _, taken, value => kept taken = value.words (.source source)
  | _, .listItems, taken, items => kept taken = (items.map (·.words (.source source))).flatten
  | _, .recordItems, taken, items => kept taken = (items.map (·.words (.source source))).flatten
  | _, .arguments _, taken, arguments =>
    kept taken = (arguments.map (·.words (.source source))).flatten ++ [(.rParen, ")")]
  | _, .conditional, taken, inner => Spells (inner.pieces (.source source)) (kept taken)
  | _, .block, taken, block => Spells (block.pieces (.source source)) (kept taken)
  | _, .arms _, taken, arms => Spells (Arm.allPieces (.source source) arms) (kept taken)
  | _, .pipeline _, taken, body =>
    Spells (Statement.allPieces (.source source) body.statements) (kept taken)

/-- Whether the trees of all nested parts have the words of their tokens. -/
def KeepsAll (source : List Char) (nested : Nested) : Prop :=
  ∀ ⦃α : Type⦄ ⦃goal : Goal α⦄ ⦃before taken ahead : List Token⦄ ⦃a : α⦄,
    nested α goal before taken ahead a → Stand source taken → Keeps source goal taken a

section

variable {source : List Char} {nested : Nested} (hn : KeepsAll source nested)
  {before taken ahead : List Token}

include hn

theorem kept_expression {least : Nat} {value : Expr}
    (h : nested _ (.expression least) before taken ahead value) (hstand : Stand source taken) :
    kept taken = value.words (.source source) :=
  hn h hstand

theorem kept_assignment {target : Selector} {value : Expr}
    (h : AssignmentAt nested before taken ahead (target, value)) (hstand : Stand source taken) :
    kept taken = target.words ++ (.assign, "=") :: value.words (.source source) := by
  obtain ⟨htarget, hsign, hvalue⟩ := h
  simp only [stand_append, stand_cons] at hstand
  obtain ⟨hfront, hequals, hback⟩ := hstand
  rw [kept_append, kept_selector htarget hfront, kept_spelled hequals hsign rfl (by decide),
    kept_expression hn hvalue hback]

theorem kept_argument {argument : Argument} (h : ArgumentAt nested before taken ahead argument)
    (hstand : Stand source taken) : kept taken = argument.words (.source source) := by
  cases h with
  | named hassignment => exact kept_assignment hn hassignment hstand
  | positional hvalue => exact kept_expression hn hvalue hstand

theorem kept_callArguments {arguments : List Argument}
    (h : CallArgumentsAt nested before taken ahead arguments) (hstand : Stand source taken) :
    kept taken = Argument.operatorWords (.source source) arguments true := by
  obtain ⟨hopener, harguments⟩ := h
  rw [stand_cons] at hstand
  rw [kept_spelled hstand.1 hopener rfl (by decide), hn harguments hstand.2,
    Argument.operatorWords, listWords_source]

theorem kept_call {function : Entity} {arguments : List Argument}
    (h : CallAt nested before taken ahead (function, arguments)) (hstand : Stand source taken) :
    kept taken = function.words ++ Argument.operatorWords (.source source) arguments true := by
  obtain ⟨hname, harguments⟩ := h
  rw [stand_append] at hstand
  rw [kept_append, kept_path hname.1 hstand.1 function.span,
    kept_callArguments hn harguments hstand.2]

theorem kept_primary {value : Expr} (h : PrimaryAt nested before taken ahead value)
    (hstand : Stand source taken) : kept taken = value.words (.source source) := by
  cases h with
  | @literal _ token _ value hvalue =>
    rw [stand_cons] at hstand
    have hword := Literal.word_of_ofText? hvalue hstand.1.spelling
    have hkept : token.kind ∉ separators := by
      rw [← (Prod.mk.inj hword).1]
      cases value with
      | bool value => cases value <;> simp [Literal.tokenKind, separators]
      | _ => simp [Literal.tokenKind, separators]
    rw [kept_cons hkept, Expr.words, hword]
    rfl
  | @format _ token _ pieces segments htoken =>
    rw [stand_cons] at hstand
    have htext : (Style.source source).format segments token.span = token.text := by
      simp only [Style.source, hstand.1.covers.textIn, String.ofList_toList]
    rw [kept_cons (by rw [htoken]; decide), Token.word, htoken, Expr.words, htext]
    rfl
  | call hcall => exact kept_call hn hcall hstand
  | @name _ token _ htoken =>
    rw [kept_identifier htoken, nameOrPlaceholder]
    split
    · next hname =>
      rw [beq_iff_eq] at hname
      simp [Identifier.word, identifierOf, Expr.words, hname]
    · rfl
  | dollar htoken =>
    rw [stand_cons] at hstand
    rw [kept_dollar hstand.1 htoken]
    rfl
  | this htoken =>
    rw [stand_cons] at hstand
    rw [kept_spelled hstand.1 htoken rfl (by decide)]
    rfl
  | metadata hsign hname =>
    rw [stand_cons] at hstand
    rw [kept_spelled hstand.1 hsign rfl (by decide), kept_identifier hname]
    rfl
  | list hopener hcloser hitems =>
    simp only [stand_cons, stand_append, stand_nil, and_true] at hstand
    obtain ⟨hfront, hinner, hback⟩ := hstand
    rw [kept_spelled hfront hopener rfl (by decide), kept_append, hn hitems hinner,
      kept_spelled hback hcloser rfl (by decide), Expr.words, ListItem.allWords_eq_map]
    exact congrArg (fun words => _ :: (words ++ _)) (intercalate_nil_eq_flatten _).symm
  | record hopener hcloser hitems =>
    simp only [stand_cons, stand_append, stand_nil, and_true] at hstand
    obtain ⟨hfront, hinner, hback⟩ := hstand
    rw [kept_spelled hfront hopener rfl (by decide), kept_append, hn hitems hinner,
      kept_spelled hback hcloser rfl (by decide), Expr.words, RecordItem.allWords_eq_map]
    exact congrArg (fun words => _ :: (words ++ _)) (intercalate_nil_eq_flatten _).symm
  | paren hopener hcloser hleading htrailing hinner =>
    simp only [stand_cons, stand_append, stand_nil, and_true] at hstand
    obtain ⟨hfront, ⟨⟨-, hin⟩, -⟩, hback⟩ := hstand
    rw [kept_spelled hfront hopener rfl (by decide), kept_append, kept_append, kept_append,
      kept_newlines hleading, kept_newlines htrailing, kept_expression hn hinner hin,
      kept_spelled hback hcloser rfl (by decide)]
    simp [Expr.words]

theorem kept_suffix {receiver : Expr} {suffix : Suffix} {words : List Word}
    (h : SuffixAt nested before taken ahead suffix) (hstand : Stand source taken)
    (hreceiver : words = receiver.words (.source source)) :
    words ++ kept taken = (suffix.apply receiver).words (.source source) := by
  subst hreceiver
  cases h with
  | member hdot hname =>
    rw [stand_cons] at hstand
    rw [kept_spelled hstand.1 hdot rfl (by decide), kept_identifier hname]
    rfl
  | memberBehind hdot hname hmark =>
    simp only [stand_cons] at hstand
    rw [kept_spelled hstand.1 hdot rfl (by decide), kept_identifier hname,
      kept_spelled hstand.2.2.1 hmark rfl (by decide)]
    rfl
  | memberAhead hdot hname =>
    rw [stand_cons] at hstand
    rw [kept_spelled hstand.1 hdot rfl (by decide), kept_identifier hname]
    rfl
  | call hdot hcall =>
    rw [stand_cons] at hstand
    rw [kept_spelled hstand.1 hdot rfl (by decide), kept_call hn hcall hstand.2]
    rfl
  | index hopener hcloser hleading htrailing hkey =>
    simp only [stand_cons, stand_append, stand_nil, and_true] at hstand
    obtain ⟨hfront, ⟨⟨-, hin⟩, -⟩, hback⟩ := hstand
    rw [kept_spelled hfront hopener rfl (by decide), kept_append, kept_append, kept_append,
      kept_newlines hleading, kept_newlines htrailing, kept_expression hn hkey hin,
      kept_spelled hback hcloser rfl (by decide)]
    simp [Suffix.apply, Expr.words]
  | optionalIndex hopener hcloser hmark hleading htrailing hkey =>
    simp only [stand_cons, stand_append, stand_nil, and_true] at hstand
    obtain ⟨hfront, ⟨⟨-, hin⟩, -⟩, hback, hquestion⟩ := hstand
    rw [kept_spelled hfront hopener rfl (by decide), kept_append, kept_append, kept_append,
      kept_newlines hleading, kept_newlines htrailing, kept_expression hn hkey hin,
      kept_spelled hback hcloser rfl (by decide), kept_spelled hquestion hmark rfl (by decide)]
    simp [Suffix.apply, Expr.words]

theorem kept_suffixes {receiver : Expr} {suffixes : List Suffix} {words : List Word}
    (h : Many (SuffixAt nested) before taken ahead suffixes) (hstand : Stand source taken)
    (hreceiver : words = receiver.words (.source source)) :
    words ++ kept taken = (suffixes.foldl Suffix.apply receiver).words (.source source) := by
  induction h generalizing receiver words with
  | nil =>
    rw [kept_nil, List.append_nil]
    exact hreceiver
  | cons hsuffix _ ih =>
    rw [stand_append] at hstand
    rw [kept_append, ← List.append_assoc]
    exact ih hstand.2 (kept_suffix hn hsuffix hstand.1 hreceiver)

theorem kept_suffixed {value : Expr} (h : SuffixedAt nested before taken ahead value)
    (hstand : Stand source taken) : kept taken = value.words (.source source) := by
  obtain ⟨hreceiver, hsuffixes, -⟩ := h
  rw [stand_append] at hstand
  rw [kept_append]
  exact kept_suffixes hn hsuffixes hstand.2 (kept_primary hn hreceiver hstand.1)

omit hn in
theorem kept_sign {sign : List Token} {op : BinaryOp} (h : sign.map (·.kind) = op.kinds)
    (hstand : Stand source sign) : kept sign = op.words := by
  cases op with
  | isNotIn =>
    obtain ⟨first, rest, rfl, hfirst, hrest⟩ := List.map_eq_cons_iff.mp h
    obtain ⟨second, rest, rfl, hsecond, hnil⟩ := List.map_eq_cons_iff.mp hrest
    obtain rfl := List.map_eq_nil_iff.mp hnil
    simp only [stand_cons] at hstand
    rw [kept_spelled hstand.1 hfirst rfl (by decide),
      kept_spelled hstand.2.1 hsecond rfl (by decide)]
    rfl
  | _ =>
    obtain ⟨token, rest, rfl, hkind, hnil⟩ := List.map_eq_cons_iff.mp h
    obtain rfl := List.map_eq_nil_iff.mp hnil
    rw [stand_cons] at hstand
    exact kept_spelled hstand.1 hkind rfl (by decide) []

omit hn in
theorem kept_unaryOp {opener : Token} {op : UnaryOp} (h : unaryOp? opener.kind = some op)
    (hstand : opener.StandsIn source) (rest : List Token) :
    kept (opener :: rest) = op.word :: kept rest := by
  unfold unaryOp? at h
  split at h
  · next hkind =>
    obtain rfl := Option.some.inj h
    exact kept_spelled hstand hkind rfl (by decide) rest
  · next hkind =>
    obtain rfl := Option.some.inj h
    exact kept_spelled hstand hkind rfl (by decide) rest
  · next hkind =>
    obtain rfl := Option.some.inj h
    exact kept_spelled hstand hkind rfl (by decide) rest
  · next hkind =>
    obtain rfl := Option.some.inj h
    exact kept_spelled hstand hkind rfl (by decide) rest
  · simp at h

theorem kept_operand {value : Expr} (h : OperandAt nested before taken ahead value)
    (hstand : Stand source taken) : kept taken = value.words (.source source) := by
  cases h with
  | unary hopener hoperand =>
    rw [stand_cons] at hstand
    rw [kept_unaryOp hopener hstand.1, hn hoperand hstand.2, Expr.words]
  | lambda hparameter harrow hleading hbody =>
    simp only [stand_cons, stand_append] at hstand
    obtain ⟨-, hsign, -, hin⟩ := hstand
    rw [kept_identifier hparameter, kept_spelled hsign harrow rfl (by decide), kept_append,
      kept_newlines hleading, hn hbody hin]
    rfl
  | plain _ _ hoperand => exact kept_suffixed hn hoperand hstand

theorem kept_links {least : Nat} {left : Expr} {links : List (BinaryOp × Expr)}
    {words : List Word} (h : Many (LinkAt nested least) before taken ahead links)
    (hstand : Stand source taken) (hleft : words = left.words (.source source)) :
    words ++ kept taken = (links.foldl join left).words (.source source) := by
  induction h generalizing left words with
  | nil =>
    rw [kept_nil, List.append_nil]
    exact hleft
  | cons hlink _ ih =>
    obtain ⟨hsign, -, hleading, hright⟩ := hlink
    simp only [stand_append] at hstand
    obtain ⟨⟨⟨hsignStand, -⟩, hin⟩, hback⟩ := hstand
    rw [kept_append, ← List.append_assoc]
    refine ih hback ?_
    rw [kept_append, kept_append, kept_sign hsign hsignStand, kept_newlines hleading,
      hn hright hin, hleft, List.append_nil, ← List.append_assoc]
    rfl

theorem kept_chain {least : Nat} {value : Expr} (h : ChainAt nested least before taken ahead value)
    (hstand : Stand source taken) : kept taken = value.words (.source source) := by
  obtain ⟨hfirst, hlinks, -⟩ := h
  rw [stand_append] at hstand
  rw [kept_append]
  exact kept_links hn hlinks hstand.2 (kept_operand hn hfirst hstand.1)

theorem kept_listItem {item : ListItem} (h : ListItemAt nested before taken ahead item)
    (hstand : Stand source taken) : kept taken = item.words (.source source) := by
  cases h with
  | spread hellipsis hvalue =>
    rw [stand_cons] at hstand
    rw [kept_spelled hstand.1 hellipsis rfl (by decide), hn hvalue hstand.2]
    rfl
  | item hvalue => exact hn hvalue hstand

theorem kept_recordItem {item : RecordItem} (h : RecordItemAt nested before taken ahead item)
    (hstand : Stand source taken) : kept taken = item.words (.source source) := by
  cases h with
  | spread hellipsis hvalue =>
    rw [stand_cons] at hstand
    rw [kept_spelled hstand.1 hellipsis rfl (by decide), hn hvalue hstand.2]
    rfl
  | @field _ name colon _ _ _ key _ hkey hcolon hleading hvalue =>
    simp only [stand_cons, stand_append] at hstand
    obtain ⟨-, hsign, -, hin⟩ := hstand
    have hword : ∀ rest, kept (name :: rest) = key.word :: kept rest := by
      intro rest
      cases hkey with
      | identifier hname => exact kept_identifier hname rest
      | string htoken hread =>
        rw [kept_cons (by rw [htoken]; decide), Token.word, htoken, RecordKey.word,
          StringLiteral.text_of_read? hread]
    rw [hword, kept_spelled hsign hcolon rfl (by decide), kept_append, kept_newlines hleading,
      hn hvalue hin]
    rfl

/-! ### Statements -/

theorem kept_bare {arguments : List Argument} (h : BareAt nested before taken ahead arguments)
    (hstand : Stand source taken) :
    kept taken = Argument.listWords (.source source) arguments := by
  obtain ⟨harguments, -⟩ := h
  rw [listWords_source]
  exact kept_series (fun h => kept_argument hn h) (fun h => commaBehind_separators h) harguments
    hstand

theorem kept_operatorArguments {arguments : List Argument} {parenthesized : Bool}
    (h : OperatorArgumentsAt nested before taken ahead (arguments, parenthesized))
    (hstand : Stand source taken) :
    kept taken = Argument.operatorWords (.source source) arguments parenthesized := by
  cases h with
  | parenthesized harguments =>
    obtain ⟨harguments, -⟩ := harguments
    exact kept_callArguments hn harguments hstand
  | none => rfl
  | bare harguments => exact kept_bare hn harguments hstand

/-- A body between braces, with line ends behind the opening one. -/
theorem spells_braced {opener closer : Token} {leading tokens : List Token} {body : Pipeline}
    (hopener : opener.kind = .lBrace) (hcloser : closer.kind = .rBrace)
    (hleading : Newlines leading)
    (hbody : nested _ (.pipeline opener) before tokens ahead body)
    (hstand : Stand source (opener :: (leading ++ tokens ++ [closer]))) :
    Spells (body.pieces (.source source)) (kept (opener :: (leading ++ tokens ++ [closer]))) := by
  simp only [stand_cons, stand_append, stand_nil, and_true] at hstand
  obtain ⟨hfront, ⟨-, hin⟩, hback⟩ := hstand
  obtain ⟨statements, span⟩ := body
  rw [kept_spelled hfront hopener rfl (by decide), kept_append, kept_append,
    kept_newlines hleading, List.nil_append, kept_spelled hback hcloser rfl (by decide),
    Pipeline.pieces]
  exact .behind [(.lBrace, "\x7b")] ((hn hbody hin).append (spells_ofWords [(.rBrace, "\x7d")]))

/-- Such a body, and arguments behind it. -/
theorem spells_trailing {opener closer comma : Token} {leading tokens newlines others : List Token}
    {body : Pipeline} {arguments : List Argument} (hopener : opener.kind = .lBrace)
    (hcloser : closer.kind = .rBrace) (hcomma : comma.kind = .comma) (hleading : Newlines leading)
    (hnewlines : Newlines newlines) (hbody : nested _ (.pipeline opener) before tokens ahead body)
    (hstand : Stand source
      (opener :: (leading ++ tokens ++ closer :: comma :: (newlines ++ others))))
    (harguments : Stand source others →
      Spells [.trailing (Argument.listWords (.source source) arguments)] (kept others)) :
    Spells (body.pieces (.source source)
        ++ [.trailing (Argument.listWords (.source source) arguments)])
      (kept (opener :: (leading ++ tokens ++ closer :: comma :: (newlines ++ others)))) := by
  have hsplit : opener :: (leading ++ tokens ++ closer :: comma :: (newlines ++ others)) =
      opener :: (leading ++ tokens ++ [closer]) ++ comma :: (newlines ++ others) := by simp
  rw [hsplit, stand_append] at hstand
  obtain ⟨hfront, hback⟩ := hstand
  simp only [stand_cons, stand_append] at hback
  have hkept : kept (comma :: (newlines ++ others)) = kept others := by
    rw [kept_cons_separator (by rw [hcomma]; decide), kept_append, kept_newlines hnewlines,
      List.nil_append]
  rw [hsplit, kept_append _ (comma :: _), hkept]
  exact (spells_braced hn hopener hcloser hleading hbody hfront).append (harguments hback.2.2)

theorem spells_conditional {inner : Conditional}
    (h : ConditionalAt nested before taken ahead inner) (hstand : Stand source taken) :
    Spells (inner.pieces (.source source)) (kept taken) := by
  cases h with
  | absent hkeyword hcondition hconsequence =>
    simp only [stand_cons, stand_append] at hstand
    obtain ⟨hfront, hin, hback⟩ := hstand
    rw [kept_spelled hfront hkeyword rfl (by decide), kept_append, hn hcondition hin,
      Conditional.pieces, Alternative.pieces, List.append_nil]
    exact .behind (_ :: _) (hn hconsequence hback)
  | conditional hkeyword hword hcondition hconsequence hinner =>
    simp only [stand_cons, stand_append] at hstand
    obtain ⟨hfront, ⟨hin, hbody⟩, helse, hback⟩ := hstand
    rw [kept_spelled hfront hkeyword rfl (by decide), kept_append, kept_append,
      hn hcondition hin, kept_spelled helse hword rfl (by decide), List.append_assoc,
      Conditional.pieces, Alternative.pieces]
    exact .behind (_ :: _) ((hn hconsequence hbody).append (.behind [_] (hn hinner hback)))
  | block hkeyword hword hcondition hconsequence hinner =>
    simp only [stand_cons, stand_append] at hstand
    obtain ⟨hfront, ⟨hin, hbody⟩, helse, hback⟩ := hstand
    rw [kept_spelled hfront hkeyword rfl (by decide), kept_append, kept_append,
      hn hcondition hin, kept_spelled helse hword rfl (by decide), List.append_assoc,
      Conditional.pieces, Alternative.pieces]
    exact .behind (_ :: _) ((hn hconsequence hbody).append (.behind [_] (hn hinner hback)))

theorem spells_invocation {statement : Statement}
    (h : InvocationAt nested before taken ahead statement) (hstand : Stand source taken) :
    Spells (statement.pieces (.source source)) (kept taken) := by
  obtain ⟨hname, harguments, hblock⟩ := h
  rw [stand_append, stand_append] at hstand
  obtain ⟨⟨hfront, hin⟩, hback⟩ := hstand
  rw [kept_append, kept_append, kept_path hname.1 hfront _,
    kept_operatorArguments hn harguments hin]
  cases hblock with
  | none =>
    simp only [kept_nil, List.append_nil]
    exact spells_ofWords _
  | alone hopener hcloser hleading hbody =>
    have hbody := spells_braced hn hopener hcloser hleading hbody hback
    rw [← List.append_nil (kept _)]
    exact .behind _ (hbody.append (.bare .nil))
  | parenthesized hopener hcloser hcomma hleading hnewlines hbody htrailing =>
    obtain ⟨htrailing, -⟩ := htrailing
    refine .behind _ (spells_trailing hn hopener hcloser hcomma hleading hnewlines hbody hback ?_)
    intro hothers
    rw [kept_callArguments hn htrailing hothers]
    exact .parenthesized .nil
  | bare hopener hcloser hcomma hleading hnewlines hbody htrailing =>
    refine .behind _ (spells_trailing hn hopener hcloser hcomma hleading hnewlines hbody hback ?_)
    intro hothers
    rw [kept_bare hn htrailing hothers]
    exact spells_bare _

theorem spells_statement {statement : Statement}
    (h : StatementAt nested before taken ahead statement) (hstand : Stand source taken) :
    Spells (statement.pieces (.source source)) (kept taken) := by
  cases h with
  | letBinding hlet =>
    obtain ⟨hkeyword, hname, hsign, hvalue⟩ := hlet
    simp only [stand_cons] at hstand
    obtain ⟨hfront, hdollar, hequals, hback⟩ := hstand
    rw [kept_spelled hfront hkeyword rfl (by decide), kept_dollar hdollar hname,
      kept_spelled hequals hsign rfl (by decide), hn hvalue hback]
    exact spells_ofWords _
  | conditional hinner => exact spells_conditional hn hinner hstand
  | selection hselection =>
    obtain ⟨hkeyword, hopener, hcloser, hleading, hsubject, harms⟩ := hselection
    simp only [stand_cons, stand_append, stand_nil, and_true] at hstand
    obtain ⟨hfront, hin, hbrace, ⟨-, hbody⟩, hback⟩ := hstand
    have harms := hn harms hbody
    rw [kept_spelled hfront hkeyword rfl (by decide), kept_append, hn hsubject hin,
      kept_spelled hbrace hopener rfl (by decide), kept_append, kept_append,
      kept_newlines hleading, List.nil_append, kept_spelled hback hcloser rfl (by decide),
      Statement.pieces, show Piece.ofWords (Style.source source).newline = [] from rfl, ite_self,
      List.append_nil, List.append_cons _ _ (_ ++ _), ← List.cons_append]
    exact .behind _ (harms.append (spells_ofWords [(.rBrace, "\x7d")]))
  | assignment hassignment =>
    rw [kept_assignment hn hassignment hstand]
    exact spells_ofWords _
  | invocation hinvocation => exact spells_invocation hn hinvocation hstand

omit hn in
theorem spells_series {α : Type} {item : Shape α} {again : Shape Bool} {pieces : α → List Piece}
    (hitem : ∀ {before taken ahead a}, item before taken ahead a → Stand source taken →
      Spells (pieces a) (kept taken))
    (hagain : ∀ {before taken ahead found}, again before taken ahead found →
      ∀ token ∈ taken, token.kind ∈ separators)
    {items : List α} (h : Series item again before taken ahead items)
    (hstand : Stand source taken) : Spells (items.flatMap pieces) (kept taken) := by
  induction h with
  | last h hend =>
    rw [stand_append] at hstand
    rw [kept_append, kept_eq_nil (hagain hend)]
    simpa using hitem h hstand.1
  | more h hnext _ ih =>
    rw [stand_append, stand_append] at hstand
    rw [kept_append, kept_append, kept_eq_nil (hagain hnext), List.append_nil, List.flatMap_cons]
    exact (hitem h hstand.1.1).append (ih hstand.2)

omit hn in
theorem separator_separators {closer : TokenKind} {before taken ahead : List Token} {found : Bool}
    (h : Separator closer before taken ahead found) : ∀ token ∈ taken, token.kind ∈ separators := by
  have hkinds : ∀ kind ∈ [TokenKind.newline, .pipe], kind ∈ separators := by decide
  cases h with
  | last htaken | more htaken => exact fun token htoken => hkinds _ (htaken token htoken)

omit hn in
theorem armSeparator_separators {before taken ahead : List Token} {found : Bool}
    (h : ArmSeparator before taken ahead found) : ∀ token ∈ taken, token.kind ∈ separators := by
  have hkinds : ∀ kind ∈ [TokenKind.newline, .comma], kind ∈ separators := by decide
  cases h with
  | last htaken | more htaken => exact fun token htoken => hkinds _ (htaken token htoken)

omit hn in
theorem allPieces_eq_flatMap (statements : List Statement) :
    Statement.allPieces (.source source) statements =
      statements.flatMap (·.pieces (.source source)) := by
  induction statements with
  | nil => rfl
  | cons statement rest ih => rw [Statement.allPieces, ih, List.flatMap_cons]; rfl

omit hn in
theorem armPieces_eq_flatMap (arms : List Arm) :
    Arm.allPieces (.source source) arms = arms.flatMap (·.pieces (.source source)) := by
  induction arms with
  | nil => rfl
  | cons arm rest ih => rw [Arm.allPieces, ih, List.flatMap_cons]

theorem spells_pipeline {closer : TokenKind} {statements : List Statement}
    (h : Series (StatementAt nested) (Separator closer) before taken ahead statements)
    (hstand : Stand source taken) :
    Spells (Statement.allPieces (.source source) statements) (kept taken) := by
  rw [allPieces_eq_flatMap]
  exact spells_series (fun h => spells_statement hn h) (fun h => separator_separators h) h hstand

theorem spells_block {block : Block} (h : BlockAt nested before taken ahead block)
    (hstand : Stand source taken) : Spells (block.pieces (.source source)) (kept taken) := by
  cases h with
  | empty hopener hcloser hleading =>
    simp only [stand_cons, stand_append, stand_nil, and_true] at hstand
    obtain ⟨hfront, -, hback⟩ := hstand
    rw [kept_spelled hfront hopener rfl (by decide), kept_append, kept_newlines hleading,
      List.nil_append, kept_spelled hback hcloser rfl (by decide)]
    exact spells_ofWords _
  | body hopener hcloser hleading hbody =>
    obtain ⟨hstatements⟩ := hbody
    simp only [stand_cons, stand_append, stand_nil, and_true] at hstand
    obtain ⟨hfront, ⟨-, hin⟩, hback⟩ := hstand
    rw [kept_spelled hfront hopener rfl (by decide), kept_append, kept_append,
      kept_newlines hleading, List.nil_append, kept_spelled hback hcloser rfl (by decide),
      Block.pieces, Pipeline.pieces]
    exact .behind [_] ((spells_pipeline hn hstatements hin).append (spells_ofWords [_]))

theorem kept_pattern {pattern : Expr} (h : PatternAt nested before taken ahead pattern)
    (hstand : Stand source taken) : kept taken = pattern.words (.source source) := by
  cases h with
  | name _ hpattern => exact kept_primary hn hpattern hstand
  | expression _ hpattern => exact hn hpattern hstand

theorem spells_arm {arm : Arm} (h : ArmAt nested before taken ahead arm)
    (hstand : Stand source taken) : Spells (arm.pieces (.source source)) (kept taken) := by
  obtain ⟨harrow, hopener, hcloser, hleading, hpatterns, hbody⟩ := h
  rw [stand_append, stand_cons] at hstand
  obtain ⟨hfront, hsign, hback⟩ := hstand
  have hwords := kept_series (fun h => kept_pattern hn h) (fun h => commaBehind_separators h)
    hpatterns hfront
  have hbody := (spells_braced hn hopener hcloser hleading hbody hback).append (spells_ofWords [])
  rw [kept_append, kept_spelled hsign harrow rfl (by decide), ← List.singleton_append,
    ← List.append_assoc, ← List.append_nil (kept (_ :: _)), Arm.pieces, hwords]
  rw [← intercalate_nil_eq_flatten]
  exact .behind _ hbody

omit hn in
theorem keepsAll_succ {depth : Nat} (hn : KeepsAll source (nestedTo depth)) :
    KeepsAll source (nestedTo (depth + 1)) := by
  intro α goal before taken ahead a h hstand
  cases goal with
  | expression least => exact kept_chain hn h hstand
  | listItems => exact kept_items (fun h => kept_listItem hn h) h hstand
  | recordItems => exact kept_items (fun h => kept_recordItem hn h) h hstand
  | arguments opener =>
    obtain ⟨hcloser, harguments⟩ := h
    rw [stand_append, stand_cons] at hstand
    rw [Keeps, kept_append, kept_items (fun h => kept_argument hn h) harguments hstand.1,
      kept_spelled hstand.2.1 hcloser rfl (by decide)]
    rfl
  | conditional => exact spells_conditional hn h hstand
  | block => exact spells_block hn h hstand
  | arms opener =>
    cases h with
    | none => exact .nil
    | some harms =>
      rw [Keeps, armPieces_eq_flatMap]
      exact spells_series (fun h => spells_arm hn h) (fun h => armSeparator_separators h) harms
        hstand
  | pipeline opener =>
    obtain ⟨hstatements⟩ := h
    exact spells_pipeline hn hstatements hstand

end

/-- The tree of a nested part has the words of its tokens. -/
theorem keeps_of_nestedTo (source : List Char) (depth : Nat) :
    KeepsAll source (nestedTo depth) := by
  induction depth with
  | zero => exact fun _ _ _ _ _ _ h => h.elim
  | succ depth ih => exact keepsAll_succ ih

end Grammar

end PipelineLang
