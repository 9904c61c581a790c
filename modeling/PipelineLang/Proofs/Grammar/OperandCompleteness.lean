import PipelineLang.Proofs.Grammar.Everywhere
import PipelineLang.Proofs.Grammar.NameCompleteness

/-!
# Operands are read from their words

## Main definitions

- `Grammar.Clear` — tokens that do not go on with an expression before them
- `Grammar.ReadsBack` — the words of an expression are read as it, but for places

## Main results

- `Grammar.items_takes`, `Grammar.call_takes`, … — one result for each rule, given that
  what is nested in it is read from its words

## Design notes

An expression is an operand with operators behind it, and an operand is a name or
something in brackets with suffixes behind it. Both come apart on the left, where the
tree is deepest, so what is said of an expression says which operand comes first.
-/

namespace PipelineLang

open TokenStream Parse Shape

namespace Grammar

/-! ### What is ahead -/

section

variable {stop : Token} (hstop : stop.kind = .eof)

include hstop

theorem atCall_takes (before ahead : List Token) :
    atCall.Takes stop before [] ahead (firstKind ahead == .identifier &&
      (secondKind ahead == .moduleSep || secondKind ahead == .lParen)) := by
  rw [Takes, List.append_nil]
  exact atCall_eq hstop

theorem atArrow_takes {before ahead : List Token} :
    atArrow.Takes stop before [] ahead
      (firstKind ahead == .identifier && secondKind ahead == .fatArrow) := by
  rw [Takes, List.append_nil]
  exact atArrow_eq hstop

theorem atSuffix_takes {before ahead : List Token} :
    atSuffix.Takes stop before [] ahead (suffixOpeners.contains (firstKind ahead)) := by
  rw [atSuffix]
  exact (peekKind_takes hstop).bind_nil (takes_pure _)

theorem peekOperator_takes (before ahead : List Token) (least : Nat) :
    (peekOperator least).Takes stop before [] ahead (operatorAhead? least ahead) := by
  rw [Takes, List.append_nil]
  exact peekOperator_eq hstop

end

/-- The tokens that would go on with a name, or with a suffix. -/
def touching : List TokenKind := [.moduleSep, .lParen, .question]

/-- Whether tokens do not go on with an expression before them. -/
structure Clear (ahead : List Token) (value : Expr) : Prop where
  ends : EndsBefore ahead value
  suffix : firstKind ahead ∉ suffixOpeners
  touch : firstKind ahead ∉ touching
  /-- An arrow would make a name before it a parameter. -/
  arrow : firstKind ahead = .fatArrow → ¬ value.endsInName

/-- The tokens that stand behind whole expressions. -/
def expressionClosers : List TokenKind :=
  [.newline, .pipe, .comma, .rParen, .rBracket, .rBrace, .lBrace, .eof]

theorem operatorAhead_of_closer {ahead : List Token} (h : firstKind ahead ∈ expressionClosers) :
    operatorAhead ahead = none := by
  simp only [expressionClosers, List.mem_cons, List.not_mem_nil, or_false] at h
  rw [operatorAhead]
  obtain h | h | h | h | h | h | h | h := h <;> rw [h] <;> rfl

theorem clear_of_closer {ahead : List Token} (h : firstKind ahead ∈ expressionClosers)
    (value : Expr) : Clear ahead value where
  ends op hop := by simp [operatorAhead_of_closer h] at hop
  suffix hmem := by
    simp only [suffixOpeners, List.mem_cons, List.not_mem_nil, or_false] at hmem
    obtain hk | hk | hk := hmem <;> simp [hk, expressionClosers] at h
  touch hmem := by
    simp only [touching, List.mem_cons, List.not_mem_nil, or_false] at hmem
    obtain hk | hk | hk := hmem <;> simp [hk, expressionClosers] at h
  arrow hk := by simp [hk, expressionClosers] at h

/-- An operator ahead is looked at only if it binds tightly enough. -/
theorem operatorAhead?_eq_none {least : Nat} {ahead : List Token}
    (h : ∀ op, operatorAhead ahead = some op → op.precedence < least) :
    operatorAhead? least ahead = none := by
  rw [operatorAhead?, Option.filter_eq_none_iff]
  rintro ⟨op, width⟩ hop
  have := h op (by rw [operatorAhead, hop]; rfl)
  simpa using this

/-- The tokens of an operator are looked at as it. -/
theorem operatorAhead?_of_kinds {op : BinaryOp} {least : Nat} {sign : List Token}
    (hsign : sign.map (·.kind) = op.kinds) (hleast : least ≤ op.precedence) (ahead : List Token) :
    operatorAhead? least (sign ++ ahead) = some (op, sign.length) := by
  rw [operatorAhead?, Option.filter_eq_some_iff]
  refine ⟨?_, by simpa using hleast⟩
  cases op with
  | isNotIn =>
    obtain ⟨first, rest, rfl, hfirst, hrest⟩ := List.map_eq_cons_iff.mp hsign
    obtain ⟨second, rfl, hsecond⟩ := List.map_eq_singleton_iff.mp hrest
    simp [hfirst, hsecond, binaryOp?]
  | _ =>
    obtain ⟨token, rfl, htoken⟩ := List.map_eq_singleton_iff.mp hsign
    simp [htoken, binaryOp?]

/-! ### What is read from the words of an expression -/

/-- A suffix that comes where a suffix is looked for. -/
def SuffixTakes (enter : Enter) (stop : Token) : Shape Suffix := fun before taken ahead found =>
  (suffix enter).TakesSome stop before taken ahead found ∧
    suffixOpeners.contains (firstKind (taken ++ ahead)) = true

theorem suffix_notMem_touching {tokens : List Token}
    (h : suffixOpeners.contains (firstKind tokens) = true) : firstKind tokens ∉ touching := by
  rw [List.contains_iff_mem] at h
  intro hmem
  simp only [touching, List.mem_cons, List.not_mem_nil, or_false] at hmem
  obtain hk | hk | hk := hmem <;> simp [hk, suffixOpeners] at h

/-- An operand and some of the suffixes behind it. -/
def SuffixesTake (enter : Enter) (stop : Token) : Shape Expr := fun before taken ahead value =>
  ∃ receiver suffixes tokens others, taken = tokens ++ others ∧
    (primary enter).TakesSome stop before tokens (others ++ ahead) receiver ∧
    Many (SuffixTakes enter stop) (before ++ tokens) others ahead suffixes ∧
    value = suffixes.foldl Suffix.apply receiver

/-- An operator and its right operand, where an operator is looked for. -/
def LinkTakes (enter : Enter) (least : Nat) (stop : Token) : Shape (BinaryOp × Expr) :=
  fun before taken ahead found =>
    (link enter least).TakesSome stop before taken ahead found ∧
      (operatorAhead? least (taken ++ ahead)).isSome = true

/-- An operand and some of the operators behind it. -/
def LinksTake (enter : Enter) (least : Nat) (stop : Token) : Shape Expr :=
  fun before taken ahead value =>
    ∃ first links tokens others, taken = tokens ++ others ∧
      (operand enter).TakesSome stop before tokens (others ++ ahead) first ∧
      Many (LinkTakes enter least stop) (before ++ tokens) others ahead links ∧
      value = links.foldl join first

section

variable {enter : Enter} {least : Nat} {stop : Token} {before taken others ahead : List Token}

theorem SuffixesTake.of_primary {receiver : Expr}
    (h : (primary enter).TakesSome stop before taken ahead receiver) :
    SuffixesTake enter stop before taken ahead receiver :=
  ⟨receiver, [], taken, [], by simp, h, .nil, rfl⟩

theorem SuffixesTake.concat {receiver : Expr} {suffix : Suffix}
    (h : SuffixesTake enter stop before taken (others ++ ahead) receiver)
    (hsuffix : SuffixTakes enter stop (before ++ taken) others ahead suffix) :
    SuffixesTake enter stop before (taken ++ others) ahead (suffix.apply receiver) := by
  obtain ⟨first, suffixes, tokens, rest, rfl, hfirst, hsuffixes, rfl⟩ := h
  exact ⟨first, suffixes ++ [suffix], tokens, rest ++ others, by simp, by simpa using hfirst,
    hsuffixes.concat (by simpa using hsuffix), by rw [List.foldl_concat]⟩

theorem LinksTake.of_operand {value : Expr}
    (h : (operand enter).TakesSome stop before taken ahead value) :
    LinksTake enter least stop before taken ahead value :=
  ⟨value, [], taken, [], by simp, h, .nil, rfl⟩

theorem LinksTake.concat {left : Expr} {found : BinaryOp × Expr}
    (h : LinksTake enter least stop before taken (others ++ ahead) left)
    (hlink : LinkTakes enter least stop (before ++ taken) others ahead found) :
    LinksTake enter least stop before (taken ++ others) ahead (join left found) := by
  obtain ⟨first, links, tokens, rest, rfl, hfirst, hlinks, rfl⟩ := h
  exact ⟨first, links ++ [found], tokens, rest ++ others, by simp, by simpa using hfirst,
    hlinks.concat (by simpa using hlink), by rw [List.foldl_concat]⟩

/-- The suffixes that come are all there are. -/
theorem SuffixesTake.suffixed {value : Expr} (hstop : stop.kind = .eof)
    (h : SuffixesTake enter stop before taken ahead value)
    (hend : firstKind ahead ∉ suffixOpeners) :
    (suffixed enter).TakesSome stop before taken ahead value := by
  obtain ⟨receiver, suffixes, tokens, others, rfl, ⟨hreceiver, hne⟩, hsuffixes, rfl⟩ := h
  have hmany := whenAhead_takes (p := fun ahead => suffixOpeners.contains (firstKind ahead))
    (fun _ _ => atSuffix_takes hstop) hsuffixes (by simpa using hend)
  exact ⟨hreceiver.bind (hmany.bind_pure (takes_pure _)), by simp [hne]⟩

/-- Where no operator and no lambda comes, an operand is read with its suffixes. -/
theorem operand_of_suffixed {value : Expr} (hstop : stop.kind = .eof)
    (h : (suffixed enter).TakesSome stop before taken ahead value)
    (hop : unaryOp? (firstKind (taken ++ ahead)) = none) (harrow : ¬ ArrowAhead (taken ++ ahead)) :
    (operand enter).TakesSome stop before taken ahead value := by
  refine ⟨(peekKind_takes hstop).bind_nil ?_, h.2⟩
  rw [hop]
  refine (atArrow_takes hstop).bind_nil ?_
  rw [if_neg (by simpa [ArrowAhead] using harrow)]
  exact h.1

/-- The operators that come are all there are. -/
theorem LinksTake.chain {value : Expr} (hstop : stop.kind = .eof)
    (h : LinksTake enter least stop before taken ahead value)
    (hend : operatorAhead? least ahead = none) :
    (chain enter least).TakesSome stop before taken ahead value := by
  obtain ⟨first, links, tokens, others, rfl, ⟨hfirst, hne⟩, hlinks, rfl⟩ := h
  have hagain : ∀ before ahead : List Token,
      (return (← peekOperator least).isSome : Parse Bool).Takes stop before [] ahead
        (operatorAhead? least ahead).isSome :=
    fun _ _ => (peekOperator_takes hstop _ _ least).bind_nil (takes_pure _)
  have hmany := whenAhead_takes (p := fun ahead => (operatorAhead? least ahead).isSome) hagain
    hlinks (by simp [hend])
  exact ⟨hfirst.bind (hmany.bind_pure (takes_pure _)), by simp [hne]⟩

end

/-- The words of an expression are read as it, but for places. -/
structure ReadsBack (limit : Nat) (value : Expr) : Prop where
  readable : value.All Expr.Readable
  suffixes : ∀ {stop depth} before {taken} ahead, stop.kind = .eof → value.IsReceiver →
    taken.map Token.word = value.words .layout → value.nesting ≤ depth →
    firstKind ahead ∉ touching →
    ∃ found, SuffixesTake (enterTo limit depth) stop before taken ahead found ∧
      found.unplaced = value.unplaced
  links : ∀ {stop depth least} before {taken} ahead, stop.kind = .eof →
    taken.map Token.word = value.words .layout → value.nesting ≤ depth →
    value.AtLeast least → Clear ahead value →
    ∃ found, LinksTake (enterTo limit depth) least stop before taken ahead found ∧
      found.unplaced = value.unplaced

section

variable {limit depth least : Nat} {stop : Token} (before : List Token) {taken : List Token}
  (ahead : List Token) {value : Expr}

/-- The words of an expression are read as a nested part. -/
theorem ReadsBack.nested (h : ReadsBack limit value) (hstop : stop.kind = .eof)
    (hwords : taken.map Token.word = value.words .layout) (hdepth : value.nesting < depth)
    (hleast : value.AtLeast least) (hclear : Clear ahead value)
    (hend : ∀ op, operatorAhead ahead = some op → op.precedence < least) :
    ∃ found, (enterTo limit depth _ (.expression least)).TakesSome stop before taken ahead found ∧
      found.unplaced = value.unplaced := by
  obtain ⟨depth, rfl⟩ := Nat.exists_eq_add_one_of_ne_zero (Nat.ne_zero_of_lt hdepth)
  obtain ⟨found, hlinks, hfound⟩ := h.links before ahead hstop hwords
    (Nat.lt_succ_iff.mp hdepth) hleast hclear
  exact ⟨found, hlinks.chain hstop (operatorAhead?_eq_none hend), hfound⟩

/-- The words of an expression are read as it before a closing token. -/
theorem ReadsBack.expression (h : ReadsBack limit value) (hstop : stop.kind = .eof)
    (hwords : taken.map Token.word = value.words .layout) (hdepth : value.nesting < depth)
    (hahead : firstKind ahead ∈ expressionClosers) :
    ∃ found, (expression (enterTo limit depth)).TakesSome stop before taken ahead found ∧
      found.unplaced = value.unplaced :=
  h.nested before ahead hstop hwords hdepth (fun _ _ => Nat.zero_le _)
    (clear_of_closer hahead value)
    (by simp [operatorAhead_of_closer hahead])

/-- The words of an expression start with a token that arguments start with. -/
theorem ReadsBack.startsArgument (h : ReadsBack limit value)
    (hwords : taken.map Token.word = value.words .layout) (ahead : List Token) :
    Grammar.startsArgument (firstKind (taken ++ ahead)) := by
  obtain ⟨word, words, hvalue, hstart⟩ := Expr.words_cons .layout
    (h.readable.mono fun _ hreadable => hreadable.2.named)
  rw [hvalue] at hwords
  obtain ⟨token, rest, rfl, rfl, -⟩ := List.map_eq_cons_iff.mp hwords
  exact hstart

theorem ReadsBack.ne_newline (h : ReadsBack limit value)
    (hwords : taken.map Token.word = value.words .layout) (ahead : List Token) :
    firstKind (taken ++ ahead) ≠ .newline := by
  intro hk
  have hstart := h.startsArgument hwords ahead
  rw [hk] at hstart
  exact absurd hstart (by decide)

end

/-! ### Items between brackets -/

/-- The kinds of tokens that do not start an item. -/
def itemClosers : List TokenKind := [.newline, .comma, .rParen, .rBracket, .rBrace, .eof]

theorem notMem_itemClosers_of_startsArgument {kind : TokenKind} (h : startsArgument kind) :
    kind ∉ itemClosers := by
  intro hmem
  simp only [itemClosers, List.mem_cons, List.not_mem_nil, or_false] at hmem
  obtain rfl | rfl | rfl | rfl | rfl | rfl := hmem <;> exact absurd h (by decide)

section

variable {stop : Token} (hstop : stop.kind = .eof)

include hstop

theorem anotherItem_takes {before ahead : List Token} {comma : Token} {closer : TokenKind}
    (hcloser : closer ∈ itemClosers) (hcomma : comma.kind = .comma)
    (hahead : firstKind ahead ∉ itemClosers) :
    (anotherItem closer).Takes stop before [comma] ahead true := by
  have hnewline : firstKind ahead ≠ .newline := fun hk => hahead (by rw [hk]; decide)
  have heof : firstKind ahead ≠ .eof := fun hk => hahead (by rw [hk]; decide)
  have hend : firstKind ahead ≠ closer := fun hk => hahead (by rwa [hk])
  rw [anotherItem]
  refine Takes.bind_nil (skipNewlines_takes_nil hstop (by simp [hcomma])) ?_
  refine (eats_takes hstop hcomma).bind_pure ?_
  refine (skipNewlines_takes_nil hstop hnewline).bind_nil ?_
  refine (isAt_takes hstop closer).bind_none ?_
  rw [beq_eq_false_iff_ne.mpr hend]
  refine (isAt_takes hstop .eof).bind_none ?_
  rw [beq_eq_false_iff_ne.mpr heof]
  exact takes_pure _

theorem anotherItem_takes_nil {before ahead : List Token} {closer : TokenKind}
    (hahead : firstKind ahead ∉ [.newline, .comma]) :
    (anotherItem closer).Takes stop before [] ahead false := by
  rw [List.mem_cons, List.mem_singleton, not_or] at hahead
  exact (skipNewlines_takes_nil hstop hahead.1).bind_nil
    ((eats_takes_nil hstop hahead.2).bind_nil (takes_pure _))

omit hstop in
theorem firstKind_listItem {limit : Nat} {item : ListItem} {taken : List Token}
    (hvalue : ReadsBack limit item.value) (h : taken.map Token.word = item.words .layout)
    (ahead : List Token) : firstKind (taken ++ ahead) ∉ itemClosers := by
  cases item with
  | item value => exact notMem_itemClosers_of_startsArgument (hvalue.startsArgument h ahead)
  | spread value span =>
    obtain ⟨ellipsis, tokens, rfl, hellipsis, -⟩ := List.map_eq_cons_iff.mp h
    rw [List.cons_append, firstKind_cons, kind_of_word hellipsis]
    decide

omit hstop in
theorem firstKind_recordItem {item : RecordItem} {taken : List Token}
    (h : taken.map Token.word = item.words .layout) (ahead : List Token) :
    firstKind (taken ++ ahead) ∉ itemClosers := by
  cases item with
  | field key value span =>
    obtain ⟨first, tokens, rfl, hfirst, -⟩ := List.map_eq_cons_iff.mp h
    rw [List.cons_append, firstKind_cons, kind_of_word hfirst]
    cases key <;> simp [RecordKey.word, Identifier.word, itemClosers]
  | spread value span =>
    obtain ⟨ellipsis, tokens, rfl, hellipsis, -⟩ := List.map_eq_cons_iff.mp h
    rw [List.cons_append, firstKind_cons, kind_of_word hellipsis]
    decide

/-- Items with commas between them are read from their words. -/
theorem items_takes {α β γ : Type} (item : Parse α) {closer : TokenKind}
    (hcloser : closer ∈ [TokenKind.rParen, .rBracket, .rBrace]) (words : β → List Word) (f : α → γ)
    (g : β → γ) (trees : List β)
    (hitem : ∀ tree ∈ trees, ∀ {before taken ahead}, taken.map Token.word = words tree →
      firstKind ahead ∈ expressionClosers →
      ∃ a, item.TakesSome stop before taken ahead a ∧ f a = g tree)
    (hstart : ∀ tree ∈ trees, ∀ {taken ahead}, taken.map Token.word = words tree →
      firstKind (taken ++ ahead) ∉ itemClosers)
    (before : List Token) {taken : List Token} (ahead : List Token)
    (h : taken.map Token.word = List.intercalate [(.comma, ",")] (trees.map words))
    (hahead : firstKind ahead = closer) :
    ∃ found, (items item closer).Takes stop before taken ahead found ∧
      found.map f = trees.map g := by
  have hends : closer ∈ itemClosers ∧ closer ∈ expressionClosers ∧
      closer ∉ [TokenKind.newline, .comma] := by
    simp only [List.mem_cons, List.not_mem_nil, or_false] at hcloser
    obtain rfl | rfl | rfl := hcloser <;> decide
  cases trees with
  | nil =>
    obtain rfl := List.map_eq_nil_iff.mp h
    refine ⟨[], (skipNewlines_takes_nil hstop ?_).bind_nil ?_, rfl⟩
    · rw [List.nil_append, hahead]
      exact fun hk => hends.2.2 (by simp [hk])
    · refine (isAt_takes hstop closer).bind_none ?_
      rw [beq_iff_eq.mpr hahead]
      exact takes_pure _
  | cons tree trees =>
    obtain ⟨found, hseries, hfound⟩ := exists_series item (anotherItem closer) words
      [(.comma, ",")] f g (fun ahead => firstKind ahead ∈ expressionClosers)
      (fun ahead => firstKind ahead ∉ itemClosers) (tree :: trees) (List.cons_ne_nil _ _)
      hitem hstart
      (by
        intro before gap ahead hgap hahead
        obtain ⟨comma, rfl, hcomma⟩ := List.map_eq_singleton_iff.mp hgap
        exact anotherItem_takes hstop hends.1 (kind_of_word hcomma) hahead)
      (by
        intro gap ahead hgap
        obtain ⟨comma, rfl, hcomma⟩ := List.map_eq_singleton_iff.mp hgap
        simp [kind_of_word hcomma, expressionClosers])
      before ahead (by rw [hahead]; exact hends.2.1)
      (fun _ => anotherItem_takes_nil hstop (by rw [hahead]; exact hends.2.2)) h
    refine ⟨found, ?_, hfound⟩
    have hfirst : firstKind (taken ++ ahead) ∉ itemClosers := by
      cases trees with
      | nil =>
        rw [List.map_cons, List.map_nil, List.intercalate_singleton] at h
        exact hstart tree (by simp) h
      | cons other rest =>
        rw [List.map_cons, List.map_cons, List.intercalate_cons_cons, List.append_assoc] at h
        obtain ⟨first, others, rfl, hfirst, -⟩ := List.map_eq_append_iff.mp h
        rw [List.append_assoc]
        exact hstart tree (by simp) hfirst
    have hnewline : firstKind (taken ++ ahead) ≠ .newline := fun hk => hfirst (by rw [hk]; decide)
    have heof : firstKind (taken ++ ahead) ≠ .eof := fun hk => hfirst (by rw [hk]; decide)
    have hend : firstKind (taken ++ ahead) ≠ closer := fun hk => hfirst (by rw [hk]; exact hends.1)
    rw [items]
    refine (skipNewlines_takes_nil hstop hnewline).bind_nil ?_
    refine (isAt_takes hstop closer).bind_nil ?_
    rw [beq_eq_false_iff_ne.mpr hend]
    refine (isAt_takes hstop .eof).bind_nil ?_
    rw [beq_eq_false_iff_ne.mpr heof]
    exact series_takes hseries

variable {limit depth : Nat} (before : List Token) {taken : List Token} (ahead : List Token)

theorem spread_takes {value : Expr} (hvalue : ReadsBack limit value)
    (h : taken.map Token.word = (.ellipsis, "...") :: value.words .layout)
    (hdepth : value.nesting < depth) (hahead : firstKind ahead ∈ expressionClosers) :
    ∃ found span, (spread (enterTo limit depth)).TakesSome stop before taken ahead (found, span) ∧
      found.unplaced = value.unplaced := by
  obtain ⟨ellipsis, tokens, rfl, -, htokens⟩ := List.map_eq_cons_iff.mp h
  obtain ⟨found, ⟨hrun, -⟩, hfound⟩ := hvalue.expression _ ahead hstop htokens hdepth hahead
  exact ⟨found, _, ⟨(take_takes ellipsis).bind (hrun.bind_pure (takes_pure _)), by simp⟩, hfound⟩

theorem listItem_takes {item : ListItem} (hvalue : ReadsBack limit item.value)
    (h : taken.map Token.word = item.words .layout) (hdepth : item.value.nesting < depth)
    (hahead : firstKind ahead ∈ expressionClosers) :
    ∃ found, (listItem (enterTo limit depth)).TakesSome stop before taken ahead found ∧
      found.unplaced = item.unplaced := by
  cases item with
  | item value =>
    obtain ⟨found, ⟨hrun, hne⟩, hfound⟩ := hvalue.expression before ahead hstop h hdepth hahead
    refine ⟨.item found, ⟨(isAt_takes hstop .ellipsis).bind_nil ?_, hne⟩, by
      rw [ListItem.unplaced, hfound]
      rfl⟩
    have hstart := hvalue.startsArgument h ahead
    have hfirst : firstKind (taken ++ ahead) ≠ .ellipsis := by
      intro hk
      rw [hk] at hstart
      exact absurd hstart (by decide)
    rw [beq_eq_false_iff_ne.mpr hfirst]
    exact hrun.bind_pure (takes_pure _)
  | spread value span =>
    obtain ⟨found, span', ⟨hrun, hne⟩, hfound⟩ :=
      spread_takes hstop before ahead hvalue h hdepth hahead
    refine ⟨.spread found span', ⟨(isAt_takes hstop .ellipsis).bind_nil ?_, hne⟩, by
      rw [ListItem.unplaced, hfound]
      rfl⟩
    have hfirst : firstKind (taken ++ ahead) = .ellipsis := by
      obtain ⟨ellipsis, tokens, rfl, hellipsis, -⟩ := List.map_eq_cons_iff.mp h
      exact kind_of_word hellipsis
    rw [beq_iff_eq.mpr hfirst]
    exact hrun.bind_pure (takes_pure _)

omit hstop in
theorem recordKey_takes (stop : Token) {key : RecordKey} {token : Token} (h : token.word = key.word)
    (hkey : ∀ value, key = .string value → StringLiteral.read? value.text = some value) :
    ∃ found, recordKey.Takes stop before [token] ahead found ∧ found.unplaced = key.unplaced := by
  cases key with
  | identifier name =>
    refine ⟨.identifier (identifierOf token), (peek_takes token).bind_nil ?_, ?_⟩
    · rw [kind_of_word h]
      exact (take_takes token).bind_pure (takes_pure _)
    · rw [RecordKey.unplaced, unplaced_identifierOf h]
      rfl
  | string value =>
    refine ⟨.string value, (peek_takes token).bind_nil ?_, rfl⟩
    have hvalue : StringLiteral.read? token.text = some value := by
      rw [text_of_word h]
      exact hkey value rfl
    rw [kind_of_word h]
    simp only [RecordKey.word, hvalue]
    exact (take_takes token).bind_pure (takes_pure _)

theorem recordItem_takes {item : RecordItem} (hitem : item.Legible)
    (hvalue : ReadsBack limit item.value)
    (h : taken.map Token.word = item.words .layout) (hdepth : item.value.nesting < depth)
    (hahead : firstKind ahead ∈ expressionClosers) :
    ∃ found, (recordItem (enterTo limit depth)).TakesSome stop before taken ahead found ∧
      found.unplaced = item.unplaced := by
  cases item with
  | field key value span =>
    obtain ⟨first, rest, rfl, hfirst, hrest⟩ := List.map_eq_cons_iff.mp h
    obtain ⟨colon, tokens, rfl, hcolon, htokens⟩ := List.map_eq_cons_iff.mp hrest
    obtain ⟨found, ⟨hrun, -⟩, hfound⟩ :=
      hvalue.expression (before ++ [first] ++ [colon]) ahead hstop htokens hdepth hahead
    obtain ⟨key', hkey, hkey'⟩ := recordKey_takes before
      (colon :: (tokens ++ ahead)) stop hfirst (by rintro value rfl; exact hitem)
    refine ⟨.field key' found (first.span.through found.span),
      ⟨(isAt_takes hstop .ellipsis).bind_nil ?_, by simp⟩, by
        rw [RecordItem.unplaced, hkey', hfound]
        rfl⟩
    have hkind : first.kind ≠ .ellipsis := by
      rw [kind_of_word hfirst]
      cases key <;> simp [RecordKey.word, Identifier.word]
    have hellipsis : firstKind (first :: colon :: tokens ++ ahead) ≠ .ellipsis := hkind
    have hnewline := hvalue.ne_newline htokens ahead
    rw [beq_eq_false_iff_ne.mpr hellipsis]
    refine (peek_takes first).bind_nil (hkey.bind_cons ?_)
    refine (expect_takes hstop (kind_of_word hcolon)).bind ?_
    exact (skipNewlines_takes_nil hstop hnewline).bind_nil (hrun.bind_pure (takes_pure _))
  | spread value span =>
    obtain ⟨found, span', ⟨hrun, hne⟩, hfound⟩ :=
      spread_takes hstop before ahead hvalue h hdepth hahead
    refine ⟨.spread found span', ⟨(isAt_takes hstop .ellipsis).bind_nil ?_, hne⟩, by
      rw [RecordItem.unplaced, hfound]
      rfl⟩
    have hfirst : firstKind (taken ++ ahead) = .ellipsis := by
      obtain ⟨ellipsis, tokens, rfl, hellipsis, -⟩ := List.map_eq_cons_iff.mp h
      exact kind_of_word hellipsis
    rw [beq_iff_eq.mpr hfirst]
    exact hrun.bind_pure (takes_pure _)

end

/-! ### Arguments and calls -/

section

variable {stop : Token} (hstop : stop.kind = .eof) {limit depth : Nat} (before : List Token)
  {taken : List Token} (ahead : List Token)

include hstop

/-- A selector, an equals sign and an expression are read from their words. -/
theorem assignment?_takes {target : Selector} {value : Expr} (htarget : target.Legible)
    (hvalue : ReadsBack limit value)
    (h : taken.map Token.word = target.words ++ (.assign, "=") :: value.words .layout)
    (hdepth : value.nesting < depth) (hahead : firstKind ahead ∈ expressionClosers) :
    ∃ target' found, (assignment? (enterTo limit depth)).TakesSome stop before taken ahead
        (some (target', found)) ∧
      target'.unplaced = target.unplaced ∧ found.unplaced = value.unplaced := by
  obtain ⟨front, back, rfl, hfront, hback⟩ := List.map_eq_append_iff.mp h
  obtain ⟨sign, tokens, rfl, hsign, htokens⟩ := List.map_eq_cons_iff.mp hback
  obtain ⟨target', hselector, htarget'⟩ := selector?_takes hstop before
    (sign :: (tokens ++ ahead)) htarget hfront (kind_of_word hsign)
  obtain ⟨found, ⟨hrun, -⟩, hfound⟩ := hvalue.expression (before ++ (front ++ [sign])) ahead
    hstop htokens hdepth hahead
  rw [List.append_cons]
  refine ⟨target', found, ⟨(commit_takes (a := target') ?_).bind
    (hrun.bind_pure (takes_pure _)), by simp⟩, htarget', hfound⟩
  refine hselector.bind (Takes.bind_pure (eats_takes hstop (kind_of_word hsign)) ?_)
  exact takes_pure _

theorem argument_takes {argument : Argument} (hargument : argument.Legible)
    (hvalue : ReadsBack limit argument.value)
    (h : taken.map Token.word = argument.words .layout) (hdepth : argument.value.nesting < depth)
    (hahead : firstKind ahead ∈ expressionClosers) :
    ∃ found, (Grammar.argument (enterTo limit depth)).TakesSome stop before taken ahead found ∧
      found.unplaced = argument.unplaced := by
  cases argument with
  | named target value span =>
    obtain ⟨target', found, ⟨hrun, hne⟩, htarget, hfound⟩ :=
      assignment?_takes hstop before ahead hargument hvalue h hdepth hahead
    refine ⟨.named target' found (target'.span.through found.span),
      ⟨hrun.bind_pure (takes_pure _), hne⟩, ?_⟩
    rw [Argument.unplaced, Argument.unplaced, htarget, hfound]
    rfl
  | positional value =>
    obtain ⟨found, ⟨hrun, hne⟩, hfound⟩ :=
      hvalue.expression before ahead hstop h hdepth hahead
    have hsign : ¬ SignAhead ahead := by
      cases ahead with
      | nil => exact not_signAhead_nil
      | cons token rest =>
        rw [firstKind_cons] at hahead
        rw [signAhead_cons_of_notMem]
        · intro hk
          simp [hk, expressionClosers] at hahead
        · intro hmem
          simp only [selectorKinds, List.mem_cons, List.not_mem_nil, or_false] at hmem
          obtain hk | hk | hk | hk | hk := hmem <;> simp [hk, expressionClosers] at hahead
    have hnone : (assignment? (enterTo limit depth)).Takes stop before [] (taken ++ ahead)
        none := by
      rw [Takes, List.append_nil]
      exact assignment?_eq_none hstop (Expr.unassigning_words h _ hsign)
    exact ⟨.positional found, ⟨hnone.bind_nil (hrun.bind_pure (takes_pure _)), hne⟩, by
      rw [Argument.unplaced, hfound]
      rfl⟩

omit hstop in
theorem firstKind_argument {argument : Argument} (hargument : argument.Legible)
    (hvalue : ReadsBack limit argument.value)
    (h : taken.map Token.word = argument.words .layout) :
    startsArgument (firstKind (taken ++ ahead)) := by
  cases argument with
  | positional value => exact hvalue.startsArgument h ahead
  | named target value span =>
    obtain ⟨front, back, rfl, hfront, -⟩ := List.map_eq_append_iff.mp h
    cases target with
    | metadata selector =>
      obtain ⟨sign, rest, rfl, hsign, -⟩ := List.map_eq_cons_iff.mp hfront
      change startsArgument sign.kind
      rw [kind_of_word hsign]
      rfl
    | field selector =>
      obtain ⟨rooted, segments, span⟩ := selector
      cases rooted with
      | false =>
        have hne : segments ≠ [] := hargument.resolve_left (by simp)
        obtain ⟨first, rest, rfl, hfirst⟩ := cons_of_fieldWords hne hfront
        change startsArgument first.kind
        rw [hfirst]
        rfl
      | true =>
        have hfirst : ∃ this rest, front = this :: rest ∧ this.kind = .kwThis := by
          cases segments with
          | nil =>
            obtain ⟨this, rfl, hthis⟩ := List.map_eq_singleton_iff.mp hfront
            exact ⟨this, [], rfl, kind_of_word hthis⟩
          | cons segment segments =>
            obtain ⟨this, rest, rfl, hthis, -⟩ := List.map_eq_cons_iff.mp hfront
            exact ⟨this, rest, rfl, kind_of_word hthis⟩
        obtain ⟨this, rest, rfl, hthis⟩ := hfirst
        change startsArgument this.kind
        rw [hthis]
        rfl

/-- The arguments of a call are read from their words. -/
theorem callArguments_takes {arguments : List Argument}
    (harguments : ∀ argument ∈ arguments, argument.Legible)
    (hvalues : ∀ argument ∈ arguments, ReadsBack limit argument.value)
    (h : taken.map Token.word = (.lParen, "(") ::
      (List.intercalate [(.comma, ",")] (Argument.allWords .layout arguments) ++ [(.rParen, ")")]))
    (hdepth : 1 + Argument.nesting arguments ≤ depth) :
    ∃ found, (callArguments (enterTo limit depth)).Takes stop before taken ahead found ∧
      found.map (·.unplaced) = arguments.map (·.unplaced) := by
  obtain ⟨opener, rest, rfl, hopener, hrest⟩ := List.map_eq_cons_iff.mp h
  obtain ⟨tokens, closing, rfl, htokens, hclosing⟩ := List.map_eq_append_iff.mp hrest
  obtain ⟨closer, rfl, hcloser⟩ := List.map_eq_singleton_iff.mp hclosing
  obtain ⟨depth, rfl⟩ := Nat.exists_eq_add_of_le' (Nat.le_trans (Nat.le_add_right 1 _) hdepth)
  rw [Argument.allWords_eq_map] at htokens
  obtain ⟨found, hitems, hfound⟩ := items_takes hstop (argument (enterTo limit depth))
    (show TokenKind.rParen ∈ _ by simp) (fun argument => argument.words .layout)
    Argument.unplaced Argument.unplaced arguments
    (fun argument hmem _ _ _ hwords hahead => argument_takes hstop _ _ (harguments argument hmem)
      (hvalues argument hmem) hwords
      (by have := Argument.nesting_of_mem hmem; omega) hahead)
    (fun argument hmem _ ahead hwords => notMem_itemClosers_of_startsArgument
      (firstKind_argument ahead (harguments argument hmem) (hvalues argument hmem) hwords))
    (before ++ [opener]) (closer :: ahead) htokens (kind_of_word hcloser)
  refine ⟨found, (expect_takes hstop (kind_of_word hopener)).bind ?_, hfound⟩
  exact hitems.bind
    ((expectClosing_takes hstop (by decide) opener (kind_of_word hcloser)).bind_pure
      (takes_pure _))

/-- The name and the arguments of a call are read from their words. -/
theorem call_takes {function : Entity} {arguments : List Argument}
    (hfunction : function.segments ≠ [])
    (harguments : ∀ argument ∈ arguments, argument.Legible)
    (hvalues : ∀ argument ∈ arguments, ReadsBack limit argument.value)
    (h : taken.map Token.word = function.words ++ (.lParen, "(") ::
      (List.intercalate [(.comma, ",")] (Argument.allWords .layout arguments) ++ [(.rParen, ")")]))
    (hdepth : 1 + Argument.nesting arguments ≤ depth) :
    ∃ function' found, (call (enterTo limit depth)).Takes stop before taken ahead
        (function', found) ∧
      function'.unplaced = function.unplaced ∧
      found.map (·.unplaced) = arguments.map (·.unplaced) := by
  obtain ⟨name, rest, rfl, hname, hrest⟩ := List.map_eq_append_iff.mp h
  obtain ⟨opener, tokens, rfl, hopener, -⟩ := List.map_eq_cons_iff.mp hrest
  have hkind : opener.kind = .lParen := kind_of_word hopener
  obtain ⟨function', hentity, hfunction'⟩ := entity_takes hstop before
    (opener :: tokens ++ ahead) hfunction hname (by simp [hkind])
  obtain ⟨found, hrun, hfound⟩ := callArguments_takes hstop (before ++ name) ahead harguments
    hvalues hrest hdepth
  refine ⟨function', found, hentity.bind ((isAt_takes hstop .lParen).bind_nil ?_), hfunction',
    hfound⟩
  have hfirst : firstKind (opener :: tokens ++ ahead) = .lParen := hkind
  rw [beq_iff_eq.mpr hfirst]
  exact hrun.bind_pure (takes_pure _)

omit hstop in
/-- The words of a call start like one. -/
theorem callAhead_of_words {function : Entity} {words : List Word}
    (hfunction : function.segments ≠ [])
    (h : taken.map Token.word = function.words ++ (.lParen, "(") :: words) :
    CallAhead (taken ++ ahead) := by
  obtain ⟨segments, span⟩ := function
  match segments with
  | [] => exact absurd rfl hfunction
  | [segment] =>
    obtain ⟨name, rest, rfl, hname, hrest⟩ := List.map_eq_cons_iff.mp h
    obtain ⟨opener, tokens, rfl, hopener, -⟩ := List.map_eq_cons_iff.mp hrest
    exact ⟨kind_of_word hname, .inr (kind_of_word hopener)⟩
  | segment :: other :: others =>
    rw [Entity.words, List.map_cons, List.map_cons, List.intercalate_cons_cons] at h
    obtain ⟨name, rest, rfl, hname, hrest⟩ := List.map_eq_cons_iff.mp h
    obtain ⟨separator, tokens, rfl, hseparator, -⟩ := List.map_eq_cons_iff.mp hrest
    exact ⟨kind_of_word hname, .inl (kind_of_word hseparator)⟩

theorem atCall_takes_of_callAhead (h : CallAhead ahead) :
    atCall.Takes stop before [] ahead true := by
  have hrun := atCall_takes hstop before ahead
  obtain ⟨hfirst, hsecond⟩ := h
  rwa [beq_iff_eq.mpr hfirst, Bool.true_and,
    (show (_ || _) = true by simpa using hsecond)] at hrun

theorem atCall_takes_of_not_callAhead (h : ¬ CallAhead ahead) :
    atCall.Takes stop before [] ahead false := by
  have hrun := atCall_takes hstop before ahead
  rwa [(show (_ && (_ || _)) = false by simpa [CallAhead] using h)] at hrun

end

/-! ### Format strings -/

section

variable {stop : Token} (hstop : stop.kind = .eof) {limit depth : Nat} (before : List Token)
  {taken : List Token} (ahead : List Token)

/-- The tokens of a replacement are read as its expression. -/
theorem replacement_takes {value : Expr} (hvalue : ReadsBack limit value)
    (hdepth : value.nesting < depth) (hstop : stop.kind = .eof)
    (h : taken.map Token.word = value.words .layout) :
    ∃ found, (replacement (enterTo limit depth)).Takes stop before taken [] found ∧
      found.unplaced = value.unplaced := by
  obtain ⟨found, ⟨hrun, -⟩, hfound⟩ :=
    hvalue.expression before [] hstop h hdepth (by simp [expressionClosers])
  have hnewline := hvalue.ne_newline h []
  refine ⟨found, (skipNewlines_takes_nil hstop hnewline).bind_nil (hrun.bind_pure ?_), hfound⟩
  refine (skipNewlines_takes_nil hstop (by simp)).bind_none ?_
  exact (isAt_takes hstop .eof).bind_none (takes_pure _)

/-- The pieces of a format string are read as its segments. -/
theorem segments_takes (stop : Token) {pieces : List FormatPiece} {segments : List Segment}
    (h : List.Forall₂ PieceOf pieces segments)
    (hvalues : ∀ value ∈ segments.filterMap (·.value?), ReadsBack limit value)
    (hdepth : Segment.nesting segments ≤ depth) :
    ∃ found, (pieces.mapM (segment (enterTo limit depth))).Takes stop before [] ahead found ∧
      found.map (·.unplaced) = segments.map (·.unplaced) := by
  induction h with
  | nil => exact ⟨[], takes_pure _, rfl⟩
  | @cons piece part pieces segments hpiece _ ih =>
    have hrest : ∀ value ∈ segments.filterMap (·.value?), ReadsBack limit value := by
      intro value hmem
      refine hvalues value ?_
      rw [List.filterMap_cons]
      split
      · exact hmem
      · exact List.mem_cons_of_mem _ hmem
    obtain ⟨found, hrun, hfound⟩ := ih hrest (by
      cases part <;> rw [Segment.nesting] at hdepth <;> omega)
    rw [List.mapM_cons]
    cases hpiece with
    | @text raw span value span' hvalue =>
      refine ⟨.text (String.ofList raw) value span :: found, ?_, by simp [hfound, Segment.unplaced]⟩
      rw [hvalue]
      exact (takes_pure _).bind_none (hrun.bind_none (takes_pure _))
    | @replacement inner innerSpan span value span' tokens htokens hwords =>
      have hvalue : ReadsBack limit value := hvalues value (by simp)
      rw [Segment.nesting] at hdepth
      obtain ⟨first, hfirst, hfirst'⟩ := replacement_takes [] hvalue
        (show value.nesting < depth by omega) (kind_stop_ofTokens tokens) hwords
      refine ⟨.replacement first span :: found, ?_, by simp [hfound, hfirst', Segment.unplaced]⟩
      refine Takes.bind_none (a := .replacement first span) ?_ (hrun.bind_none (takes_pure _))
      rw [segment, htokens]
      exact (within_takes hfirst rfl).bind_none (takes_pure _)

end

/-! ### Operands without suffixes -/

section

variable {stop : Token} (hstop : stop.kind = .eof) {limit depth : Nat} (before : List Token)
  {taken : List Token} (ahead : List Token)

theorem literal_takes {value : Literal} {token : Token}
    (hvalue : Literal.ofText? value.tokenKind value.text = some value)
    (h : token.word = (value.tokenKind, value.text)) :
    (primary (enterTo limit depth)).TakesSome stop before [token] ahead
      (.literal value token.span) := by
  have hread : Literal.ofText? token.kind token.text = some value := by
    rw [kind_of_word h, text_of_word h]
    exact hvalue
  have hrun : literal.Takes stop before [token] ahead (.literal value token.span) := by
    refine (peek_takes token).bind_nil ?_
    simp only [hread]
    exact (take_takes token).bind_pure (takes_pure _)
  refine ⟨(peek_takes token).bind_nil ?_, by simp⟩
  have hkind := kind_of_word h
  cases value with
  | bool value => cases value <;> (rw [hkind]; exact hrun)
  | _ => rw [hkind]; exact hrun

theorem formatString_takes {segments : List Segment} {token : Token}
    (hformat : FormatLegible segments)
    (hvalues : ∀ value ∈ segments.filterMap (·.value?), ReadsBack limit value)
    (h : token.word = (.formatString, Style.layout.format segments token.span))
    (hdepth : Segment.nesting segments ≤ depth) :
    ∃ found span, (primary (enterTo limit depth)).TakesSome stop before [token] ahead
        (.format found span) ∧ found.map (·.unplaced) = segments.map (·.unplaced) := by
  obtain ⟨pieces, hpieces, hsegments⟩ := hformat token (text_of_word h)
  obtain ⟨found, hrun, hfound⟩ := segments_takes before ([token] ++ ahead) stop
    hsegments hvalues hdepth
  refine ⟨found, token.span, ⟨(peek_takes token).bind_nil ?_, by simp⟩, hfound⟩
  rw [kind_of_word h]
  refine (peek_takes token).bind_nil ?_
  simp only [hpieces]
  exact hrun.bind_nil ((take_takes token).bind_pure (takes_pure _))

theorem variable_takes {name : String} {token : Token}
    (h : token.word = (.dollarVar, "$" ++ name)) :
    (primary (enterTo limit depth)).TakesSome stop before [token] ahead
      (.variable name token.span) := by
  have hname : variableName token = name := by
    rw [variableName, text_of_word h]
    simp
  rw [← hname]
  refine ⟨(peek_takes token).bind_nil ?_, by simp⟩
  rw [kind_of_word h]
  exact (take_takes token).bind_pure (takes_pure _)

theorem this_takes {token : Token} (h : token.kind = .kwThis) :
    (primary (enterTo limit depth)).TakesSome stop before [token] ahead (.this token.span) := by
  refine ⟨(peek_takes token).bind_nil ?_, by simp⟩
  rw [h]
  exact (take_takes token).bind_pure (takes_pure _)

include hstop

theorem name_takes {token : Token} (h : token.kind = .identifier)
    (hahead : firstKind ahead ∉ touching) :
    (primary (enterTo limit depth)).TakesSome stop before [token] ahead
      (nameOrPlaceholder token) := by
  refine ⟨(peek_takes token).bind_nil ?_, by simp⟩
  rw [h]
  refine (atCall_takes_of_not_callAhead hstop _ _ ?_).bind_nil
    ((take_takes token).bind_pure (takes_pure _))
  rintro ⟨-, hsecond⟩
  change firstKind ahead = _ ∨ firstKind ahead = _ at hsecond
  exact hahead (by simpa [touching] using hsecond.imp_right .inl)

theorem metadata_takes {selector : MetaSelector} (h : taken.map Token.word = selector.words) :
    ∃ found span, (primary (enterTo limit depth)).TakesSome stop before taken ahead
        (.metadata found span) ∧ found.unplaced = selector.unplaced := by
  obtain ⟨sign, rest, rfl, hsign, hrest⟩ := List.map_eq_cons_iff.mp h
  obtain ⟨name, rfl, hname⟩ := List.map_eq_singleton_iff.mp hrest
  refine ⟨⟨identifierOf name, sign.span.through name.span⟩, sign.span,
    ⟨(peek_takes sign).bind_nil ?_, by simp⟩, ?_⟩
  · rw [kind_of_word hsign]
    exact (take_takes sign).bind
      ((identifier_takes hstop (kind_of_word hname)).bind_pure (takes_pure _))
  · simp only [MetaSelector.unplaced, unplaced_identifierOf hname]

theorem list_takes {items : List ListItem}
    (hvalues : ∀ item ∈ items, ReadsBack limit item.value)
    (h : taken.map Token.word = (.lBracket, "[") ::
      (List.intercalate [(.comma, ",")] (ListItem.allWords .layout items) ++ [(.rBracket, "]")]))
    (hdepth : 1 + ListItem.nesting items ≤ depth) :
    ∃ found span, (primary (enterTo limit depth)).TakesSome stop before taken ahead
        (.list found span) ∧ found.map (·.unplaced) = items.map (·.unplaced) := by
  obtain ⟨opener, rest, rfl, hopener, hrest⟩ := List.map_eq_cons_iff.mp h
  obtain ⟨tokens, closing, rfl, htokens, hclosing⟩ := List.map_eq_append_iff.mp hrest
  obtain ⟨closer, rfl, hcloser⟩ := List.map_eq_singleton_iff.mp hclosing
  obtain ⟨depth, rfl⟩ := Nat.exists_eq_add_of_le' (Nat.le_trans (Nat.le_add_right 1 _) hdepth)
  rw [ListItem.allWords_eq_map] at htokens
  obtain ⟨found, hitems, hfound⟩ := items_takes hstop (listItem (enterTo limit depth))
    (show TokenKind.rBracket ∈ _ by simp) (fun item => item.words .layout)
    ListItem.unplaced ListItem.unplaced items
    (fun item hmem _ _ _ hwords hahead => listItem_takes hstop _ _ (hvalues item hmem) hwords
      (by have := ListItem.nesting_of_mem hmem; omega) hahead)
    (fun item hmem _ ahead hwords => firstKind_listItem (hvalues item hmem) hwords ahead)
    (before ++ [opener]) (closer :: ahead) htokens (kind_of_word hcloser)
  refine ⟨found, opener.span.through closer.span, ⟨(peek_takes opener).bind_nil ?_, by simp⟩,
    hfound⟩
  rw [kind_of_word hopener]
  refine (take_takes opener).bind (hitems.bind ?_)
  exact (expectClosing_takes hstop (by decide) opener (kind_of_word hcloser)).bind_pure
    (takes_pure _)

theorem record_takes {items : List RecordItem} (hitems : ∀ item ∈ items, item.Legible)
    (hvalues : ∀ item ∈ items, ReadsBack limit item.value)
    (h : taken.map Token.word = (.lBrace, "\x7b") ::
      (List.intercalate [(.comma, ",")] (RecordItem.allWords .layout items) ++ [(.rBrace, "\x7d")]))
    (hdepth : 1 + RecordItem.nesting items ≤ depth) :
    ∃ found span, (primary (enterTo limit depth)).TakesSome stop before taken ahead
        (.record found span) ∧ found.map (·.unplaced) = items.map (·.unplaced) := by
  obtain ⟨opener, rest, rfl, hopener, hrest⟩ := List.map_eq_cons_iff.mp h
  obtain ⟨tokens, closing, rfl, htokens, hclosing⟩ := List.map_eq_append_iff.mp hrest
  obtain ⟨closer, rfl, hcloser⟩ := List.map_eq_singleton_iff.mp hclosing
  obtain ⟨depth, rfl⟩ := Nat.exists_eq_add_of_le' (Nat.le_trans (Nat.le_add_right 1 _) hdepth)
  rw [RecordItem.allWords_eq_map] at htokens
  obtain ⟨found, hrun, hfound⟩ := items_takes hstop (recordItem (enterTo limit depth))
    (show TokenKind.rBrace ∈ _ by simp) (fun item => item.words .layout)
    RecordItem.unplaced RecordItem.unplaced items
    (fun item hmem _ _ _ hwords hahead => recordItem_takes hstop _ _ (hitems item hmem)
      (hvalues item hmem) hwords (by have := RecordItem.nesting_of_mem hmem; omega) hahead)
    (fun item _ _ ahead hwords => firstKind_recordItem hwords ahead)
    (before ++ [opener]) (closer :: ahead) htokens (kind_of_word hcloser)
  refine ⟨found, opener.span.through closer.span, ⟨(peek_takes opener).bind_nil ?_, by simp⟩,
    hfound⟩
  rw [kind_of_word hopener]
  refine (take_takes opener).bind (hrun.bind ?_)
  exact (expectClosing_takes hstop (by decide) opener (kind_of_word hcloser)).bind_pure
    (takes_pure _)

theorem paren_takes {inner : Expr} (hinner : ReadsBack limit inner)
    (h : taken.map Token.word = (.lParen, "(") :: (inner.words .layout ++ [(.rParen, ")")]))
    (hdepth : inner.nesting < depth) :
    ∃ found span, (primary (enterTo limit depth)).TakesSome stop before taken ahead
        (.paren found span) ∧ found.unplaced = inner.unplaced := by
  obtain ⟨opener, rest, rfl, hopener, hrest⟩ := List.map_eq_cons_iff.mp h
  obtain ⟨tokens, closing, rfl, htokens, hclosing⟩ := List.map_eq_append_iff.mp hrest
  obtain ⟨closer, rfl, hcloser⟩ := List.map_eq_singleton_iff.mp hclosing
  have hkind : closer.kind = .rParen := kind_of_word hcloser
  obtain ⟨found, ⟨hrun, -⟩, hfound⟩ := hinner.expression (before ++ [opener])
    (closer :: ahead) hstop htokens hdepth (by simp [hkind, expressionClosers])
  have hnewline := hinner.ne_newline htokens (closer :: ahead)
  refine ⟨found, opener.span.through closer.span, ⟨(peek_takes opener).bind_nil ?_, by simp⟩,
    hfound⟩
  rw [kind_of_word hopener]
  refine (take_takes opener).bind (Takes.bind_nil (skipNewlines_takes_nil hstop ?_) ?_)
  · simpa using hnewline
  refine hrun.bind (Takes.bind_nil (skipNewlines_takes_nil hstop ?_) ?_)
  · simp [hkind]
  exact (expectClosing_takes hstop (by decide) opener hkind).bind_pure (takes_pure _)

theorem primary_call_takes {function : Entity} {arguments : List Argument}
    (hfunction : function.segments ≠ [])
    (harguments : ∀ argument ∈ arguments, argument.Legible)
    (hvalues : ∀ argument ∈ arguments, ReadsBack limit argument.value)
    (h : taken.map Token.word = function.words ++ (.lParen, "(") ::
      (List.intercalate [(.comma, ",")] (Argument.allWords .layout arguments) ++ [(.rParen, ")")]))
    (hdepth : 1 + Argument.nesting arguments ≤ depth) :
    ∃ function' found span, (primary (enterTo limit depth)).TakesSome stop before taken ahead
        (.call function' found span) ∧
      function'.unplaced = function.unplaced ∧
      found.map (·.unplaced) = arguments.map (·.unplaced) := by
  obtain ⟨function', found, hrun, hfunction', hfound⟩ := call_takes hstop before
    ahead hfunction harguments hvalues h hdepth
  obtain ⟨span, hspan⟩ := lastSpan_takes stop (before ++ taken) ahead
  have hcall : CallAhead (taken ++ ahead) := callAhead_of_words _ hfunction h
  obtain ⟨name, rest, rfl⟩ : ∃ name rest, taken = name :: rest := by
    cases taken with
    | nil =>
      obtain ⟨_, _, hwords⟩ := Entity.words_cons hfunction
      simp [hwords] at h
    | cons name rest => exact ⟨name, rest, rfl⟩
  refine ⟨function', found, function'.span.through span, ⟨(peek_takes name).bind_nil ?_, by simp⟩,
    hfunction', hfound⟩
  rw [show name.kind = .identifier from hcall.1]
  refine (atCall_takes_of_callAhead hstop _ _ hcall).bind_nil (hrun.bind_pure ?_)
  exact hspan.bind_nil (takes_pure _)

end

/-! ### Suffixes -/

section

variable {stop : Token} (hstop : stop.kind = .eof) {limit depth : Nat} (before : List Token)
  {taken : List Token} (ahead : List Token)

include hstop

theorem member_takes {name : Identifier} {mark : Option OptionalMark}
    (h : taken.map Token.word = name.memberWords mark) (hahead : firstKind ahead ∉ touching) :
    ∃ found span, SuffixTakes (enterTo limit depth) stop before taken ahead
        (.member found mark span) ∧ found.unplaced = name.unplaced := by
  simp only [touching, List.mem_cons, List.not_mem_nil, or_false, not_or] at hahead
  match mark with
  | none =>
    obtain ⟨dot, rest, rfl, hdot, hrest⟩ := List.map_eq_cons_iff.mp h
    obtain ⟨token, rfl, htoken⟩ := List.map_eq_singleton_iff.mp hrest
    have hkind : dot.kind = .dot := kind_of_word hdot
    have hcall : ¬ CallAhead ([token] ++ ahead) := by
      rintro ⟨-, hsecond⟩
      change firstKind ahead = _ ∨ firstKind ahead = _ at hsecond
      exact hsecond.elim hahead.1 hahead.2.1
    obtain ⟨span, hspan⟩ := lastSpan_takes stop (before ++ [dot] ++ [token]) ahead
    refine ⟨identifierOf token, span, ⟨⟨(take_takes dot).bind ?_, by simp⟩,
      by simp [hkind, suffixOpeners]⟩, unplaced_identifierOf htoken⟩
    rw [hkind]
    refine (atCall_takes_of_not_callAhead hstop _ _ hcall).bind_nil ?_
    refine (identifier_takes hstop (kind_of_word htoken)).bind_pure ?_
    exact (eats_takes_nil hstop hahead.2.2).bind_nil (hspan.bind_nil (takes_pure _))
  | some .behind =>
    obtain ⟨dot, rest, rfl, hdot, hrest⟩ := List.map_eq_cons_iff.mp h
    obtain ⟨token, rest, rfl, htoken, hrest⟩ := List.map_eq_cons_iff.mp hrest
    obtain ⟨question, rfl, hquestion⟩ := List.map_eq_singleton_iff.mp hrest
    have hkind : dot.kind = .dot := kind_of_word hdot
    have hcall : ¬ CallAhead ([token, question] ++ ahead) := by
      rintro ⟨-, hsecond⟩
      change question.kind = _ ∨ question.kind = _ at hsecond
      simp [kind_of_word hquestion] at hsecond
    obtain ⟨span, hspan⟩ := lastSpan_takes stop (before ++ [dot] ++ [token] ++ [question]) ahead
    refine ⟨identifierOf token, span,
      ⟨⟨(take_takes dot).bind ?_, by simp⟩,
        by simp [hkind, suffixOpeners]⟩, unplaced_identifierOf htoken⟩
    rw [hkind]
    refine (atCall_takes_of_not_callAhead hstop _ _ hcall).bind_nil ?_
    refine (identifier_takes hstop (kind_of_word htoken)).bind ?_
    exact (eats_takes hstop (kind_of_word hquestion)).bind_pure (hspan.bind_nil (takes_pure _))
  | some .ahead =>
    obtain ⟨dot, rest, rfl, hdot, hrest⟩ := List.map_eq_cons_iff.mp h
    obtain ⟨token, rfl, htoken⟩ := List.map_eq_singleton_iff.mp hrest
    have hkind : dot.kind = .dotQuestion := kind_of_word hdot
    refine ⟨identifierOf token, token.span,
      ⟨⟨(take_takes dot).bind ?_, by simp⟩,
        by simp [hkind, suffixOpeners]⟩, unplaced_identifierOf htoken⟩
    rw [hkind]
    exact (identifier_takes hstop (kind_of_word htoken)).bind_pure (takes_pure _)

theorem index_takes {key : Expr} {optional : Bool} (hkey : ReadsBack limit key)
    (h : taken.map Token.word = (.lBracket, "[") :: (key.words .layout ++ (.rBracket, "]") ::
      if optional then [(.question, "?")] else []))
    (hdepth : key.nesting < depth) (hahead : firstKind ahead ∉ touching) :
    ∃ found span, SuffixTakes (enterTo limit depth) stop before taken ahead
        (.index found optional span) ∧ found.unplaced = key.unplaced := by
  obtain ⟨opener, rest, rfl, hopener, hrest⟩ := List.map_eq_cons_iff.mp h
  obtain ⟨tokens, closing, rfl, htokens, hclosing⟩ := List.map_eq_append_iff.mp hrest
  obtain ⟨closer, marks, rfl, hcloser, hmarks⟩ := List.map_eq_cons_iff.mp hclosing
  have hkind : closer.kind = .rBracket := kind_of_word hcloser
  obtain ⟨found, ⟨hrun, -⟩, hfound⟩ := hkey.expression (before ++ [opener])
    (closer :: marks ++ ahead) hstop htokens hdepth
    (by simp [hkind, expressionClosers])
  have hnewline := hkey.ne_newline htokens (closer :: marks ++ ahead)
  have heats : (eats .question).Takes stop (before ++ [opener] ++ tokens ++ [closer]) marks ahead
      optional := by
    cases optional with
    | false =>
      obtain rfl := List.map_eq_nil_iff.mp hmarks
      exact eats_takes_nil hstop fun hk => hahead (by simp [hk, touching])
    | true =>
      obtain ⟨mark, rfl, hmark⟩ := List.map_eq_singleton_iff.mp hmarks
      exact eats_takes hstop (kind_of_word hmark)
  obtain ⟨span, hspan⟩ :=
    lastSpan_takes stop (before ++ [opener] ++ tokens ++ [closer] ++ marks) ahead
  refine ⟨found, span, ⟨⟨(take_takes opener).bind ?_, by simp⟩, by
    simp [show opener.kind = .lBracket from kind_of_word hopener, suffixOpeners]⟩, hfound⟩
  rw [kind_of_word hopener]
  refine (skipNewlines_takes_nil hstop (by simpa using hnewline)).bind_nil ?_
  refine hrun.bind ((skipNewlines_takes_nil hstop (by simp [hkind])).bind_nil ?_)
  refine (expectClosing_takes hstop (by decide) opener hkind).bind ?_
  exact heats.bind_pure (hspan.bind_nil (takes_pure _))

theorem methodCall_takes {function : Entity} {arguments : List Argument}
    (hfunction : function.segments ≠ [])
    (harguments : ∀ argument ∈ arguments, argument.Legible)
    (hvalues : ∀ argument ∈ arguments, ReadsBack limit argument.value)
    (h : taken.map Token.word = (.dot, ".") :: (function.words ++ (.lParen, "(") ::
      (List.intercalate [(.comma, ",")] (Argument.allWords .layout arguments) ++ [(.rParen, ")")])))
    (hdepth : 1 + Argument.nesting arguments ≤ depth) :
    ∃ function' found span, SuffixTakes (enterTo limit depth) stop before taken ahead
        (.call function' found span) ∧
      function'.unplaced = function.unplaced ∧
      found.map (·.unplaced) = arguments.map (·.unplaced) := by
  obtain ⟨dot, tokens, rfl, hdot, htokens⟩ := List.map_eq_cons_iff.mp h
  have hkind : dot.kind = .dot := kind_of_word hdot
  obtain ⟨function', found, hrun, hfunction', hfound⟩ := call_takes hstop (before ++ [dot])
    ahead hfunction harguments hvalues htokens hdepth
  obtain ⟨span, hspan⟩ := lastSpan_takes stop (before ++ [dot] ++ tokens) ahead
  refine ⟨function', found, span, ⟨⟨(take_takes dot).bind ?_, by simp⟩,
    by simp [hkind, suffixOpeners]⟩, hfunction', hfound⟩
  rw [hkind]
  exact (atCall_takes_of_callAhead hstop _ _ (callAhead_of_words _ hfunction htokens)).bind_nil
    (hrun.bind_pure (hspan.bind_nil (takes_pure _)))

end

end Grammar

end PipelineLang
