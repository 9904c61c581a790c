import PipelineLang.Proofs.Grammar.OperandCompleteness

/-!
# Expressions are read from their words

## Main results

- `Grammar.readsBack` — all readable expressions are read from their words
-/

namespace PipelineLang

open TokenStream Parse Shape

namespace Grammar

/-! ### Operators -/

section

variable {stop : Token} (hstop : stop.kind = .eof) {limit depth : Nat} (before : List Token)
  {taken : List Token} (ahead : List Token)

include hstop

theorem unary_takes {op : UnaryOp} {value : Expr} (hvalue : ReadsBack limit value)
    (h : taken.map Token.word = op.word :: value.words .layout) (hdepth : value.nesting < depth)
    (hgrouped : value.AtLeast op.precedence) (hclear : Clear ahead value)
    (hend : ∀ op', operatorAhead ahead = some op' → op'.precedence < op.precedence) :
    ∃ found span, (operand (enterTo limit depth)).TakesSome stop before taken ahead
        (.unary op found span) ∧ found.unplaced = value.unplaced := by
  obtain ⟨opener, tokens, rfl, hopener, htokens⟩ := List.map_eq_cons_iff.mp h
  obtain ⟨found, ⟨hrun, -⟩, hfound⟩ := hvalue.nested (before ++ [opener]) ahead hstop htokens
    hdepth hgrouped hclear hend
  have hop : unaryOp? (firstKind (opener :: tokens ++ ahead)) = some op := by
    change unaryOp? opener.kind = _
    rw [kind_of_word hopener]
    cases op <;> rfl
  refine ⟨found, opener.span.through found.span,
    ⟨(peekKind_takes hstop).bind_nil ?_, by simp⟩, hfound⟩
  rw [hop]
  exact (take_takes opener).bind (hrun.bind_pure (takes_pure _))

theorem lambda_takes {parameter : Identifier} {body : Expr} (hbody : ReadsBack limit body)
    (h : taken.map Token.word = parameter.word :: (.fatArrow, "=>") :: body.words .layout)
    (hdepth : body.nesting < depth) (hgrouped : body.AtLeast lambdaPrecedence)
    (hclear : Clear ahead body)
    (hend : ∀ op, operatorAhead ahead = some op → op.precedence < lambdaPrecedence) :
    ∃ name found span, (operand (enterTo limit depth)).TakesSome stop before taken ahead
        (.lambda name found span) ∧
      name.unplaced = parameter.unplaced ∧ found.unplaced = body.unplaced := by
  obtain ⟨token, rest, rfl, htoken, hrest⟩ := List.map_eq_cons_iff.mp h
  obtain ⟨arrow, tokens, rfl, harrow, htokens⟩ := List.map_eq_cons_iff.mp hrest
  have hkind : token.kind = .identifier := kind_of_word htoken
  obtain ⟨found, ⟨hrun, -⟩, hfound⟩ := hbody.nested (before ++ [token] ++ [arrow]) ahead hstop
    htokens hdepth hgrouped hclear hend
  have hnewline := hbody.ne_newline htokens ahead
  refine ⟨identifierOf token, found, token.span.through found.span,
    ⟨(peekKind_takes hstop).bind_nil ?_, by simp⟩, unplaced_identifierOf htoken, hfound⟩
  rw [show firstKind (token :: arrow :: tokens ++ ahead) = .identifier from hkind]
  refine (atArrow_takes hstop).bind_nil ?_
  rw [show (_ && _) = true by
    simp [hkind, show arrow.kind = .fatArrow from kind_of_word harrow], if_pos rfl]
  refine (take_takes token).bind ((take_takes arrow).bind ?_)
  exact (skipNewlines_takes_nil hstop hnewline).bind_nil (hrun.bind_pure (takes_pure _))

omit hstop in
/-- The words of an operator are looked at as it. -/
theorem operatorAhead?_sign {op : BinaryOp} {least : Nat} {sign : List Token}
    (hsign : sign.map Token.word = op.words) (hleast : least ≤ op.precedence) :
    operatorAhead? least (sign ++ ahead) = some (op, sign.length) := by
  refine operatorAhead?_of_kinds ?_ hleast ahead
  have hkinds : (sign.map Token.word).map (·.1) = op.kinds := by
    rw [hsign]
    cases op <;> rfl
  rwa [List.map_map] at hkinds

omit hstop in
theorem takeSeveral_takes (sign : List Token) :
    (takeSeveral sign.length).Takes stop before sign ahead () := by
  induction sign generalizing before with
  | nil => exact takes_pure ()
  | cons token sign ih =>
    rw [List.length_cons, takeSeveral]
    exact (take_takes token).bind (ih _)

theorem link_takes {op : BinaryOp} {right : Expr} {least : Nat} {sign tokens : List Token}
    (hright : ReadsBack limit right) (hsign : sign.map Token.word = op.words)
    (htokens : tokens.map Token.word = right.words .layout) (hdepth : right.nesting < depth)
    (hleast : least ≤ op.precedence) (hgrouped : right.AtLeast (op.precedence + 1))
    (hclear : Clear ahead right)
    (hend : ∀ op', operatorAhead ahead = some op' → op'.precedence ≤ op.precedence) :
    ∃ found, LinkTakes (enterTo limit depth) least stop before (sign ++ tokens) ahead
        (op, found) ∧ found.unplaced = right.unplaced := by
  obtain ⟨found, ⟨hrun, -⟩, hfound⟩ := hright.nested (before ++ sign) ahead hstop htokens
    hdepth hgrouped hclear fun op' hop => Nat.lt_succ_iff.mpr (hend op' hop)
  have hop := operatorAhead?_sign (tokens ++ ahead) hsign hleast
  have hnewline := hright.ne_newline htokens ahead
  have hne : sign ≠ [] := by
    rintro rfl
    cases op <;> simp [BinaryOp.words] at hsign
  refine ⟨found, ⟨⟨?_, by simp [hne]⟩, ?_⟩, hfound⟩
  · have hpeek := peekOperator_takes hstop before (sign ++ tokens ++ ahead) least
    rw [List.append_assoc, hop, ← List.append_assoc] at hpeek
    refine hpeek.bind_nil (Takes.bind (a := ()) ?_ ((skipNewlines_takes_nil hstop hnewline).bind_nil
      (hrun.bind_pure (takes_pure _))))
    exact takeSeveral_takes _ _ sign
  · rw [List.append_assoc, hop]
    rfl

end

/-! ### Expressions -/

/-- The first words of what a suffix may stand behind are not those of an operator or of
a lambda. -/
theorem plain_of_words {value : Expr} {taken : List Token} (hread : value.All Expr.Readable)
    (hplain : value.IsReceiver) (h : taken.map Token.word = value.words .layout)
    (ahead : List Token) (harrow : firstKind ahead = .fatArrow → ¬ value.endsInName) :
    unaryOp? (firstKind (taken ++ ahead)) = none ∧ ¬ ArrowAhead (taken ++ ahead) := by
  induction value using Expr.induction generalizing taken ahead with
  | step value ih =>
    have hhere := hread.here
    -- What starts with its receiver starts like it, with the suffix behind it.
    have hbehind : ∀ {receiver : Expr} {word : Word} {words : List Word},
        receiver ∈ value.children → receiver.IsReceiver → word.1 ≠ .fatArrow →
        taken.map Token.word = receiver.words .layout ++ word :: words →
        unaryOp? (firstKind (taken ++ ahead)) = none ∧ ¬ ArrowAhead (taken ++ ahead) := by
      intro receiver word words hchild hreceiver hword h
      obtain ⟨front, back, rfl, hfront, hback⟩ := List.map_eq_append_iff.mp h
      obtain ⟨first, rest, rfl, hfirst, -⟩ := List.map_eq_cons_iff.mp hback
      rw [List.append_assoc]
      refine ih receiver hchild (hread.child hchild) hreceiver hfront _ fun hk => ?_
      change first.kind = _ at hk
      exact absurd (kind_of_word hfirst ▸ hk) hword
    have hsingle : ∀ {word : Word}, unaryOp? word.1 = none →
        (word.1 = .identifier → value.endsInName) → taken.map Token.word = [word] →
        unaryOp? (firstKind (taken ++ ahead)) = none ∧ ¬ ArrowAhead (taken ++ ahead) := by
      intro word hword hname h
      obtain ⟨token, rfl, htoken⟩ := List.map_eq_singleton_iff.mp h
      have hkind := kind_of_word htoken
      refine ⟨by rwa [← hkind] at hword, fun hahead => ?_⟩
      obtain ⟨hfirst, hsecond⟩ := hahead
      exact harrow hsecond (hname (hkind ▸ hfirst))
    have hopening : ∀ {word : Word} {words : List Word}, unaryOp? word.1 = none →
        word.1 ≠ .identifier → taken.map Token.word = word :: words →
        unaryOp? (firstKind (taken ++ ahead)) = none ∧ ¬ ArrowAhead (taken ++ ahead) := by
      intro word words hword hname h
      obtain ⟨token, rest, rfl, htoken, -⟩ := List.map_eq_cons_iff.mp h
      have hkind := kind_of_word htoken
      exact ⟨by rwa [← hkind] at hword, fun hahead => hname (hkind ▸ hahead.1)⟩
    cases value with
    | binary | unary | lambda => exact hplain.elim
    | literal value span =>
      refine hopening ?_ ?_ h
      · cases value with
        | bool value => cases value <;> rfl
        | _ => rfl
      · cases value with
        | bool value => cases value <;> simp [Literal.tokenKind]
        | _ => simp [Literal.tokenKind]
    | identifier name span => exact hsingle rfl (fun _ => trivial) h
    | placeholder span => exact hsingle rfl (fun _ => trivial) h
    | format | «variable» | this | metadata | list | record | paren =>
      exact hopening rfl (by simp) h
    | call function arguments span =>
      obtain ⟨hfirst, hsecond⟩ := callAhead_of_words ahead hhere.2.1 h
      refine ⟨by rw [hfirst]; rfl, fun hahead => ?_⟩
      obtain ⟨-, harrow⟩ := hahead
      rw [harrow] at hsecond
      simp at hsecond
    | member receiver name mark span =>
      have hmark : ∃ word words, name.memberWords mark = word :: words ∧ word.1 ≠ .fatArrow := by
        obtain _ | _ | _ := mark <;> exact ⟨_, _, rfl, by simp⟩
      obtain ⟨word, words, hmark, hword⟩ := hmark
      rw [Expr.words, hmark] at h
      exact hbehind (by simp [Expr.children]) hhere.1 hword h
    | index receiver key optional span =>
      exact hbehind (by simp [Expr.children]) hhere.1 (by simp) h
    | methodCall receiver function arguments span =>
      exact hbehind (by simp [Expr.children]) hhere.1 (by simp) h

/-- An operand with its suffixes is read from its words. -/
theorem operand_takes {limit depth : Nat} {stop : Token} {before taken ahead : List Token}
    {value found : Expr} (hstop : stop.kind = .eof) (hread : value.All Expr.Readable)
    (hplain : value.IsReceiver) (h : taken.map Token.word = value.words .layout)
    (hclear : Clear ahead value)
    (hsuffixes : SuffixesTake (enterTo limit depth) stop before taken ahead found) :
    (operand (enterTo limit depth)).TakesSome stop before taken ahead found := by
  obtain ⟨hop, harrow⟩ := plain_of_words hread hplain h ahead hclear.arrow
  exact operand_of_suffixed hstop (hsuffixes.suffixed hstop hclear.suffix) hop harrow

section

variable {ahead : List Token}

theorem Clear.operand {op : UnaryOp} {value : Expr} {span : Span}
    (h : Clear ahead (.unary op value span)) (hgrouped : value.AtLeast op.precedence) :
    Clear ahead value ∧ ∀ op', operatorAhead ahead = some op' → op'.precedence < op.precedence := by
  have hstops : ∀ op', operatorAhead ahead = some op' → op'.precedence < op.precedence :=
    fun op' hop => (h.ends op' hop).2 _ (by simp [Expr.rightEdge])
  exact ⟨⟨fun op' hop => ⟨hgrouped.mono (hstops op' hop).le,
    fun precedence hmem => (h.ends op' hop).2 _ (List.mem_cons_of_mem _ hmem)⟩,
    h.suffix, h.touch, h.arrow⟩, hstops⟩

theorem Clear.body {parameter : Identifier} {value : Expr} {span : Span}
    (h : Clear ahead (.lambda parameter value span)) (hgrouped : value.AtLeast lambdaPrecedence) :
    Clear ahead value ∧
      ∀ op, operatorAhead ahead = some op → op.precedence < lambdaPrecedence := by
  have hstops : ∀ op, operatorAhead ahead = some op → op.precedence < lambdaPrecedence :=
    fun op hop => (h.ends op hop).2 _ (by simp [Expr.rightEdge])
  exact ⟨⟨fun op hop => ⟨hgrouped.mono (hstops op hop).le,
    fun precedence hmem => (h.ends op hop).2 _ (List.mem_cons_of_mem _ hmem)⟩,
    h.suffix, h.touch, h.arrow⟩, hstops⟩

theorem Clear.right {op : BinaryOp} {left right : Expr} {span : Span}
    (h : Clear ahead (.binary op left right span)) (hgrouped : right.AtLeast (op.precedence + 1)) :
    Clear ahead right ∧
      ∀ op', operatorAhead ahead = some op' → op'.precedence ≤ op.precedence := by
  have hstops : ∀ op', operatorAhead ahead = some op' → op'.precedence ≤ op.precedence :=
    fun op' hop => (h.ends op' hop).1 op rfl
  exact ⟨⟨fun op' hop => ⟨hgrouped.mono (Nat.le_succ_of_le (hstops op' hop)),
    (h.ends op' hop).2⟩, h.suffix, h.touch, h.arrow⟩, hstops⟩

/-- An operator does not go on with its left operand. -/
theorem clear_of_leftOf {op : BinaryOp} {left : Expr} {sign : List Token}
    (hsign : sign.map Token.word = op.words) (hleft : left.LeftOf op) :
    Clear (sign ++ ahead) left := by
  have hkinds : sign.map (·.kind) = op.kinds := by
    have hwords : sign.map (·.kind) = (sign.map Token.word).map (·.1) := by
      rw [List.map_map]
      rfl
    rw [hwords, hsign]
    cases op <;> rfl
  have hfirst : firstKind (sign ++ ahead) ∉ suffixOpeners ∧ firstKind (sign ++ ahead) ∉ touching ∧
      firstKind (sign ++ ahead) ≠ .fatArrow := by
    obtain ⟨kind, kinds, hkind, hmem⟩ : ∃ kind kinds, op.kinds = kind :: kinds ∧
        kind ∉ suffixOpeners ∧ kind ∉ touching ∧ kind ≠ .fatArrow := by
      cases op <;> exact ⟨_, _, rfl, by decide⟩
    rw [hkind] at hkinds
    obtain ⟨token, rest, rfl, rfl, -⟩ := List.map_eq_cons_iff.mp hkinds
    exact hmem
  refine ⟨fun op' hop => ?_, hfirst.1, hfirst.2.1, fun hk => absurd hk hfirst.2.2⟩
  rw [operatorAhead_sign hkinds] at hop
  obtain rfl := Option.some.inj hop
  exact hleft

end

section

variable {limit depth : Nat} {stop : Token} (hstop : stop.kind = .eof) (before : List Token)
  {taken : List Token} (ahead : List Token) {value : Expr}

include hstop

/-! ### Receivers -/

/-- What suffixes stand behind is read from its words. -/
theorem primary_takes (hprimary : value.IsPrimary) (hlegible : value.Legible)
    (hchild : ∀ child ∈ value.children, ReadsBack limit child)
    (h : taken.map Token.word = value.words .layout) (hdepth : value.nesting ≤ depth)
    (hahead : firstKind ahead ∉ touching) :
    ∃ found, (primary (enterTo limit depth)).TakesSome stop before taken ahead found ∧
      found.unplaced = value.unplaced := by
  cases value with
  | binary | unary | lambda | member | index | methodCall => exact hprimary.elim
  | literal value span =>
    obtain ⟨token, rfl, htoken⟩ := List.map_eq_singleton_iff.mp h
    exact ⟨_, literal_takes _ _ hlegible htoken, rfl⟩
  | format segments span =>
    obtain ⟨token, rfl, htoken⟩ := List.map_eq_singleton_iff.mp h
    obtain ⟨found, span', hrun, hfound⟩ := formatString_takes _ _ hlegible hchild htoken hdepth
    refine ⟨_, hrun, ?_⟩
    rw [Expr.unplaced, Expr.unplaced, Segment.allUnplaced_eq_map, hfound,
      Segment.allUnplaced_eq_map]
  | identifier name span =>
    obtain ⟨token, rfl, htoken⟩ := List.map_eq_singleton_iff.mp h
    refine ⟨_, name_takes hstop before ahead (kind_of_word htoken) hahead, ?_⟩
    rw [nameOrPlaceholder, text_of_word htoken, if_neg (by simpa [Expr.Legible] using hlegible)]
    rfl
  | placeholder span =>
    obtain ⟨token, rfl, htoken⟩ := List.map_eq_singleton_iff.mp h
    refine ⟨_, name_takes hstop before ahead (kind_of_word htoken) hahead, ?_⟩
    rw [nameOrPlaceholder, text_of_word htoken, if_pos (by simp)]
    rfl
  | «variable» name span =>
    obtain ⟨token, rfl, htoken⟩ := List.map_eq_singleton_iff.mp h
    exact ⟨_, variable_takes _ _ htoken, rfl⟩
  | this span =>
    obtain ⟨token, rfl, htoken⟩ := List.map_eq_singleton_iff.mp h
    exact ⟨_, this_takes _ _ (kind_of_word htoken), rfl⟩
  | metadata selector span =>
    obtain ⟨found, span', hrun, hfound⟩ := metadata_takes hstop before ahead h
    exact ⟨_, hrun, by rw [Expr.unplaced, Expr.unplaced, hfound]⟩
  | list items span =>
    obtain ⟨found, span', hrun, hfound⟩ := list_takes hstop before ahead
      (fun item hmem => hchild _ (List.mem_map_of_mem hmem)) h hdepth
    refine ⟨_, hrun, ?_⟩
    rw [Expr.unplaced, Expr.unplaced, ListItem.allUnplaced_eq_map, hfound,
      ListItem.allUnplaced_eq_map]
  | record items span =>
    obtain ⟨found, span', hrun, hfound⟩ := record_takes hstop before ahead hlegible
      (fun item hmem => hchild _ (List.mem_map_of_mem hmem)) h hdepth
    refine ⟨_, hrun, ?_⟩
    rw [Expr.unplaced, Expr.unplaced, RecordItem.allUnplaced_eq_map, hfound,
      RecordItem.allUnplaced_eq_map]
  | paren inner span =>
    obtain ⟨found, span', hrun, hfound⟩ := paren_takes hstop before ahead
      (hchild inner (by simp [Expr.children])) h
      (show inner.nesting < depth by rw [Expr.nesting] at hdepth; omega)
    exact ⟨_, hrun, by rw [Expr.unplaced, Expr.unplaced, hfound]⟩
  | call function arguments span =>
    obtain ⟨function', found, span', hrun, hfunction, hfound⟩ := primary_call_takes hstop before
      ahead hlegible.1 hlegible.2 (fun item hmem => hchild _ (List.mem_map_of_mem hmem)) h hdepth
    refine ⟨_, hrun, ?_⟩
    rw [Expr.unplaced, Expr.unplaced, hfunction, Argument.allUnplaced_eq_map, hfound,
      Argument.allUnplaced_eq_map]

/-- A receiver is read before the suffix behind it. -/
theorem ReadsBack.suffixed {receiver : Expr} {suffix : Suffix} {front back : List Token}
    (h : ReadsBack limit receiver) (hreceiver : receiver.IsReceiver)
    (hfront : front.map Token.word = receiver.words .layout) (hdepth : receiver.nesting ≤ depth)
    (hsuffix : SuffixTakes (enterTo limit depth) stop (before ++ front) back ahead suffix) :
    ∃ found, SuffixesTake (enterTo limit depth) stop before (front ++ back) ahead
        (suffix.apply found) ∧ found.unplaced = receiver.unplaced := by
  obtain ⟨found, hrun, hfound⟩ := h.suffixes before (back ++ ahead) hstop hreceiver hfront hdepth
    (suffix_notMem_touching hsuffix.2)
  exact ⟨found, hrun.concat hsuffix, hfound⟩

/-- A receiver is read from its words, with all its suffixes. -/
theorem suffixes_take (hreceiver : value.IsReceiver) (hreadable : value.Readable)
    (hchild : ∀ child ∈ value.children, ReadsBack limit child)
    (h : taken.map Token.word = value.words .layout) (hdepth : value.nesting ≤ depth)
    (hahead : firstKind ahead ∉ touching) :
    ∃ found, SuffixesTake (enterTo limit depth) stop before taken ahead found ∧
      found.unplaced = value.unplaced := by
  obtain ⟨hgrouped, hlegible⟩ := hreadable
  have hprimary : value.IsPrimary → ∃ found,
      SuffixesTake (enterTo limit depth) stop before taken ahead found ∧
        found.unplaced = value.unplaced := fun hprimary => by
    obtain ⟨found, hrun, hfound⟩ :=
      primary_takes hstop before ahead hprimary hlegible hchild h hdepth hahead
    exact ⟨found, .of_primary hrun, hfound⟩
  cases value with
  | binary | unary | lambda => exact hreceiver.elim
  | member receiver name mark span =>
    obtain ⟨front, back, rfl, hfront, hback⟩ := List.map_eq_append_iff.mp h
    obtain ⟨name', span', hrun, hname⟩ := member_takes hstop (before ++ front) ahead hback hahead
    obtain ⟨found, hsuffixes, hfound⟩ := (hchild receiver (by simp [Expr.children])).suffixed
      hstop before ahead hgrouped hfront hdepth hrun
    exact ⟨_, hsuffixes, by rw [Suffix.apply, Expr.unplaced, Expr.unplaced, hfound, hname]⟩
  | index receiver key optional span =>
    rw [Expr.nesting] at hdepth
    obtain ⟨front, back, rfl, hfront, hback⟩ := List.map_eq_append_iff.mp h
    obtain ⟨key', span', hrun, hkey⟩ := index_takes hstop (before ++ front) ahead
      (hchild key (by simp [Expr.children])) hback (show key.nesting < depth by omega) hahead
    obtain ⟨found, hsuffixes, hfound⟩ := (hchild receiver (by simp [Expr.children])).suffixed
      hstop before ahead hgrouped hfront (by omega) hrun
    exact ⟨_, hsuffixes, by rw [Suffix.apply, Expr.unplaced, Expr.unplaced, hfound, hkey]⟩
  | methodCall receiver function arguments span =>
    rw [Expr.nesting] at hdepth
    obtain ⟨front, back, rfl, hfront, hback⟩ := List.map_eq_append_iff.mp h
    obtain ⟨function', arguments', span', hrun, hfunction, harguments⟩ := methodCall_takes hstop
      (before ++ front) ahead hlegible.1 hlegible.2
      (fun item hmem => hchild _ (List.mem_cons_of_mem _ (List.mem_map_of_mem hmem))) hback
      (show 1 + Argument.nesting arguments ≤ depth by omega)
    obtain ⟨found, hsuffixes, hfound⟩ := (hchild receiver (by simp [Expr.children])).suffixed
      hstop before ahead hgrouped hfront (by omega) hrun
    refine ⟨_, hsuffixes, ?_⟩
    rw [Suffix.apply, Expr.unplaced, Expr.unplaced, hfound, hfunction,
      Argument.allUnplaced_eq_map, harguments, Argument.allUnplaced_eq_map]
  | _ => exact hprimary trivial

/-! ### All expressions -/

/-- An operator is read with both its operands. -/
theorem binary_takes {op : BinaryOp} {left right : Expr} {span : Span} {least : Nat}
    (hleft : ReadsBack limit left) (hright : ReadsBack limit right)
    (hgrouped : (Expr.binary op left right span).Grouped)
    (h : taken.map Token.word = (Expr.binary op left right span).words .layout)
    (hdepth : (Expr.binary op left right span).nesting ≤ depth) (hleast : least ≤ op.precedence)
    (hclear : Clear ahead (.binary op left right span)) :
    ∃ left' right', LinksTake (enterTo limit depth) least stop before taken ahead
        (join left' (op, right')) ∧
      left'.unplaced = left.unplaced ∧ right'.unplaced = right.unplaced := by
  rw [Expr.nesting] at hdepth
  rw [Expr.words, List.append_assoc] at h
  obtain ⟨front, back, rfl, hfront, hback⟩ := List.map_eq_append_iff.mp h
  obtain ⟨sign, tokens, rfl, hsign, htokens⟩ := List.map_eq_append_iff.mp hback
  obtain ⟨hclear, hend⟩ := hclear.right hgrouped.2
  obtain ⟨right', hrun, hright'⟩ := link_takes hstop (before ++ front) ahead hright hsign htokens
    (show right.nesting < depth by omega) hleast hgrouped.2 hclear hend
  obtain ⟨left', hlinks, hleft'⟩ := hleft.links before (sign ++ (tokens ++ ahead)) hstop hfront
    (show left.nesting ≤ depth by omega) (hgrouped.1.1.mono hleast)
    (clear_of_leftOf hsign hgrouped.1)
  exact ⟨left', right', LinksTake.concat (by simpa using hlinks) hrun, hleft', hright'⟩

end

/-- All readable expressions are read from their words. -/
theorem readsBack (limit : Nat) {value : Expr} (hread : value.All Expr.Readable) :
    ReadsBack limit value := by
  induction value using Expr.induction with
  | step value ih =>
    have hgrouped := hread.here.1
    have hchild : ∀ child ∈ value.children, ReadsBack limit child :=
      fun child hmem => ih child hmem (hread.child hmem)
    refine ⟨hread, fun before _ ahead hstop hreceiver h hdepth hahead =>
      suffixes_take hstop before ahead hreceiver hread.here hchild h hdepth hahead, ?_⟩
    intro stop depth least before taken ahead hstop h hdepth hleast hclear
    by_cases hreceiver : value.IsReceiver
    · obtain ⟨found, hrun, hfound⟩ := suffixes_take hstop before ahead hreceiver hread.here hchild h
        hdepth hclear.touch
      exact ⟨found, .of_operand (operand_takes hstop hread hreceiver h hclear hrun), hfound⟩
    · cases value with
      | unary op operand span =>
        obtain ⟨hclear, hend⟩ := hclear.operand hgrouped
        obtain ⟨found, span', hrun, hfound⟩ := unary_takes hstop before ahead
          (hchild operand (by simp [Expr.children])) h
          (show operand.nesting < depth by rw [Expr.nesting] at hdepth; omega) hgrouped hclear hend
        exact ⟨_, .of_operand hrun, by rw [Expr.unplaced, Expr.unplaced, hfound]⟩
      | lambda parameter body span =>
        obtain ⟨hclear, hend⟩ := hclear.body hgrouped
        obtain ⟨name, found, span', hrun, hname, hfound⟩ := lambda_takes hstop before ahead
          (hchild body (by simp [Expr.children])) h
          (show body.nesting < depth by rw [Expr.nesting] at hdepth; omega) hgrouped hclear hend
        exact ⟨_, .of_operand hrun, by rw [Expr.unplaced, Expr.unplaced, hname, hfound]⟩
      | binary op left right span =>
        obtain ⟨left', right', hrun, hleft, hright⟩ := binary_takes hstop before ahead
          (hchild left (by simp [Expr.children])) (hchild right (by simp [Expr.children]))
          hgrouped h
          hdepth (hleast op rfl) hclear
        refine ⟨_, hrun, ?_⟩
        rw [join, Expr.unplaced, Expr.unplaced, hleft, hright]
      | _ => exact absurd trivial hreceiver

end Grammar

end PipelineLang
