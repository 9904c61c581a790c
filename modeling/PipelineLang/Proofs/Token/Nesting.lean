import PipelineLang.Proofs.Token.Locality
import PipelineLang.Proofs.Token.Lossless

/-!
# Tokens in format strings

A format string is read the same way whatever is behind it, and so are the tokens in its
replacements, even if the text ends where the closing brace has been.

## Main definitions

- `Agrees` — a reader of replacements finds what another one finds within a text
- `Narrows` — a reader of tokens finds what another one finds before a closing brace

## Main results

- `FormatBody.read_within` — a format string is read the same way wherever it stands
- `Lexeme.recognizeWith_within` — so is a token that ends before what it does not go on with
- `Lexeme.narrows_recognizeWith` — so is a token before a closing brace
- `Lexeme.agrees_replacement` — so is a replacement, with as many levels or more

## Design notes

Both properties compare two readers, since a format string that lies in another one is
read again with more levels left than the first time.
-/

namespace PipelineLang

/-- What a reader of replacements finds within a text, another one finds there whatever is
behind the text. -/
def Agrees
    (replacement replacement' : Option TokenKind → List Char → Except LexicalFault Replacement) :
    Prop :=
  ∀ previous previous' front back back' found, replacement previous (front ++ back) = .ok found →
    found.length ≤ front.length → replacement' previous' (front ++ back') = .ok found

/-- What a reader of tokens finds before a closing brace, another one finds there if the
brace is still there or the text ends before it. -/
def Narrows (token token' : Before → List Char → Except LexicalFault Lexeme) : Prop :=
  ∀ before before' front tail back' lexeme, before.Alike before' → front ≠ [] → Closed back' →
    token before (front ++ '\x7d' :: tail) = .ok lexeme → lexeme.length ≤ front.length →
    token' before' (front ++ back') = .ok lexeme

variable {replacement replacement' : Option TokenKind → List Char → Except LexicalFault Replacement}
  {front back back' : List Char} {before before' : Before}

theorem Cursor.charactersBefore_within {offset : Nat}
    (h : charactersBefore offset (front ++ back) < front.length) :
    charactersBefore offset (front ++ back') = charactersBefore offset (front ++ back) := by
  induction front generalizing offset with
  | nil => simp at h
  | cons c front ih =>
    rw [List.cons_append, charactersBefore] at h ⊢
    rw [List.cons_append, charactersBefore]
    split
    · next hc =>
      rw [if_pos hc, List.length_cons] at h
      rw [ih (by omega)]
    · rfl

namespace FormatBody

/-- Two states with the same pieces. -/
def State.Alike (state state' : State) : Prop :=
  state.parts = state'.parts ∧ state.textStart = state'.textStart

theorem State.Alike.partsUpTo {state state' : State} (h : state.Alike state') (position : Nat) :
    state.partsUpTo position = state'.partsUpTo position := by
  rw [State.partsUpTo, State.partsUpTo, h.1, h.2]

theorem State.Alike.inText {state state' : State} (h : state.Alike state') (position : Nat) :
    (state.inText position).Alike (state'.inText position) :=
  ⟨h.1, by rw [State.inText, State.inText, h.2]⟩

theorem stopAlike_read (hagree : Agrees replacement replacement') :
    StopAlike (read.stop replacement) (read.stop replacement') State.Alike FormatBody.length 1
      front back back' where
  margin_pos := Nat.one_pos
  margin_le position _ ahead a h := by
    unfold read.stop at h
    dsimp only at h
    repeat' split at h
    all_goals simp only [read.finish, Stride.done.injEq, reduceCtorEq, Except.ok.injEq] at h
    subst h
    exact Nat.le_refl _
  done position state state' a halike hle hlength h := by
    obtain ⟨c, rest, hdrop, -⟩ := Lexeme.exists_drop (show position < front.length by omega)
    rw [hdrop, List.cons_append] at h ⊢
    simp only [read.stop] at h ⊢
    split at h
    · next hquote => rw [if_pos hquote, ← halike.partsUpTo, h]
    · repeat' split at h
      all_goals simp at h
  go position extra state state' next halike hle h := by
    obtain ⟨c, rest, hdrop, hrest⟩ := Lexeme.exists_drop (show position < front.length by omega)
    have hne : rest ≠ [] := List.ne_nil_of_length_pos (by omega)
    have hhead : ∀ back : List Char, (rest ++ back).head? = rest.head? := by
      intro back
      rw [List.head?_append, List.head?_eq_some_head hne, Option.some_or]
    rw [hdrop, List.cons_append] at h ⊢
    simp only [read.stop, hhead] at h ⊢
    split at h
    · simp at h
    next hquote =>
    rw [if_neg hquote]
    split at h
    · next hopen =>
      rw [if_pos hopen]
      split at h
      · simp at h
      · next found hfound =>
        obtain ⟨rfl, rfl⟩ := Stride.go.inj h
        have hwithin : found.length ≤ (c :: rest).length := by
          rw [List.length_cons]
          omega
        rw [← List.cons_append] at hfound ⊢
        rw [hagree _ state'.previous _ _ back' _ hfound hwithin]
        exact ⟨_, rfl, by rw [halike.partsUpTo], rfl⟩
    next hopen =>
    rw [if_neg hopen]
    split at h
    · next hslash =>
      rw [if_pos hslash]
      split at h
      · next n hn =>
        obtain ⟨rfl, rfl⟩ := Stride.go.inj h
        rw [Escape.length?_within hn hne (by omega)]
        exact ⟨_, rfl, halike.inText position⟩
      · simp at h
    next hslash =>
    rw [if_neg hslash]
    split at h
    · next hbrace =>
      obtain ⟨rfl, rfl⟩ := Stride.go.inj h
      rw [if_pos hbrace]
      exact ⟨_, rfl, halike.inText position⟩
    · next hbrace =>
      obtain ⟨rfl, rfl⟩ := Stride.go.inj h
      rw [if_neg hbrace]
      exact ⟨_, rfl, halike.inText position⟩

/-- A format string is read the same way whatever is before it and behind it. -/
theorem read_within (hagree : Agrees replacement replacement') {body : FormatBody}
    (h : read replacement before (front ++ back) = .ok body) (hle : body.length ≤ front.length) :
    read replacement' before' (front ++ back') = .ok body := by
  rw [read] at h ⊢
  have hwalk : Cursor.charactersBefore openingBytes (front ++ back) + 1 ≤ front.length ∧
      walk (read.stop replacement') read.finish 0
        (Cursor.charactersBefore openingBytes (front ++ back)) ⟨[], none, before'.previous⟩
        ((front ++ back').drop (Cursor.charactersBefore openingBytes (front ++ back))) = .ok body :=
    (stopAlike_read hagree).walk (by simp [read.finish]) h hle ⟨rfl, rfl⟩
  rw [Cursor.charactersBefore_within (Nat.lt_of_succ_le hwalk.1), hwalk.2]

end FormatBody

namespace Lexeme

/-- A character that does not tell alone, or with the next one, that a line end, a comment or
a plain string is next. -/
structure IsOpen (c : Char) (rest : List Char) : Prop where
  lineEnd : c ≠ '\n'
  quote : c ≠ '\x22' ∧ c ≠ '\x27'
  comment : c = '/' → rest.head? ≠ some '/' ∧ rest.head? ≠ some '*'

/-- The token at the head of a text with such a first character. -/
def recognizeOpen
    (replacement : Option TokenKind → List Char → Except LexicalFault Replacement)
    (before : Before) (c : Char) (rest : List Char) : Except LexicalFault Lexeme :=
  let quoteNext := rest.head? == some '\x22'
  if c = 'b' && (quoteNext || rest.head? == some '\x27') then ofQuoted before 1 (c :: rest)
  else if c = 'b' && (rest.head? == some 'r' && opensRaw (rest.drop 1)) then
    ofRaw before 2 (c :: rest)
  else if c = 'r' && opensRaw rest then ofRaw before 1 (c :: rest)
  else if c = 'f' && quoteNext then
    (FormatBody.read replacement before (c :: rest)).map fun body => ⟨.formatString, body.length⟩
  else if c = '$' then
    match wordAhead rest with
    | 0 => .error ⟨.unexpectedCharacter c, 0, 1, before.previous⟩
    | length => .ok ⟨.dollarVar, 1 + length⟩
  else if c.isDigit then .ok (ofDigit (c :: rest))
  else if c = ':' then .ok (ofColon before (c :: rest))
  else if Ascii.isWordStart c then .ok (ofWord before (c :: rest))
  else match ofPunctuation? (c :: rest) with
    | some lexeme => .ok lexeme
    | none => .error ⟨.unexpectedCharacter c, 0, 1, before.previous⟩

theorem recognizeWith_open {c : Char} {rest : List Char} (h : IsOpen c rest) :
    recognizeWith replacement before (c :: rest) = recognizeOpen replacement before c rest := by
  unfold recognizeWith
  split
  · next heq => simp at heq
  · next heq => exact absurd (List.cons.inj heq).1 h.lineEnd
  · next heq =>
    obtain ⟨rfl, rfl⟩ := List.cons.inj heq
    exact absurd rfl (h.comment rfl).1
  · next heq =>
    obtain ⟨rfl, rfl⟩ := List.cons.inj heq
    exact absurd rfl (h.comment rfl).2
  · next heq => exact absurd (List.cons.inj heq).1 h.quote.1
  · next heq => exact absurd (List.cons.inj heq).1 h.quote.2
  · next heq =>
    obtain ⟨rfl, rfl⟩ := List.cons.inj heq
    simp only [Bool.and_assoc]
    rfl

theorem recognizeOpen_within (hagree : Agrees replacement replacement')
    (halike : before.Alike before') {c : Char} {rest : List Char}
    (hback : Spares before (c :: rest) back) (hback' : Spares before' (c :: rest) back')
    {lexeme : Lexeme}
    (h : recognizeOpen replacement before c (rest ++ back) = .ok lexeme)
    (hle : lexeme.length ≤ (c :: rest).length) :
    recognizeOpen replacement' before' c (rest ++ back') = .ok lexeme := by
  -- All that decides which sort of token is next lies before what is behind.
  have hraw : ∀ {before back}, Spares before (c :: rest) back →
      ((rest ++ back).head? == some 'r' && opensRaw ((rest ++ back).drop 1)) =
        (rest.head? == some 'r' && opensRaw (rest.drop 1)) := by
    intro before back hback
    rw [hback.head_append rest (by decide)]
    cases rest with
    | nil => rfl
    | cons d rest =>
      rw [List.cons_append, List.drop_one, List.tail_cons, List.drop_one, List.tail_cons,
        opensRaw_append hback.stops]
  have hdollar : ∀ {before back}, Spares before (c :: rest) back →
      wordAhead (rest ++ back) = wordAhead rest := fun hback => wordAhead_append hback.stops
  unfold recognizeOpen at h ⊢
  simp only [hraw hback, hdollar hback, opensRaw_append hback.stops,
    hback.head_append rest (by decide : '\x22' ∉ breakers),
    hback.head_append rest (by decide : '\x27' ∉ breakers), ← List.cons_append] at h
  simp only [hraw hback', hdollar hback', opensRaw_append hback'.stops,
    hback'.head_append rest (by decide : '\x22' ∉ breakers),
    hback'.head_append rest (by decide : '\x27' ∉ breakers), ← List.cons_append]
  split at h
  · next hc => rw [if_pos hc, ofQuoted_within h hle]
  next hc =>
  rw [if_neg hc]
  split at h
  · next hc => rw [if_pos hc, ofRaw_within h hle]
  next hc =>
  rw [if_neg hc]
  split at h
  · next hc => rw [if_pos hc, ofRaw_within h hle]
  next hc =>
  rw [if_neg hc]
  split at h
  · next hc =>
    rw [if_pos hc]
    cases hbody : FormatBody.read replacement before (c :: rest ++ back) with
    | error fault =>
      rw [hbody] at h
      simp [Except.map] at h
    | ok body =>
      rw [hbody] at h
      obtain rfl := Except.ok.inj h
      rw [FormatBody.read_within hagree hbody hle]
      rfl
  next hc =>
  rw [if_neg hc]
  split at h
  · next hc =>
    rw [if_pos hc]
    split at h
    · simp at h
    · exact h
  next hc =>
  rw [if_neg hc]
  split at h
  · next hc => rw [if_pos hc, ofDigit_append hback'.stops, ← h, ofDigit_append hback.stops]
  next hc =>
  rw [if_neg hc]
  split at h
  · next hc =>
    subst hc
    rw [if_pos rfl, ← h, List.cons_append, List.cons_append,
      ofColon_append before'.alike_self hback'.stops, ofColon_append halike hback.stops]
  next hc =>
  rw [if_neg hc]
  split at h
  · next hc =>
    rw [if_pos hc, ← h, ofWord_append before'.alike_self hback', ofWord_append halike hback]
  next hc =>
  rw [if_neg hc]
  rw [ofPunctuation?_append (by simp) hback] at h
  rw [ofPunctuation?_append (by simp) hback']
  split at h
  · exact h
  · simp at h

theorem IsOpen.append {c : Char} {text rest : List Char} (h : IsOpen c rest)
    (hback : Spares before text back) (hslash : c = '/' → rest = [] → back.head? ≠ some '/') :
    IsOpen c (rest ++ back) := by
  refine ⟨h.lineEnd, h.quote, fun hc => ?_⟩
  obtain ⟨hline, hblock⟩ := h.comment hc
  constructor
  · cases rest with
    | nil => exact hslash hc rfl
    | cons d rest => exact hline
  · rw [ne_eq, ← beq_iff_eq, hback.head_append rest (by decide), beq_iff_eq]
    exact hblock

/-- A token is read the same way whatever is behind its text, if no token goes on with it and
line comments end alike. -/
theorem recognizeWith_within (hagree : Agrees replacement replacement')
    (halike : before.Alike before') (hne : front ≠ []) (hback : Spares before front back)
    (hback' : Spares before' front back') (hslash : back'.head? ≠ some '/')
    (hlines : (ofLineComment (front ++ back)).length ≤ front.length →
      ofLineComment (front ++ back') = ofLineComment (front ++ back)) {lexeme : Lexeme}
    (h : recognizeWith replacement before (front ++ back) = .ok lexeme)
    (hle : lexeme.length ≤ front.length) :
    recognizeWith replacement' before' (front ++ back') = .ok lexeme := by
  obtain ⟨c, rest, rfl⟩ := List.exists_cons_of_ne_nil hne
  by_cases hopen : IsOpen c rest
  · have hopen' : IsOpen c (rest ++ back) := by
      refine hopen.append hback ?_
      -- Two slashes are a comment, which takes both.
      rintro rfl rfl hhead
      obtain ⟨tail, rfl⟩ := List.head?_eq_some_iff.mp hhead
      obtain rfl := Except.ok.inj (show Except.ok (ofLineComment _) = Except.ok lexeme from h)
      simp [ofLineComment] at hle
    rw [List.cons_append, recognizeWith_open hopen'] at h
    rw [List.cons_append, recognizeWith_open (hopen.append hback' fun _ _ => hslash)]
    exact recognizeOpen_within hagree halike hback hback' h hle
  by_cases hline : c = '\n'
  · subst hline
    exact h
  by_cases hquote : c = '\x22'
  · subst hquote
    have hquoted : ofQuoted before 0 ('\x22' :: rest ++ back) = .ok lexeme := h
    exact (ofQuoted_within hquoted hle : ofQuoted before' 0 _ = _)
  by_cases hquote' : c = '\x27'
  · subst hquote'
    have hquoted : ofQuoted before 0 ('\x27' :: rest ++ back) = .ok lexeme := h
    exact (ofQuoted_within hquoted hle : ofQuoted before' 0 _ = _)
  -- What is left is a slash that opens a comment.
  have hcomment : c = '/' ∧ (rest.head? = some '/' ∨ rest.head? = some '*') := by
    by_contra hnot
    refine hopen ⟨hline, ⟨hquote, hquote'⟩, fun hc => ?_⟩
    exact not_or.mp fun hhead => hnot ⟨hc, hhead⟩
  obtain ⟨rfl, hhead | hhead⟩ := hcomment
  · obtain ⟨rest, rfl⟩ := List.head?_eq_some_iff.mp hhead
    obtain rfl := Except.ok.inj (show Except.ok (ofLineComment _) = Except.ok lexeme from h)
    exact congrArg Except.ok (hlines hle)
  · obtain ⟨rest, rfl⟩ := List.head?_eq_some_iff.mp hhead
    exact ofBlockComment_within h hle

/-- A token before a closing brace is read the same way if the text ends before the brace. -/
theorem narrows_recognizeWith (hagree : Agrees replacement replacement') :
    Narrows (recognizeWith replacement) (recognizeWith replacement') :=
  fun _ _ _ tail _ _ halike hne hback' h hle =>
    recognizeWith_within hagree halike hne ((closed_cons tail).breaks.spares _)
      (hback'.breaks.spares _) hback'.breaks.head_ne (ofLineComment_within (by decide)) h hle

end Lexeme

/-! ### Gaps -/

namespace Gap

variable {text rest : List Char}

theorem continuation?_append (h : Closed rest) (text : List Char) :
    continuation? (text ++ rest) = continuation? text := by
  induction text with
  | nil =>
    cases rest with
    | nil => rfl
    | cons c rest =>
      obtain rfl := h c rfl
      rfl
  | cons c text ih => simp only [List.cons_append, continuation?, ih]

theorem lengthFrom_append (h : Closed rest) {skip : Nat} (hle : skip ≤ text.length) :
    lengthFrom skip (text ++ rest) = lengthFrom skip text := by
  induction text generalizing skip with
  | nil =>
    obtain rfl : skip = 0 := Nat.le_zero.mp hle
    cases rest with
    | nil => rfl
    | cons c rest =>
      obtain rfl := h c rfl
      rfl
  | cons c text ih =>
    cases skip with
    | succ skip =>
      have hskip : skip ≤ text.length := Nat.le_of_succ_le_succ hle
      rw [List.cons_append, lengthFrom, lengthFrom, ih hskip]
    | zero =>
      rw [List.cons_append, lengthFrom, lengthFrom, continuation?_append h, ih (Nat.zero_le _)]
      cases hcontinuation : continuation? text with
      | none => rfl
      | some n => simp only [ih (continuation?_le hcontinuation)]

/-- A gap does not go on with a closing brace. -/
theorem length_append (h : Closed rest) (text : List Char) : length (text ++ rest) = length text :=
  lengthFrom_append h (Nat.zero_le _)

theorem length_le (text : List Char) : length text ≤ text.length := by
  have hle : ∀ skip (text : List Char), lengthFrom skip text ≤ text.length := by
    intro skip text
    induction text generalizing skip with
    | nil => cases skip <;> exact Nat.le_refl 0
    | cons c text ih =>
      cases skip with
      | succ skip =>
        have := ih skip
        rw [lengthFrom, List.length_cons]
        omega
      | zero =>
        have := ih
        rw [lengthFrom, List.length_cons]
        split
        · have := ih 0
          omega
        split
        · split
          · next n _ =>
            have := ih n
            omega
          · omega
        · omega
  exact hle 0 text

end Gap

/-! ### What is seen of a replacement -/

namespace Before

theorem Alike.pass (h : before.Alike before') (n : Nat) (text : List Char) :
    (before.pass n text).Alike (before'.pass n text) := by
  unfold Before.pass
  split
  · exact h
  · exact ⟨h.names, h.opens, rfl⟩

theorem pass_append {n : Nat} {text : List Char} (hle : n ≤ text.length) (rest : List Char) :
    before.pass n (text ++ rest) = before.pass n text := by
  unfold Before.pass
  split
  · rfl
  · have hlt : n - 1 < text.length := by omega
    rw [List.drop_append_of_le_length (by omega), List.drop_eq_getElem_cons hlt]
    rfl

theorem Alike.passToken (h : before.Alike before') (lexeme : Lexeme) (text : List Char) :
    (before.passToken lexeme text).Alike (before'.passToken lexeme text) := by
  have hpass := h.pass lexeme.length text
  simp only [Before.passToken]
  split
  · exact hpass
  · exact ⟨rfl, rfl, hpass.last⟩

theorem passToken_append {lexeme : Lexeme} {text : List Char} (hle : lexeme.length ≤ text.length)
    (rest : List Char) :
    before.passToken lexeme (text ++ rest) = before.passToken lexeme text := by
  rw [Before.passToken, Before.passToken, pass_append hle]

end Before

section

variable {token token' : Before → List Char → Except LexicalFault Lexeme} {ahead tail : List Char}

/-- The token behind the next gap is read the same way if the text ends before the brace. -/
theorem Narrows.behindGap (h : Narrows token token') (halike : before.Alike before')
    (hback' : Closed back') {lexeme : Lexeme}
    (htoken : token (before.pass (Gap.length (ahead ++ '\x7d' :: tail)) (ahead ++ '\x7d' :: tail))
      ((ahead ++ '\x7d' :: tail).drop (Gap.length (ahead ++ '\x7d' :: tail))) = .ok lexeme)
    (hpos : 0 < lexeme.length)
    (hle : Gap.length (ahead ++ '\x7d' :: tail) + lexeme.length ≤ ahead.length) :
    token' (before'.pass (Gap.length (ahead ++ back')) (ahead ++ back'))
      ((ahead ++ back').drop (Gap.length (ahead ++ back'))) = .ok lexeme := by
  have hgap := Gap.length_le ahead
  rw [Gap.length_append (closed_cons tail)] at htoken hle
  rw [Gap.length_append hback', Before.pass_append hgap, List.drop_append_of_le_length hgap]
  rw [Before.pass_append hgap, List.drop_append_of_le_length hgap] at htoken
  have hne : ahead.drop (Gap.length ahead) ≠ [] := by
    rw [ne_eq, List.drop_eq_nil_iff]
    omega
  exact h _ _ _ tail back' lexeme (halike.pass _ _) hne hback' htoken
    (by rw [List.length_drop]; omega)

namespace Replacement

/-- Two states that see the next token alike. -/
structure State.Alike (state state' : State) : Prop where
  depth : state.depth = state'.depth
  before : state.before.Alike state'.before

theorem State.Alike.behind {state state' : State} (h : state.Alike state') {lexeme : Lexeme}
    (hback' : Closed back')
    (hle : Gap.length (ahead ++ '\x7d' :: tail) + lexeme.length ≤ ahead.length) :
    (state.behind lexeme (ahead ++ '\x7d' :: tail)).Alike
      (state'.behind lexeme (ahead ++ back')) := by
  have hgap := Gap.length_le ahead
  rw [Gap.length_append (closed_cons tail)] at hle
  have hlength : lexeme.length ≤ (ahead.drop (Gap.length ahead)).length := by
    rw [List.length_drop]
    omega
  constructor
  · simp only [State.behind, h.depth]
  · simp only [State.behind, Gap.length_append hback', Gap.length_append (closed_cons tail),
      Before.pass_append hgap, List.drop_append_of_le_length hgap,
      Before.passToken_append hlength]
    exact (h.before.pass _ _).passToken _ _

/-- The brace that closes a replacement. -/
theorem Sees.closing {text : List Char} {position : Nat} {state : State}
    {seen : List (Nat × Lexeme)} {innerStop : Nat}
    (h : Sees (Lexeme.recognizeWith replacement) text position state seen innerStop) :
    ∃ tail, text.drop innerStop = '\x7d' :: tail := by
  induction h with
  | token _ _ _ _ ih => exact ih
  | @close position state length htoken =>
    have hrecognized := Lexeme.recognized_of_ok htoken
    have hspelling : (text.drop (position + Gap.length (text.drop position))).take length =
        ['\x7d'] := hrecognized.spelling rfl
    generalize text.drop (position + Gap.length (text.drop position)) = rest at hspelling
    cases rest with
    | nil => simp at hspelling
    | cons c rest =>
      cases length with
      | zero => simp at hspelling
      | succ length =>
        rw [List.take_succ_cons] at hspelling
        obtain ⟨rfl, -⟩ := List.cons.inj hspelling
        exact ⟨rest, rfl⟩

/-- What has been seen before a closing brace is seen again by another reader. -/
theorem Sees.narrow (hnarrows : Narrows token token') (hprogress : Progresses token)
    (hclose : ∀ before tail, token' before ('\x7d' :: tail) = .ok ⟨.rBrace, 1⟩)
    {front tail tail' : List Char} {position : Nat} {state state' : State}
    {seen : List (Nat × Lexeme)} {innerStop : Nat}
    (h : Sees token (front ++ '\x7d' :: tail) position state seen innerStop)
    (hstop : innerStop = front.length) (halike : state.Alike state') :
    Sees token' (front ++ '\x7d' :: tail') position state' seen innerStop := by
  have hdrop : ∀ {position : Nat} (back : List Char), position ≤ front.length →
      (front ++ back).drop position = front.drop position ++ back :=
    fun back hle => List.drop_append_of_le_length hle
  have hgap : ∀ {position : Nat}, position ≤ front.length →
      Gap.length ((front ++ '\x7d' :: tail').drop position) =
        Gap.length ((front ++ '\x7d' :: tail).drop position) := by
    intro position hle
    rw [hdrop _ hle, hdrop _ hle, Gap.length_append (closed_cons _),
      Gap.length_append (closed_cons _)]
  induction h generalizing state' with
  | @close position state length htoken hdepth =>
    have hle : position ≤ front.length := by omega
    rw [← hgap hle]
    have hstop' : position + Gap.length ((front ++ '\x7d' :: tail').drop position) =
        front.length := by rw [hgap hle, hstop]
    have hbrace : token' (state'.before.pass (Gap.length ((front ++ '\x7d' :: tail').drop position))
        ((front ++ '\x7d' :: tail').drop position)) ((front ++ '\x7d' :: tail').drop
          (position + Gap.length ((front ++ '\x7d' :: tail').drop position))) =
        .ok ⟨.rBrace, 1⟩ := by
      rw [hstop', List.drop_left, hclose]
    exact .close hbrace (halike.depth ▸ hdepth)
  | @token position state lexeme seen innerStop htoken hkind hopen hrest ih =>
    have hlt := hrest.lt hprogress
    have hpos := (hprogress htoken hkind).2
    have hle : position ≤ front.length := by omega
    have hahead : Gap.length (front.drop position ++ '\x7d' :: tail) + lexeme.length ≤
        (front.drop position).length := by
      rw [← hdrop _ hle, List.length_drop]
      omega
    rw [← List.drop_drop, hdrop _ hle] at htoken
    have htoken' := hnarrows.behindGap halike.before (closed_cons tail') htoken hpos hahead
    have hbehind := halike.behind (closed_cons tail') hahead
    rw [← hdrop _ hle, ← hdrop _ hle] at hbehind
    rw [← hdrop _ hle, List.drop_drop] at htoken'
    rw [← hgap hle]
    refine .token htoken' hkind (halike.depth ▸ hopen) ?_
    rw [hgap hle]
    exact ih hstop hbehind

end Replacement

end

namespace Lexeme

theorem recognizeWith_brace (before : Before) (tail : List Char) :
    recognizeWith replacement before ('\x7d' :: tail) = .ok ⟨.rBrace, 1⟩ := by
  have hopen : IsOpen '\x7d' tail := ⟨by decide, by decide, fun h => absurd h (by decide)⟩
  rw [recognizeWith_open hopen]
  rfl

/-- With as many levels left, or more, a replacement is read the same way. -/
theorem agrees_replacement {levels levels' : Nat} (hle : levels ≤ levels') :
    Agrees (Lexeme.replacement levels) (Lexeme.replacement levels') := by
  induction levels generalizing levels' with
  | zero =>
    intro previous previous' front back back' found h
    simp [Lexeme.replacement] at h
  | succ levels ih =>
    obtain ⟨levels', rfl⟩ := Nat.exists_eq_add_one_of_ne_zero (Nat.ne_zero_of_lt hle)
    have hnarrows := narrows_recognizeWith (ih (Nat.le_of_succ_le_succ hle))
    intro previous previous' front back back' found h hfound
    rw [Replacement.length] at hfound
    obtain ⟨seen, hseen⟩ :=
      Replacement.sees_of_read (Replacement.progresses_recognizeWith _) h
    obtain ⟨tail, htail⟩ := hseen.closing
    -- The text is cut at the brace, which lies before the end of what both texts share.
    have hcut : ∀ behind : List Char, front ++ behind = front.take found.innerStop ++
        '\x7d' :: (front.drop (found.innerStop + 1) ++ behind) := by
      intro behind
      rw [List.drop_append_of_le_length (by omega),
        List.drop_eq_getElem_cons (by omega : found.innerStop < front.length),
        List.cons_append] at htail
      rw [← List.cons_append, ← (List.cons.inj htail).1, ← List.drop_eq_getElem_cons,
        ← List.append_assoc, List.take_append_drop]
    have hopening : (Replacement.State.opening (front ++ back)).Alike
        (Replacement.State.opening (front ++ back')) := by
      refine ⟨rfl, rfl, rfl, ?_⟩
      obtain ⟨c, rest, rfl⟩ := List.exists_cons_of_length_pos (by omega : 0 < front.length)
      rfl
    rw [hcut back] at hseen hopening
    rw [hcut back'] at hopening
    have hread := Replacement.read_of_sees (Replacement.progresses_recognizeWith _)
      (hseen.narrow hnarrows (Replacement.progresses_recognizeWith _) recognizeWith_brace
        (by rw [List.length_take]; omega) hopening)
    rw [← hcut back'] at hread
    exact hread

end Lexeme

end PipelineLang
