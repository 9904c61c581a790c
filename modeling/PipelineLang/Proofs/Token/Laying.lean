import PipelineLang.Proofs.Token.Extent
import PipelineLang.Proofs.Token.Recurring
import PipelineLang.Proofs.Token.Running
import PipelineLang.Syntax.Layout

/-!
# Text that is laid out word by word

## Main definitions

- `LaidOut` — text is read as some words, with whatever may stand behind an expression behind it
- `IsName`, `IsPath` — names that are read as they are written

## Main results

- `LaidOut.append`, `laidOut_commas` — text behind text, and items with commas between them
- `laidOut_name`, `runs_path` — names, and paths that are called
- `Scanner.read_first` — the word at the head of a source
-/

namespace PipelineLang

open Address Lexeme

variable {token : Before → List Char → Except LexicalFault Lexeme}
  {replacement : Option TokenKind → List Char → Except LexicalFault Replacement}
  {condition : Before → Prop} {state : Replacement.State} {text rest : List Char}
  {words : List Word} {kind : TokenKind} {before : Before}

/-! ### Single words -/

/-- No gap is where a token is. -/
theorem Lexeme.gap_of_recognized {lexeme : Lexeme}
    (h : recognizeWith replacement before text = .ok lexeme) : Gap.length text = 0 := by
  cases text with
  | nil => rfl
  | cons c rest =>
    rw [Gap.length, Gap.lengthFrom]
    by_cases hblank : Ascii.isBlank c
    · refine absurd h (recognizeWith_gap ?_)
      rw [Ascii.isBlank, Bool.or_eq_true, Bool.or_eq_true, beq_iff_eq, beq_iff_eq,
        beq_iff_eq] at hblank
      simp only [List.mem_cons, List.not_mem_nil, or_false]
      tauto
    · by_cases hslash : c = '\\'
      · exact absurd h (recognizeWith_gap (by simp [hslash]))
      · rw [if_neg hblank, if_neg hslash]

/-- A token at the head of a text. -/
theorem runs_word {word : List Char}
    (htoken : recognizeWith replacement state.before (word ++ rest) = .ok ⟨kind, word.length⟩)
    (hkind : kind ∉ [.eof, .comment]) (hopen : kind = .rBrace → state.depth ≠ 0) :
    Runs (recognizeWith replacement) state (word ++ rest) [(kind, String.ofList word)]
      ⟨kind.depthBehind state.depth, ⟨some kind, word.getLast?⟩⟩ rest := by
  have hpos := ((recognized_of_ok htoken).length_pos (by rintro rfl; simp at hkind)).2
  exact .word htoken (gap_of_recognized htoken) (List.ne_nil_of_length_pos hpos) hkind hopen

/-- A word at the head of a source is its first token. -/
theorem Scanner.read_first {word : List Char}
    (htoken : recognize ⟨none, none⟩ (word ++ rest) = .ok ⟨kind, word.length⟩)
    (hkind : kind ∉ [.eof, .comment, .newline])
    (hhead : word.head? ≠ some '-' ∧ word.head? ≠ some Cursor.byteOrderMark) :
    ∃ token behind, (ofSource (word ++ rest)).read = (.ok token, behind) ∧
      token.word = (kind, String.ofList word) ∧ behind.phase = .program ∧
      behind.cursor.rest = rest ∧ behind.before = ⟨some kind, word.getLast?⟩ := by
  simp only [List.mem_cons, List.not_mem_nil, or_false, not_or] at hkind
  have hword : word ≠ [] :=
    List.ne_nil_of_length_pos ((recognized_of_ok htoken).length_pos hkind.1).2
  have hheads : (word ++ rest).head? = word.head? := List.head?_append_of_ne_nil word hword
  rw [← hheads] at hhead
  rw [ofSource_of_head hhead.2]
  generalize hscanner : (⟨⟨word ++ rest, 0, 1, 1, none⟩, .start, none, false⟩ : Scanner) = scanner
  have hgap : scanner.passGap = scanner := by
    have hlength : Gap.length (word ++ rest) = 0 := gap_of_recognized htoken
    subst hscanner
    rw [passGap, hlength]
    rfl
  have hread : scanner.read = scanner.readProgram := by
    have hopening : scanner.opening? = none := opening?_of_head (by rw [← hscanner]; exact hhead.1)
    have hphase : scanner.phase ≠ .frontmatter := by rw [← hscanner]; simp
    have hread := read_of_opening? hphase (hgap.symm ▸ hopening)
    rwa [hgap] at hread
  subst hscanner
  refine ⟨_, _, hread.trans (readProgram_of_lexeme htoken hkind.1), ?_, ?_, ?_, ?_⟩
  · show (kind, String.ofList ((word ++ rest).take word.length)) = _
    rw [List.take_left]
  · show (if _ then Phase.start else Phase.program) = .program
    rw [if_neg (by simp [hkind])]
  · exact (Cursor.rest_advanceBy _ _).trans List.drop_left
  · rw [before_passLexeme (recognized_of_ok htoken).length_le]
    exact Before.passToken_word hword hkind.2.1

theorem IsWord.head_ne {word : List Char} (h : IsWord word) :
    word.head? ≠ some '-' ∧ word.head? ≠ some Cursor.byteOrderMark := by
  obtain ⟨c, tail, rfl, hc⟩ := h.start
  refine ⟨?_, ?_⟩
  all_goals
    rintro ⟨⟩
    exact absurd hc (by decide)

/-! ### Text that is laid out -/

/-- Text is read as some words where what stands before it meets a condition and behind it an
expression may end. The braces in it come in pairs. -/
def LaidOut (token : Before → List Char → Except LexicalFault Lexeme) (condition : Before → Prop)
    (text : List Char) (words : List Word) : Prop :=
  ∀ depth before rest, condition before → Halts rest →
    ∃ last, Runs token ⟨depth, before⟩ (text ++ rest) words ⟨depth, last⟩ rest

/-- Text that may stand right behind an expression, and is read wherever it stands. -/
structure GoesBehind (token : Before → List Char → Except LexicalFault Lexeme)
    (text : List Char) (words : List Word) : Prop where
  halts : ∀ ⦃rest⦄, Halts rest → Halts (text ++ rest)
  laidOut : LaidOut token (fun _ => True) text words

theorem LaidOut.append {other : List Char} {others : List Word}
    (h : LaidOut token condition text words) (h' : GoesBehind token other others) :
    LaidOut token condition (text ++ other) (words ++ others) := by
  intro depth before rest hbefore hrest
  obtain ⟨mid, hfirst⟩ := h depth before (other ++ rest) hbefore (h'.halts hrest)
  obtain ⟨last, hsecond⟩ := h'.laidOut depth mid rest trivial hrest
  refine ⟨last, ?_⟩
  rw [List.append_assoc]
  exact hfirst.append hsecond

theorem LaidOut.mono {condition' : Before → Prop} (h : LaidOut token condition text words)
    (himp : ∀ before, condition' before → condition before) :
    LaidOut token condition' text words :=
  fun depth before rest hbefore => h depth before rest (himp before hbefore)

theorem laidOut_nil : LaidOut token condition [] [] := fun _ before _ _ _ => ⟨before, .nil⟩

theorem goesBehind_nil : GoesBehind token [] [] := ⟨fun _ h => h, laidOut_nil⟩

theorem GoesBehind.append {other : List Char} {others : List Word}
    (h : GoesBehind token text words) (h' : GoesBehind token other others) :
    GoesBehind token (text ++ other) (words ++ others) := by
  refine ⟨fun rest hrest => ?_, h.laidOut.append h'⟩
  rw [List.append_assoc]
  exact h.halts (h'.halts hrest)

/-- A token other than a brace, before text that is laid out. -/
theorem LaidOut.behind {condition' : Before → Prop} {word : List Char}
    (h : LaidOut (recognizeWith replacement) condition' text words)
    (hkind : kind ∉ [.eof, .comment, .lBrace, .rBrace])
    (htoken : ∀ before rest, condition before → Halts rest →
      recognizeWith replacement before (word ++ (text ++ rest)) = .ok ⟨kind, word.length⟩)
    (hcondition : condition' ⟨some kind, word.getLast?⟩) :
    LaidOut (recognizeWith replacement) condition (word ++ text)
      ((kind, String.ofList word) :: words) := by
  intro depth before rest hbefore hrest
  obtain ⟨last, hruns⟩ := h depth ⟨some kind, word.getLast?⟩ rest hcondition hrest
  refine ⟨last, ?_⟩
  have hdepth : kind.depthBehind depth = depth := by
    cases kind <;> first | rfl | simp at hkind
  have hword : Runs (recognizeWith replacement) ⟨depth, before⟩ _ _ _ _ :=
    runs_word (htoken before rest hbefore hrest)
    (by simp only [List.mem_cons, List.not_mem_nil, or_false, not_or] at hkind ⊢
        exact ⟨hkind.1, hkind.2.1⟩)
    (by rintro rfl; simp at hkind)
  rw [hdepth] at hword
  rw [List.append_assoc]
  exact hword.append hruns

/-- A token other than a brace. -/
theorem laidOut_word {word : List Char} (hkind : kind ∉ [.eof, .comment, .lBrace, .rBrace])
    (htoken : ∀ before rest, condition before → Halts rest →
      recognizeWith replacement before (word ++ rest) = .ok ⟨kind, word.length⟩) :
    LaidOut (recognizeWith replacement) condition word [(kind, String.ofList word)] := by
  have hword : LaidOut (recognizeWith replacement) condition (word ++ []) _ :=
    (laidOut_nil : LaidOut _ (fun _ => True) [] []).behind hkind htoken trivial
  rwa [List.append_nil] at hword

/-- A space before text that is laid out. -/
theorem LaidOut.space {condition' : Before → Prop} (h : LaidOut token condition' text words)
    (hwords : words ≠ [])
    (hcondition : ∀ before, condition before → condition' ⟨before.previous, some ' '⟩) :
    LaidOut token condition (' ' :: text) words := by
  intro depth before rest hbefore hrest
  obtain ⟨last, hruns⟩ := h depth _ rest (hcondition before hbefore) hrest
  exact ⟨last, hruns.space hwords⟩

/-! ### Punctuation -/

/-- The characters that are tokens whatever is behind them. -/
def Lexeme.marks : List (Char × TokenKind) :=
  [('(', .lParen), (')', .rParen), ('[', .lBracket), (']', .rBracket), ('\x7b', .lBrace),
   ('\x7d', .rBrace), (',', .comma), ('?', .question), ('@', .atSign), ('+', .plus), ('-', .minus)]

theorem Lexeme.recognizeWith_mark {c : Char} (h : (c, kind) ∈ marks) :
    recognizeWith replacement before (c :: text) = .ok ⟨kind, 1⟩ := by
  simp only [marks, List.mem_cons, List.not_mem_nil, or_false, Prod.mk.injEq] at h
  obtain ⟨rfl, rfl⟩ | ⟨rfl, rfl⟩ | ⟨rfl, rfl⟩ | ⟨rfl, rfl⟩ | ⟨rfl, rfl⟩ | ⟨rfl, rfl⟩ | ⟨rfl, rfl⟩ |
    ⟨rfl, rfl⟩ | ⟨rfl, rfl⟩ | ⟨rfl, rfl⟩ | ⟨rfl, rfl⟩ := h
  all_goals
    rw [recognizeWith_open ⟨by decide, by decide, fun h => absurd h (by decide)⟩]
    rfl

/-- A mark before text that is laid out. -/
theorem LaidOut.mark {condition' : Before → Prop} {c : Char}
    (h : LaidOut (recognizeWith replacement) condition' text words) (hmark : (c, kind) ∈ marks)
    (hkind : kind ∉ [.lBrace, .rBrace]) (hcondition : condition' ⟨some kind, some c⟩) :
    LaidOut (recognizeWith replacement) condition (c :: text)
      ((kind, String.singleton c) :: words) := by
  have hkinds : ∀ entry ∈ marks, entry.2 ∉ [.eof, .comment] := by decide
  have hother := hkinds _ hmark
  have hkind' : kind ∉ [.eof, .comment, .lBrace, .rBrace] := by
    simp only [List.mem_cons, List.not_mem_nil, or_false, not_or] at hkind hother ⊢
    exact ⟨hother.1, hother.2, hkind⟩
  have hbehind : LaidOut (recognizeWith replacement) condition ([c] ++ text) _ :=
    h.behind hkind' (fun before rest _ _ => recognizeWith_mark hmark) hcondition
  exact hbehind

/-- A character that no literal goes on with, a point apart. -/
theorem halts_cons {c : Char} (hcloser : c ∈ closers ∧ c ≠ '.') (rest : List Char) :
    Halts (c :: rest) := by
  refine ⟨?_, fun tail heq => absurd (List.cons.inj heq).1 hcloser.2⟩
  rintro _ ⟨⟩
  exact hcloser.1

/-- A mark right behind an expression, before text that is laid out. -/
theorem LaidOut.goesBehind_mark {c : Char}
    (h : LaidOut (recognizeWith replacement) condition text words) (hmark : (c, kind) ∈ marks)
    (hkind : kind ∉ [.lBrace, .rBrace]) (hcloser : c ∈ closers ∧ c ≠ '.')
    (hcondition : condition ⟨some kind, some c⟩) :
    GoesBehind (recognizeWith replacement) (c :: text) ((kind, String.singleton c) :: words) :=
  ⟨fun _ _ => halts_cons hcloser _, h.mark hmark hkind hcondition⟩

/-- Text that is laid out, between two characters that are tokens by themselves. -/
theorem LaidOut.enclosed {condition' : Before → Prop} {opener closer : TokenKind} {c d : Char}
    (h : LaidOut (recognizeWith replacement) condition' text words)
    (hopener : (c, opener) ∈ marks ∧ opener ∉ [.lBrace, .rBrace])
    (hcloser : (d, closer) ∈ marks ∧ closer ∉ [.lBrace, .rBrace])
    (hends : d ∈ closers ∧ d ≠ '.') (hcondition : condition' ⟨some opener, some c⟩) :
    LaidOut (recognizeWith replacement) condition (c :: (text ++ [d]))
      ((opener, String.singleton c) :: (words ++ [(closer, String.singleton d)])) := by
  have hnil : LaidOut (recognizeWith replacement) (fun _ => True) [] [] := laidOut_nil
  have hclosed := h.append (hnil.goesBehind_mark hcloser.1 hcloser.2 hends trivial)
  exact hclosed.mark hopener.1 hopener.2 hcondition

/-- A question mark right behind an expression, if there is one. -/
theorem goesBehind_optional (optional : Bool) : GoesBehind (recognizeWith replacement)
    (if optional then "?" else "").toList (if optional then [(.question, "?")] else []) := by
  cases optional with
  | false => exact goesBehind_nil
  | true =>
    have hnil : LaidOut (recognizeWith replacement) (fun _ => True) [] [] := laidOut_nil
    exact hnil.goesBehind_mark (c := '?') (by decide) (by decide) (by decide) trivial

/-- A space right behind an expression, before text that is laid out. -/
theorem LaidOut.goesBehind_space (h : LaidOut token condition text words) (hwords : words ≠ [])
    (hcondition : ∀ before, condition before) : GoesBehind token (' ' :: text) words :=
  ⟨fun _ _ => halts_cons (by decide) _, h.space hwords fun _ _ => hcondition _⟩

/-- Braces around text that is laid out. -/
theorem laidOut_braces (h : LaidOut (recognizeWith replacement) (fun _ => True) text words) :
    LaidOut (recognizeWith replacement) condition ('\x7b' :: (text ++ ['\x7d']))
      ((.lBrace, "\x7b") :: (words ++ [(.rBrace, "\x7d")])) := by
  intro depth before rest _ hrest
  have hclose : Halts ('\x7d' :: rest) := halts_cons (by decide) rest
  obtain ⟨last, hruns⟩ := h (depth + 1) ⟨some .lBrace, some '\x7b'⟩ _ trivial hclose
  have hopening : Runs (recognizeWith replacement) ⟨depth, before⟩
      (['\x7b'] ++ (text ++ '\x7d' :: rest)) [(.lBrace, "\x7b")]
      ⟨depth + 1, ⟨some .lBrace, some '\x7b'⟩⟩ (text ++ '\x7d' :: rest) :=
    runs_word (recognizeWith_mark (by decide)) (by decide) (by simp)
  have hclosing : Runs (recognizeWith replacement) ⟨depth + 1, last⟩ (['\x7d'] ++ rest)
      [(.rBrace, "\x7d")] ⟨depth, ⟨some .rBrace, some '\x7d'⟩⟩ rest :=
    runs_word (recognizeWith_mark (by decide)) (by decide) (by simp)
  refine ⟨⟨some .rBrace, some '\x7d'⟩, ?_⟩
  rw [List.cons_append, List.append_assoc]
  exact hopening.append (hruns.append hclosing)

/-! ### Operators -/

/-- The characters that operators start with, those that comments start with apart. -/
def Lexeme.signs : List Char := ['=', '>', '<', '!', '*', '.']

theorem Lexeme.recognizeWith_sign {c : Char} (hc : c ∈ signs) {lexeme : Lexeme} :
    recognizeWith replacement before (c :: text) = .ok lexeme ↔
      ofPunctuation? (c :: text) = some lexeme := by
  have hsplit : recognizeWith replacement before (c :: text) =
      (ofPunctuation? (c :: text)).elim (.error ⟨.unexpectedCharacter c, 0, 1, before.previous⟩)
        .ok := by
    simp only [signs, List.mem_cons, List.not_mem_nil, or_false] at hc
    obtain rfl | rfl | rfl | rfl | rfl | rfl := hc
    all_goals
      rw [recognizeWith_open ⟨by decide, by decide, fun h => absurd h (by decide)⟩, recognizeOpen]
      generalize ofPunctuation? (_ :: text) = found
      cases found <;> rfl
  rw [hsplit]
  cases ofPunctuation? (c :: text) <;> simp

/-- A token that starts as an equals sign or an arrow is one. -/
theorem Lexeme.kind_of_sign {c : Char} {lexeme : Lexeme} (hc : c ∈ ['=', '>'])
    (h : recognizeWith replacement before (c :: text) = .ok lexeme) :
    lexeme.kind ∈ [TokenKind.fatArrow, .eqEq, .assign, .gtEq, .gt] := by
  have hsign : c ∈ signs := by
    simp only [List.mem_cons, List.not_mem_nil, or_false] at hc
    obtain rfl | rfl := hc <;> decide
  obtain ⟨hmem, hpos⟩ := ofPunctuation?_spec ((recognizeWith_sign hsign).mp h)
  have hkinds : ∀ entry ∈ punctuation, entry.1.head?.any (['=', '>'].contains ·) →
    entry.2 ∈ [TokenKind.fatArrow, .eqEq, .assign, .gtEq, .gt] := by decide
  obtain ⟨n, hn⟩ := Nat.exists_eq_add_one_of_ne_zero (Nat.ne_of_gt hpos)
  refine hkinds _ hmem ?_
  rw [hn, List.take_succ_cons, List.head?_cons, Option.any_some]
  exact List.contains_iff_mem.mpr hc

theorem Lexeme.recognizeWith_assign {c : Char} (hc : c ∉ ['=', '>']) :
    recognizeWith replacement before ('=' :: c :: text) = .ok ⟨.assign, 1⟩ := by
  rw [recognizeWith_sign (by decide)]
  have hne : ∀ d ∈ ['=', '>'], (d == c) = false := by
    rintro d hd
    rw [beq_eq_false_iff_ne]
    rintro rfl
    exact hc hd
  simp [ofPunctuation?, punctuation, List.find?, List.isPrefixOf, hne '=' (by simp),
    hne '>' (by simp)]

theorem Lexeme.recognizeWith_dot {c : Char} (hc : Ascii.isWordStart c) :
    recognizeWith replacement before ('.' :: c :: text) = .ok ⟨.dot, 1⟩ := by
  have hne : ∀ d, Ascii.isWordStart d = false → (d == c) = false := by
    intro d hd
    rw [beq_eq_false_iff_ne]
    rintro rfl
    simp [hd] at hc
  rw [recognizeWith_sign (by decide)]
  simp [ofPunctuation?, punctuation, List.find?, List.isPrefixOf, hne '.' (by decide),
    hne '?' (by decide)]

/-! ### Items with commas between them -/

/-- Items with commas between them. -/
theorem laidOut_commas {texts : List String} {items : List (List Word)}
    (h : List.Forall₂ (fun text words =>
      LaidOut (recognizeWith replacement) condition text.toList words ∧ words ≠ []) texts items)
    (hcondition : ∀ before : Before, before.previous = some .comma → condition before) :
    LaidOut (recognizeWith replacement) condition (Layout.commas texts).toList
      (List.intercalate [(.comma, ",")] items) := by
  induction h with
  | nil => exact laidOut_nil
  | @cons text words texts items hitem hitems ih =>
    cases hitems with
    | nil =>
      rw [Layout.commas, String.intercalate_singleton, List.intercalate_singleton]
      exact hitem.1
    | @cons other words' texts items hother hothers =>
      have hne : List.intercalate [(TokenKind.comma, ",")] (words' :: items) ≠ [] := by
        cases items with
        | nil =>
          rw [List.intercalate_singleton]
          exact hother.2
        | cons words'' items =>
          rw [List.intercalate_cons_cons]
          simp
      have hbehind : GoesBehind (recognizeWith replacement)
          (',' :: ' ' :: (Layout.commas (other :: texts)).toList)
          ((.comma, ",") :: List.intercalate [(.comma, ",")] (words' :: items)) := by
        have hspace : LaidOut (recognizeWith replacement)
            (fun before => before.previous = some .comma)
            (' ' :: (Layout.commas (other :: texts)).toList) _ :=
          ih.space hne fun before h => hcondition _ h
        exact hspace.goesBehind_mark (by decide) (by decide) (by decide) rfl
      rw [Layout.commas, String.intercalate_cons_cons, List.intercalate_cons_cons,
        String.toList_append, String.toList_append, List.append_assoc, List.append_assoc]
      exact hitem.1.append hbehind

/-! ### Names -/

/-- Whether a name is a word that is not reserved. -/
def IsName (name : String) : Prop := IsWord name.toList ∧ TokenKind.keyword? name = none

/-- Whether the words of a path are read as such where it is called. -/
def IsPath : List String → Prop
  | [] => False
  | [name] => IsName name
  | [name, last] => IsName name ∧ IsName last
  | name :: other :: last :: rest =>
    IsName name ∧ ¬ IsPair name.toList other.toList ∧ IsPath (other :: last :: rest)

theorem recognizeWith_name {name : String} (h : IsName name)
    (hrest : BehindWord rest) : recognizeWith replacement before (name.toList ++ rest) =
      .ok ⟨.identifier, name.toList.length⟩ := by
  rw [recognizeWith_word h.1 hrest, String.ofList_toList, h.2]
  rfl

/-- A name is read as one wherever it stands. -/
theorem laidOut_name {name : String} (h : IsName name) :
    LaidOut (recognizeWith replacement) condition name.toList [(.identifier, name)] := by
  have hword : LaidOut (recognizeWith replacement) condition name.toList
      [(.identifier, String.ofList name.toList)] :=
    laidOut_word (by decide) fun before rest _ hrest => recognizeWith_name h hrest.behindWord
  rwa [String.ofList_toList] at hword

/-- A reserved word is read as one wherever it stands. -/
theorem laidOut_keyword {word : String} (h : TokenKind.keyword? word = some kind) :
    LaidOut (recognizeWith replacement) condition word.toList [(kind, word)] := by
  have hkinds : ∀ entry ∈ TokenKind.keywords, entry.2 ∉ [.eof, .comment, .lBrace, .rBrace] := by
    decide
  obtain ⟨front, back, hkeywords, -⟩ := List.lookup_eq_some_iff.mp h
  have hkind : kind ∉ [.eof, .comment, .lBrace, .rBrace] :=
    hkinds (word, kind) (by rw [hkeywords]; simp)
  have hword : LaidOut (recognizeWith replacement) condition word.toList
      [(kind, String.ofList word.toList)] := by
    refine laidOut_word hkind fun before rest _ hrest => ?_
    rw [recognizeWith_word (isWord_of_keyword? h) hrest.behindWord, String.ofList_toList, h]
    rfl
  rwa [String.ofList_toList] at hword

theorem isName_x : IsName "x" :=
  ⟨⟨⟨'x', [], rfl, by decide⟩, List.forall_mem_singleton.mpr (by decide)⟩, by decide⟩

theorem isName_placeholder : IsName "_" :=
  ⟨⟨⟨'_', [], rfl, by decide⟩, List.forall_mem_singleton.mpr (by decide)⟩, by decide⟩

theorem IsName.start {name : String} (h : IsName name) :
    ∃ c tail, name.toList = c :: tail ∧ Ascii.isWordStart c := h.1.start

/-- A name ends with a character of a word. -/
theorem IsName.last {name : String} (h : IsName name) :
    name.toList.getLast?.any Ascii.isWordChar = true := by
  obtain ⟨front, c, hc⟩ := (List.eq_nil_or_concat' name.toList).resolve_left h.1.ne_nil
  rw [hc, List.getLast?_concat]
  exact h.1.chars c (by rw [hc]; simp)

/-- A variable is read as one wherever it stands. -/
theorem laidOut_variable {name : String} (h : IsWord name.toList) :
    LaidOut (recognizeWith replacement) condition ('$' :: name.toList)
      [(.dollarVar, "$" ++ name)] := by
  have hword : LaidOut (recognizeWith replacement) condition ('$' :: name.toList)
      [(.dollarVar, String.ofList ('$' :: name.toList))] := by
    refine laidOut_word (by decide) fun before rest _ hrest => ?_
    have hahead := wordAhead_word h hrest.behindWord.endsWord
    have hread : ∀ length, wordAhead (name.toList ++ rest) = length + 1 →
        recognizeWith replacement before ('$' :: (name.toList ++ rest)) =
          .ok ⟨.dollarVar, 1 + (length + 1)⟩ := by
      intro length hlength
      rw [recognizeWith_open ⟨by decide, by decide, fun h => absurd h (by decide)⟩]
      simp only [recognizeOpen, hlength]
      rfl
    obtain ⟨n, hn⟩ := Nat.exists_eq_add_one_of_ne_zero (mt List.length_eq_zero_iff.mp h.ne_nil)
    rw [List.cons_append, hread n (by rw [hahead, hn]), List.length_cons, hn, Nat.add_comm]
  rw [String.ofList_cons, String.ofList_toList] at hword
  exact hword

/-- A point before a name. -/
theorem LaidOut.goesBehind_dot {c : Char} {tail : List Char}
    (h : LaidOut (recognizeWith replacement) (fun _ => True) text words) (htext : text = c :: tail)
    (hc : Ascii.isWordStart c) :
    GoesBehind (recognizeWith replacement) ('.' :: text) ((.dot, ".") :: words) := by
  subst htext
  refine ⟨fun rest _ => ⟨?_, ?_⟩, ?_⟩
  · rintro _ ⟨⟩
    decide
  · rintro _ ⟨⟩ d ⟨⟩
    exact Ascii.isDigit_of_isWordStart hc
  · have hbehind : LaidOut (recognizeWith replacement) (fun _ => True) (['.'] ++ c :: tail) _ :=
      h.behind (by decide) (fun before rest _ _ => recognizeWith_dot hc) trivial
    exact hbehind

/-! ### Paths -/

/-- The text of a path behind its first name. -/
def pathBehind (names : List String) : List Char :=
  names.flatMap fun name => ':' :: ':' :: name.toList

/-- The words of a path behind its first name. -/
def pathWordsBehind (names : List String) : List Word :=
  names.flatMap fun name => [(.moduleSep, "::"), (.identifier, name)]

/-- Neighbours among the names of a path that would not be an address. If the path is called,
its last two names may be. -/
def AreApart (names : List String) (rest : List Char) : Prop :=
  (if rest.head? = some '(' then names.dropLast else names).IsChain fun name other =>
    ¬ IsPair name.toList other.toList

/-- A text that no path goes on with. -/
def EndsPath (rest : List Char) : Prop :=
  ∀ c ∈ rest.head?, Ascii.isWordChar c = false ∧ c ∉ ['\x22', '\x27', '#', ':', '/']

theorem pathBehind_cons (name : String) (names : List String) (rest : List Char) :
    pathBehind (name :: names) ++ rest =
      ':' :: ':' :: (name.toList ++ (pathBehind names ++ rest)) := by
  simp [pathBehind]

theorem toList_path (name : String) (names : List String) :
    (String.intercalate "::" (name :: names)).toList = name.toList ++ pathBehind names := by
  induction names generalizing name with
  | nil => simp [pathBehind]
  | cons other names ih =>
    rw [String.intercalate_cons_cons, String.toList_append, String.toList_append, ih]
    simp [pathBehind]

theorem intercalate_path (name : String) (names : List String) :
    List.intercalate [(.moduleSep, "::")]
      ((name :: names).map fun name => [(TokenKind.identifier, name)]) =
      (.identifier, name) :: pathWordsBehind names := by
  induction names generalizing name with
  | nil => rfl
  | cons other names ih =>
    rw [List.map_cons, List.map_cons, List.intercalate_cons_cons,
      ← List.map_cons (f := fun name => [(TokenKind.identifier, name)]), ih]
    rfl

theorem areApart_singleton (name : String) : AreApart [name] rest := by
  rw [AreApart]
  split <;> simp

theorem areApart_cons_cons {name other : String} {names : List String} :
    AreApart (name :: other :: names) rest ↔
      (IsPair name.toList other.toList → (pathBehind names ++ rest).head? = some '(') ∧
        AreApart (other :: names) rest := by
  cases names with
  | nil =>
    rw [AreApart, AreApart, pathBehind, List.flatMap_nil, List.nil_append]
    split <;> simp_all
  | cons last names =>
    rw [pathBehind_cons, AreApart, AreApart]
    split <;> simp

/-- Behind a name that is apart from the next one, the others are apart. -/
theorem areApart_cons {name : String} {names : List String} :
    AreApart (name :: names) rest ↔ (∀ other ∈ names.head?, IsPair name.toList other.toList →
      (pathBehind names.tail ++ rest).head? = some '(') ∧ AreApart names rest := by
  cases names with
  | nil => exact ⟨fun _ => ⟨by simp, by simp [AreApart]⟩, fun _ => areApart_singleton name⟩
  | cons other names => simp [areApart_cons_cons]

theorem namesOperator_of_call (h : rest.head? = some '(') : namesOperator before rest := by
  rw [namesOperator, h]
  rfl

/-- Text that a name stands before may go on with a path. -/
theorem goesOn_pathBehind (names : List String) (hrest : EndsPath rest) :
    GoesOn (pathBehind names ++ rest) := by
  cases names with
  | nil =>
    refine ⟨fun c hc => (hrest c hc).1, ?_, ?_⟩
    · rintro c tail heq
      exact absurd (hrest ':' (congrArg List.head? heq)).2 (by simp)
    · rintro tail heq
      exact absurd (hrest '/' (congrArg List.head? heq)).2 (by simp)
  | cons name names =>
    rw [pathBehind_cons]
    exact goesOn_colons _

/-- A name of a path is read as one, unless it and the next one would be an address. -/
theorem recognizeWith_segment {name : String} {names : List String}
    (hnames : ∀ other ∈ name :: names, IsName other)
    (hpair : ∀ other ∈ names.head?, IsPair name.toList other.toList →
      namesOperator before (pathBehind names.tail ++ rest))
    (hrest : EndsPath rest) :
    recognizeWith replacement before (name.toList ++ (pathBehind names ++ rest)) =
      .ok ⟨.identifier, name.toList.length⟩ := by
  obtain ⟨hname, hnames⟩ := List.forall_mem_cons.mp hnames
  cases names with
  | nil =>
    refine recognizeWith_name hname ⟨fun c hc => (hrest c hc).1, fun c hc hmem => ?_, ?_⟩
    · refine (hrest c hc).2 ?_
      simp only [List.mem_cons, List.not_mem_nil, or_false] at hmem ⊢
      tauto
    · rintro c tail heq
      exact absurd (hrest ':' (congrArg List.head? heq)).2 (by simp)
  | cons other names =>
    have hother : IsName other := hnames other List.mem_cons_self
    have hread : recognizeWith replacement before
        (name.toList ++ ':' :: ':' :: (other.toList ++ (pathBehind names ++ rest))) = _ :=
      recognizeWith_path hname.1 hother.1 (goesOn_pathBehind names hrest) (hpair other rfl)
    rw [String.ofList_toList, hname.2] at hread
    rw [pathBehind_cons, hread]
    rfl

/-- The name at the head of a path is read before what is behind it. -/
theorem runs_segment {name : String} {names : List String} {last : Before}
    (hnames : ∀ other ∈ name :: names, IsName other)
    (hpair : ∀ other ∈ names.head?, IsPair name.toList other.toList →
      namesOperator state.before (pathBehind names.tail ++ rest))
    (hrest : EndsPath rest)
    (h : Runs (recognizeWith replacement)
      ⟨state.depth, ⟨some .identifier, name.toList.getLast?⟩⟩ (pathBehind names ++ rest)
      (pathWordsBehind names) ⟨state.depth, last⟩ rest) :
    Runs (recognizeWith replacement) state (name.toList ++ (pathBehind names ++ rest))
      ((.identifier, name) :: pathWordsBehind names) ⟨state.depth, last⟩ rest := by
  have hread : recognizeWith replacement state.before _ = .ok ⟨.identifier, _⟩ :=
    recognizeWith_segment hnames hpair hrest
  have hword := runs_word hread (by decide) (by simp)
  rw [String.ofList_toList] at hword
  exact hword.append h

/-- The names of a path behind its first one are read where they are apart. -/
theorem runs_pathBehind {names : List String} (hnames : ∀ name ∈ names, IsName name)
    (hapart : AreApart names rest) (hrest : EndsPath rest)
    (hprevious : state.before.previous = some .identifier)
    (hlast : state.before.last.any Ascii.isWordChar = true) :
    ∃ last, Runs (recognizeWith replacement) state (pathBehind names ++ rest)
      (pathWordsBehind names) ⟨state.depth, last⟩ rest := by
  induction names generalizing state with
  | nil => exact ⟨state.before, .nil⟩
  | cons name names ih =>
    obtain ⟨hpair, hapart⟩ := areApart_cons.mp hapart
    have hseparator : Runs (recognizeWith replacement) state
        ([':', ':'] ++ (name.toList ++ (pathBehind names ++ rest))) [(.moduleSep, "::")]
        ⟨state.depth, ⟨some .moduleSep, some ':'⟩⟩ (name.toList ++ (pathBehind names ++ rest)) :=
      runs_word (recognizeWith_separator hprevious hlast) (by decide) (by simp)
    have hbehind : ∃ last, Runs (recognizeWith replacement)
        ⟨state.depth, ⟨some .identifier, name.toList.getLast?⟩⟩ (pathBehind names ++ rest)
        (pathWordsBehind names) ⟨state.depth, last⟩ rest :=
      ih (List.forall_mem_cons.mp hnames).2 hapart rfl (hnames name List.mem_cons_self).last
    obtain ⟨last, hbehind⟩ := hbehind
    rw [pathBehind_cons]
    exact ⟨last, hseparator.append (runs_segment hnames
      (fun other hother hp => namesOperator_of_call (hpair other hother hp)) hrest hbehind)⟩

/-- The names of a path are read where they are apart. -/
theorem runs_names {name : String} {names : List String}
    (hnames : ∀ other ∈ name :: names, IsName other) (hapart : AreApart (name :: names) rest)
    (hrest : EndsPath rest) (state : Replacement.State) :
    ∃ last, Runs (recognizeWith replacement) state (name.toList ++ (pathBehind names ++ rest))
      ((.identifier, name) :: pathWordsBehind names) ⟨state.depth, last⟩ rest := by
  obtain ⟨hpair, hapart⟩ := areApart_cons.mp hapart
  have hbehind : ∃ last, Runs (recognizeWith replacement)
      ⟨state.depth, ⟨some .identifier, name.toList.getLast?⟩⟩ (pathBehind names ++ rest)
      (pathWordsBehind names) ⟨state.depth, last⟩ rest :=
    runs_pathBehind (List.forall_mem_cons.mp hnames).2 hapart hrest rfl
      (hnames name List.mem_cons_self).last
  obtain ⟨last, hbehind⟩ := hbehind
  exact ⟨last, runs_segment hnames
    (fun other hother hp => namesOperator_of_call (hpair other hother hp)) hrest hbehind⟩

/-- The names of a path that is called are apart. -/
theorem isPath_iff {name : String} {names : List String} (rest : List Char) :
    IsPath (name :: names) ↔
      (∀ other ∈ name :: names, IsName other) ∧ AreApart (name :: names) ('(' :: rest) := by
  induction names generalizing name with
  | nil => simp [IsPath, areApart_singleton]
  | cons other names ih =>
    rw [areApart_cons_cons, List.forall_mem_cons]
    cases names with
    | nil => simp [IsPath, areApart_singleton, pathBehind]
    | cons last names =>
      rw [IsPath, ih, pathBehind_cons]
      simp only [List.head?_cons, Option.some.injEq, Char.reduceEq]
      tauto

/-- A path that is called is read as one wherever it stands. -/
theorem runs_path {names : List String} (h : IsPath names) (state : Replacement.State)
    (rest : List Char) : ∃ last, Runs (recognizeWith replacement) state
      ((String.intercalate "::" names).toList ++ '(' :: rest)
      (List.intercalate [(.moduleSep, "::")] (names.map fun name => [(TokenKind.identifier, name)]))
      ⟨state.depth, last⟩ ('(' :: rest) := by
  cases names with
  | nil => exact h.elim
  | cons name names =>
    obtain ⟨hnames, hapart⟩ := (isPath_iff rest).mp h
    have hends : EndsPath ('(' :: rest) := by
      rintro _ ⟨⟩
      exact ⟨by decide, by decide⟩
    rw [toList_path, intercalate_path, List.append_assoc]
    exact runs_names hnames hapart hends state

end PipelineLang
