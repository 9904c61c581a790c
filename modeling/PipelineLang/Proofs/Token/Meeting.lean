import PipelineLang.Proofs.Syntax.Words
import PipelineLang.Proofs.Token.Extent
import PipelineLang.Proofs.Token.Rereading

/-!
# The words that are met in a text

A source and a replacement are read in the same way, one token behind another. What can be
said of a token that has been read depends on its text, on what comes before it, and on what
lies between it and the next one.

## Main definitions

- `Meets` — the words from the head of a text on, comments among them
- `Parted` — a text that starts with a gap or with a comment
- `Between` — nothing but gaps and comments lie between two places

## Main results

- `Scanner.Reads.meets`, `Replacement.Sees.meets` — what a scanner reads, and what is seen of
  a replacement
- `Meets.exists_of_mem` — where a word comes from
- `Meets.next` — the next word that is no comment
-/

namespace PipelineLang

/-- The words that a reader of tokens meets from the head of a text on. -/
inductive Meets (token : Before → List Char → Except LexicalFault Lexeme) :
    Before → List Char → List Word → Prop
  | nil {before text} : Meets token before text []
  | cons {before text lexeme words}
    (htoken : token (before.pass (Gap.length text) text) (text.drop (Gap.length text)) =
      .ok lexeme)
    (hkind : lexeme.kind ≠ .eof)
    (hrest : Meets token
      ((before.pass (Gap.length text) text).passToken lexeme (text.drop (Gap.length text)))
      (text.drop (Gap.length text + lexeme.length)) words) :
    Meets token before text
      ((lexeme.kind, String.ofList ((text.drop (Gap.length text)).take lexeme.length)) :: words)

/-! ### Where words are met -/

/-- What is seen of a replacement is met in it. -/
theorem Replacement.Sees.meets {token : Before → List Char → Except LexicalFault Lexeme}
    {text : List Char} {position : Nat} {state : State} {seen : List (Nat × Lexeme)}
    {innerStop : Nat} (h : Sees token text position state seen innerStop) {cursor : Cursor}
    (htext : cursor.rest = text) :
    Meets token state.before (text.drop position)
      (seen.map fun entry => ((cursor.advanceBy entry.1).token entry.2).word) := by
  induction h with
  | close => exact .nil
  | @token position state lexeme seen innerStop htoken hkind hopen hrest ih =>
    rw [← List.drop_drop] at htoken
    rw [Nat.add_assoc, ← List.drop_drop] at ih
    have hmeets := Meets.cons htoken hkind ih
    rw [List.map_cons, Token.word, Cursor.token, Cursor.rest_advanceBy, htext, ← List.drop_drop]
    exact hmeets

/-- What a scanner reads where no frontmatter can open is met in its text. -/
theorem Scanner.Reads.meets {scanner : Scanner} {tokens : List Token}
    (h : scanner.Reads tokens) (hphase : scanner.phase = .program) :
    ∃ others stop, tokens = others ++ [stop] ∧ stop.kind = .eof ∧
      Meets Lexeme.recognize scanner.before scanner.cursor.rest (others.map Token.word) := by
  induction h with
  | last _ hkind => exact ⟨[], _, rfl, hkind, .nil⟩
  | @more scanner token behind tokens hread hkind _ ih =>
    cases readAs_of_read hread with
    | frontmatterEnd hfront => simp [hphase] at hfront
    | frontmatterClose hfront => simp [hphase] at hfront
    | frontmatterBody hfront => simp [hphase] at hfront
    | frontmatterOpen _ hopening =>
      rw [opening?_of_phase (by rw [passGap, pass, hphase]; decide)] at hopening
      simp at hopening
    | eof => exact absurd rfl hkind
    | @lexeme lexeme _ _ hlexeme hne =>
      obtain ⟨others, stop, rfl, hstop, hmeets⟩ := ih (by
        show (if _ then scanner.phase else Phase.program) = .program
        rw [hphase, ite_self])
      refine ⟨_ :: others, stop, rfl, hstop, ?_⟩
      have hle := (Lexeme.recognized_of_ok hlexeme).length_le
      have hbefore : (scanner.passGap.passLexeme lexeme).before = _ := before_passLexeme hle
      rw [before_passGap, rest_passGap] at hlexeme hbefore
      have hbehind : (scanner.passGap.passLexeme lexeme).cursor.rest =
          scanner.cursor.rest.drop (Gap.length scanner.cursor.rest + lexeme.length) := by
        rw [← List.drop_drop, ← rest_passGap]
        exact rest_pass _ _
      change Meets _ (scanner.passGap.passLexeme lexeme).before
        (scanner.passGap.passLexeme lexeme).cursor.rest _ at hmeets
      rw [hbefore, hbehind] at hmeets
      have hcons := Meets.cons hlexeme hne hmeets
      rw [← rest_passGap] at hcons
      exact hcons

variable {replacement : Option TokenKind → List Char → Except LexicalFault Replacement}
  {token : Before → List Char → Except LexicalFault Lexeme} {before before' : Before}
  {text text' : List Char} {words : List Word} {word : Word}

/-- Each word is a token at the head of a part of the text. -/
theorem Meets.exists_of_mem (h : Meets token before text words) (hmem : word ∈ words) :
    ∃ before' behind lexeme, behind <:+ text ∧ token before' behind = .ok lexeme ∧
      lexeme.kind ≠ .eof ∧ word = (lexeme.kind, String.ofList (behind.take lexeme.length)) := by
  induction h with
  | nil => simp at hmem
  | cons htoken hkind _ ih =>
    obtain rfl | hmem := List.mem_cons.mp hmem
    · exact ⟨_, _, _, List.drop_suffix _ _, htoken, hkind, rfl⟩
    · obtain ⟨before', behind, lexeme, hsuffix, hread, hne, hword⟩ := ih hmem
      exact ⟨before', behind, lexeme, hsuffix.trans (List.drop_suffix _ _), hread, hne, hword⟩

/-- There are line ends among the words only if there are some in the text. -/
theorem Meets.ne_newline (h : Meets (Lexeme.recognizeWith replacement) before text words)
    (htext : '\n' ∉ text) (hmem : word ∈ words) : word.1 ≠ .newline := by
  intro hkind
  obtain ⟨_, behind, lexeme, hsuffix, hread, -, rfl⟩ := h.exists_of_mem hmem
  have hline : lexeme.kind.spelling? = some "\n" := by
    rw [show lexeme.kind = .newline from hkind]
    rfl
  have hspelling := (Lexeme.recognized_of_ok hread).spelling hline
  have hin : '\n' ∈ behind.take lexeme.length := by simp [hspelling]
  exact htext (hsuffix.subset (List.mem_of_mem_take hin))

/-! ### What lies between two words -/

/-- A text that starts with a gap or with a comment. -/
def Parted (text : List Char) : Prop :=
  ∃ c tail, text = c :: tail ∧
    (Ascii.isBlank c ∨ c = '\\' ∨ c = '/' ∧ ∀ d ∈ tail.head?, d.isDigit = false)

theorem Parted.not_head {p : Char → Bool} (h : Parted text)
    (hp : [' ', '\t', '\r', '\\', '/'].all fun c => !p c) : ∀ c ∈ text.head?, p c = false := by
  obtain ⟨c, tail, rfl, hc⟩ := h
  simp only [List.all_cons, List.all_nil, Bool.and_true, Bool.and_eq_true, Bool.not_eq_true'] at hp
  rintro _ ⟨⟩
  obtain hblank | rfl | ⟨rfl, -⟩ := hc
  · simp only [Ascii.isBlank, Bool.or_eq_true, beq_iff_eq] at hblank
    obtain (rfl | rfl) | rfl := hblank
    · exact hp.1
    · exact hp.2.1
    · exact hp.2.2.1
  · exact hp.2.2.2.1
  · exact hp.2.2.2.2

/-- Nothing but gaps and comments lie between a place and a later one. -/
structure Between (before before' : Before) (text text' : List Char) : Prop where
  previous : before'.previous = before.previous
  place : text' = text ∧ before' = before ∨
    Parted text ∧ ∀ c ∈ before'.last, Ascii.isWordChar c = false

namespace Gap

theorem forall_of_isGap {gap : List Char} (h : IsGap gap) :
    ∀ c ∈ gap, Ascii.isBlank c ∨ c = '\\' ∨ c = '\n' := by
  induction h with
  | nil => simp
  | blank hc _ ih => exact List.forall_mem_cons.mpr ⟨.inl hc, ih⟩
  | continuation hblanks _ ih =>
    simp only [List.mem_cons, List.mem_append]
    rintro c (rfl | hc | rfl | hc)
    · exact .inr (.inl rfl)
    · exact .inl (hblanks c hc)
    · exact .inr (.inr rfl)
    · exact ih c hc

theorem isWordChar_of_isGap {gap : List Char} (h : IsGap gap) :
    ∀ c ∈ gap, Ascii.isWordChar c = false := by
  intro c hc
  obtain hblank | rfl | rfl := forall_of_isGap h c hc
  · simp only [Ascii.isBlank, Bool.or_eq_true, beq_iff_eq] at hblank
    obtain (rfl | rfl) | rfl := hblank <;> decide
  · decide
  · decide

/-- Behind a gap no word goes on. -/
theorem between (before : Before) (text : List Char) :
    Between before (before.pass (length text) text) text (text.drop (length text)) := by
  have hgap := isGap_take_length text
  by_cases hzero : length text = 0
  · rw [hzero]
    exact ⟨rfl, .inl ⟨rfl, rfl⟩⟩
  refine ⟨by rw [Before.pass, if_neg hzero], .inr ⟨?_, ?_⟩⟩
  · cases text with
    | nil => exact absurd rfl hzero
    | cons c tail =>
      refine ⟨c, tail, rfl, ?_⟩
      rw [length, lengthFrom] at hzero
      split at hzero
      · next hblank => exact .inl hblank
      split at hzero
      · next hslash => exact .inr (.inl hslash)
      · exact absurd rfl hzero
  · rw [Before.pass, if_neg hzero]
    intro c hc
    refine isWordChar_of_isGap hgap c ?_
    have hlast : (text.take (length text)).getLast? = some c := by
      have hle := length_le text
      rw [List.getLast?_eq_getElem?, List.length_take, Nat.min_eq_left hle,
        List.getElem?_take_of_lt (by omega), ← List.head?_drop]
      exact hc
    exact List.mem_of_getLast? hlast

end Gap

theorem Between.trans {before'' : Before} {text'' : List Char}
    (h : Between before before' text text') (h' : Between before' before'' text' text'') :
    Between before before'' text text'' := by
  refine ⟨h'.previous.trans h.previous, ?_⟩
  obtain ⟨rfl, rfl⟩ | ⟨hparted, hlast⟩ := h.place
  · exact h'.place
  · obtain ⟨rfl, rfl⟩ | ⟨-, hlast'⟩ := h'.place
    · exact .inr ⟨hparted, hlast⟩
    · exact .inr ⟨hparted, hlast'⟩

namespace Lexeme

variable {lexeme : Lexeme}

/-- A comment between slashes and stars ends with a slash. -/
theorem last_ofBlockComment (h : ofBlockComment before text = .ok lexeme) :
    (text.drop (lexeme.length - 1)).head? = some '/' := by
  obtain ⟨last, _, -, hlt, hstop⟩ := exists_stop_of_walk h (by simp [ofBlockComment.finish])
  unfold ofBlockComment.stop at hstop
  split at hstop
  · next hclose =>
    obtain rfl := Except.ok.inj (Stride.done.inj hstop)
    obtain ⟨tail, htail⟩ := List.isPrefixOf_iff_prefix.mp hclose
    show (text.drop (last + 1)).head? = some '/'
    rw [← List.drop_drop, ← htail]
    rfl
  · simp at hstop

/-- A comment goes on to the end of its line, or up to a star and a slash. -/
theorem comment_cases (h : recognizeWith replacement before text = .ok lexeme)
    (hkind : lexeme.kind = .comment) :
    (∃ rest, text = '/' :: '/' :: rest ∧ lexeme = ofLineComment text) ∨
      ∃ rest, text = '/' :: '*' :: rest ∧ ofBlockComment before text = .ok lexeme := by
  cases recognized_of_ok h with
  | lineComment => exact .inl ⟨_, rfl, rfl⟩
  | blockComment hblock => exact .inr ⟨_, rfl, hblock⟩
  | eof | newline | format | dollar => simp at hkind
  | quoted hquoted =>
    rw [(ofQuoted_delimited _ _ _ _ hquoted).1] at hkind
    simp at hkind
  | raw hraw =>
    rw [(ofRaw_delimited _ _ _ _ hraw).1] at hkind
    simp at hkind
  | @digit c rest hc =>
    have hmem := (ofDigit_spec hc rest).2
    rw [hkind] at hmem
    simp at hmem
  | @colon rest =>
    have hmem := (ofColon_spec before rest).2
    rw [hkind] at hmem
    simp at hmem
  | @word c rest hc =>
    obtain hmem | ⟨spelling, hspelling⟩ := ofWord_kind before hc rest
    · rw [hkind] at hmem
      simp at hmem
    · rw [hkind] at hspelling
      simp [TokenKind.spelling?] at hspelling
  | punctuation hpunctuation =>
    have hkinds : ∀ entry ∈ punctuation, entry.2 ≠ .comment := by decide
    exact absurd hkind (hkinds _ (ofPunctuation?_spec hpunctuation).1)

/-- A comment starts with a slash, and no digit is behind it. -/
theorem parted_of_comment (h : recognizeWith replacement before text = .ok lexeme)
    (hkind : lexeme.kind = .comment) : Parted text := by
  obtain ⟨rest, rfl, -⟩ | ⟨rest, rfl, -⟩ := comment_cases h hkind
  · exact ⟨'/', _, rfl, .inr (.inr ⟨rfl, by rintro _ ⟨⟩; decide⟩)⟩
  · exact ⟨'/', _, rfl, .inr (.inr ⟨rfl, by rintro _ ⟨⟩; decide⟩)⟩

/-- Behind a line comment its line ends, if anything is there. -/
theorem head_ofLineComment {c : Char}
    (h : (text.drop (ofLineComment text).length).head? = some c) : c = '\n' ∨ c = '\r' := by
  generalize hp : (fun c : Char => c != '\n' && c != '\r') = p
  have hbehind : text.drop (text.takeWhile p).length = text.dropWhile p := by
    calc text.drop (text.takeWhile p).length
        = (text.takeWhile p ++ text.dropWhile p).drop (text.takeWhile p).length := by
          rw [List.takeWhile_append_dropWhile]
      _ = text.dropWhile p := List.drop_left
  have hlength : (ofLineComment text).length = (text.takeWhile p).length := by
    rw [← hp]
    rfl
  rw [hlength, hbehind] at h
  have hnot : ∀ c ∈ (text.dropWhile p).head?, p c = false := by
    intro c hc
    have := List.head?_dropWhile_not p text
    rw [Option.mem_def.mp hc] at this
    simpa using this
  have := hnot c h
  rw [← hp] at this
  simp only [Bool.and_eq_false_iff, bne_eq_false_iff_eq] at this
  exact this

/-- Behind a comment no word goes on, unless the line ends there. -/
theorem last_passToken_comment (h : recognizeWith replacement before text = .ok lexeme)
    (hkind : lexeme.kind = .comment) {c : Char}
    (hc : (text.drop lexeme.length).head? = some c) (hline : c ≠ '\n' ∧ c ≠ '\r') :
    (before.passToken lexeme text).last = some '/' := by
  have hlength := ((recognized_of_ok h).length_pos (by rw [hkind]; decide)).2
  obtain ⟨rest, rfl, rfl⟩ | ⟨rest, rfl, hblock⟩ := comment_cases h hkind
  · exact absurd (head_ofLineComment hc) (not_or.mpr hline)
  · rw [Before.passToken, if_pos (by rw [hkind]; rfl), Before.pass, if_neg (Nat.ne_of_gt hlength)]
    exact last_ofBlockComment hblock

theorem previous_passToken_comment (hkind : lexeme.kind = .comment) :
    (before.passToken lexeme text).previous = before.previous := by
  rw [Before.passToken, if_pos (by rw [hkind]; rfl), Before.pass]
  split <;> rfl

/-- A token starts with neither a line end nor a carriage return, unless it is a line end. -/
theorem head_of_recognized (h : recognizeWith replacement before text = .ok lexeme)
    (heof : lexeme.kind ≠ .eof) (hnewline : lexeme.kind ≠ .newline) :
    ∃ c, text.head? = some c ∧ c ≠ '\n' ∧ c ≠ '\r' := by
  obtain ⟨c, rest, rfl⟩ :=
    List.exists_cons_of_ne_nil ((recognized_of_ok h).length_pos heof).1
  refine ⟨c, rfl, ?_, ?_⟩
  · rintro rfl
    obtain rfl := Except.ok.inj (show Except.ok _ = Except.ok lexeme from h)
    exact hnewline rfl
  · rintro rfl
    exact recognizeWith_gap (by simp) h

end Lexeme

/-- The next word that is no comment is a token, with nothing but gaps and comments before
it. -/
theorem Meets.next (h : Meets (Lexeme.recognizeWith replacement) before text words)
    {rest : List Word} (hwords : words.filter (fun word => word.1 ≠ .comment) = word :: rest)
    (hnewline : word.1 ≠ .newline) :
    ∃ before' text' lexeme others, Between before before' text text' ∧
      Lexeme.recognizeWith replacement before' text' = .ok lexeme ∧ lexeme.kind ≠ .eof ∧
      word = (lexeme.kind, String.ofList (text'.take lexeme.length)) ∧
      Meets (Lexeme.recognizeWith replacement) (before'.passToken lexeme text')
        (text'.drop lexeme.length) others ∧
      others.filter (fun word => word.1 ≠ .comment) = rest := by
  induction h with
  | nil => simp at hwords
  | @cons before text lexeme words htoken hkind hrest ih =>
    have hgap := Gap.between before text
    rw [← List.drop_drop] at hrest ih
    by_cases hcomment : lexeme.kind = .comment
    · rw [List.filter_cons_of_neg (by simp [hcomment])] at hwords
      obtain ⟨before', text', next, others, hbetween, hread, heof, rfl, hmeets, hothers⟩ :=
        ih hwords
      refine ⟨before', text', next, others, hgap.trans ⟨?_, .inr ⟨?_, ?_⟩⟩, hread, heof, rfl,
        hmeets, hothers⟩
      · rw [hbetween.previous, Lexeme.previous_passToken_comment hcomment]
      · exact Lexeme.parted_of_comment htoken hcomment
      · obtain ⟨rfl, rfl⟩ | ⟨-, hlast⟩ := hbetween.place
        · obtain ⟨c, hc, hline⟩ := Lexeme.head_of_recognized hread heof hnewline
          rw [Lexeme.last_passToken_comment htoken hcomment hc hline]
          rintro _ ⟨⟩
          decide
        · exact hlast
    · rw [List.filter_cons_of_pos (by simpa using hcomment)] at hwords
      obtain ⟨rfl, rfl⟩ := List.cons.inj hwords
      exact ⟨_, _, lexeme, words, hgap, htoken, hkind, rfl, hrest, rfl⟩

end PipelineLang
