import PipelineLang.Proofs.Token.Laying
import PipelineLang.Proofs.Token.Nesting

/-!
# What is known of words that have been read

The words of a text are read one after another. Each of them is known to be spelled such that
it is read again where it is laid out.

## Main definitions

- `Word.IsRead` — what is known of a single word
- `AreRead` — what is known of the words of a text on one line

## Main results

- `Meets.areRead` — the words that a reader meets
-/

namespace PipelineLang

open Address Lexeme

variable {replacement : Option TokenKind → List Char → Except LexicalFault Replacement}
  {before : Before} {text : List Char} {words : List Word} {word : Word} {lexeme : Lexeme}
  {levels levels' : Nat}

/-- A variable is a dollar sign and a word. -/
theorem Lexeme.variable_of_recognized (h : recognizeWith replacement before text = .ok lexeme)
    (hkind : lexeme.kind = .dollarVar) :
    ∃ name, text.take lexeme.length = '$' :: name ∧ IsWord name := by
  obtain ⟨rest, rfl, hpos, rfl⟩ | ⟨c, rest, rfl, hc, rfl⟩ := named_cases h (by simp [hkind])
  · cases rest with
    | nil => simp [wordAhead] at hpos
    | cons c rest =>
      rw [wordAhead] at hpos ⊢
      split at hpos
      · next hc =>
        refine ⟨(c :: rest).takeWhile Ascii.isWordChar, ?_, isWord_takeWhile hc⟩
        rw [if_pos hc, Nat.add_comm 1, List.take_succ_cons, Ascii.wordLength,
          Matcher.take_length_takeWhile]
      · exact absurd hpos (Nat.lt_irrefl 0)
  · obtain hmem | ⟨spelling, hspelling⟩ := ofWord_kind before hc rest
    · rw [hkind] at hmem
      simp at hmem
    · rw [hkind] at hspelling
      simp [TokenKind.spelling?] at hspelling

/-- What is known of a word that has been read on one line, so many levels of replacements
above the last one. -/
structure Word.IsRead (levels : Nat) (word : Word) : Prop where
  newline : word.1 ≠ .newline
  spelling : ∀ spelling, word.1.spelling? = some spelling → word.2 = spelling
  name : word.1 = .identifier → IsName word.2
  dollar : word.1 = .dollarVar → ∃ name, word.2.toList = '$' :: name ∧ IsWord name
  literal : word.1.isLiteral → word.1 ≠ .formatString → word.Recurs
  string : word.1 = .string → ∀ replacement before rest,
    recognizeWith replacement before (word.2.toList ++ rest) = .ok ⟨.string, word.2.toList.length⟩
  format : word.1 = .formatString → '\n' ∉ word.2.toList ∧ ∃ body,
    FormatBody.read (Lexeme.replacement levels) ⟨some .lParen, none⟩ word.2.toList = .ok body ∧
      body.length = word.2.toList.length

/-- What is known of the words of a text on one line. A path whose first two words could be an
address goes on behind them only if it starts a statement. -/
structure AreRead (levels : Nat) (words : List Word) : Prop where
  each : ∀ word ∈ words, word.IsRead levels
  paths : ∀ {front name separator other last rest},
    words = front ++ name :: separator :: other :: last :: rest →
    (∀ word ∈ front.getLast?, word.1 ∉ statementOpeners) → name.1 = .identifier →
    separator.1 = .moduleSep → other.1 = .identifier → last.1 = .moduleSep →
    ¬ IsPair name.2.toList other.2.toList

theorem Word.IsRead.mono (h : word.IsRead levels) (hle : levels ≤ levels') :
    word.IsRead levels' := by
  refine { h with format := fun hkind => ?_ }
  obtain ⟨hline, body, hbody, hlength⟩ := h.format hkind
  rw [← List.append_nil word.2.toList] at hbody
  have hread : FormatBody.read (Lexeme.replacement levels') ⟨some .lParen, none⟩
      (word.2.toList ++ []) = .ok body :=
    FormatBody.read_within (agrees_replacement hle) hbody (Nat.le_of_eq hlength)
  rw [List.append_nil] at hread
  exact ⟨hline, body, hread, hlength⟩

theorem AreRead.mono (h : AreRead levels words) (hle : levels ≤ levels') :
    AreRead levels' words :=
  ⟨fun word hmem => (h.each word hmem).mono hle, h.paths⟩

/-- A token that is recognised has the word of its text. -/
theorem Word.isRead_of_recognized {front : List Char} {kind : TokenKind} {back : List Char}
    (h : recognizeWith (Lexeme.replacement levels) before (front ++ back) =
      .ok ⟨kind, front.length⟩)
    (hline : '\n' ∉ front) : Word.IsRead levels (kind, String.ofList front) := by
  have hspelling : ∀ spelling, kind.spelling? = some spelling → front = spelling.toList := by
    intro spelling hkind
    have htake := (recognized_of_ok h).spelling hkind
    rwa [List.take_left] at htake
  refine ⟨?_, ?_, ?_, ?_, ?_, ?_, ?_⟩
  · rintro rfl
    exact hline (by simp [hspelling "\n" rfl])
  · intro spelling hkind
    rw [hspelling spelling hkind, String.ofList_toList]
  · intro hkind
    obtain ⟨name, rest, htext, hlength, hword, -, hkeyword, -⟩ := name_of_recognized h hkind
    obtain ⟨rfl, -⟩ := List.append_inj htext hlength
    refine ⟨?_, hkeyword⟩
    rwa [String.toList_ofList]
  · intro hkind
    obtain ⟨name, htake, hname⟩ := variable_of_recognized h hkind
    rw [List.take_left] at htake
    refine ⟨name, ?_, hname⟩
    rw [String.toList_ofList, htake]
  · exact fun hliteral hformat => recurs_of_recognized h hliteral hformat
  · intro hkind replacement' before' rest
    obtain rfl : kind = .string := hkind
    rw [String.toList_ofList]
    exact (recognizedString_of_ok h rfl).recurs before' rest
  · intro hkind
    obtain ⟨body, hbody, hlength⟩ := formatBody_of_recognized (recognized_of_ok h) hkind
    have hread : FormatBody.read (Lexeme.replacement levels) ⟨some .lParen, none⟩ (front ++ []) =
        .ok body :=
      FormatBody.read_within (agrees_replacement (Nat.le_refl _)) hbody (Nat.le_of_eq hlength.symm)
    rw [List.append_nil] at hread
    rw [String.toList_ofList]
    exact ⟨hline, body, hread, hlength.symm⟩

/-- The words that are met on one line, where no statement starts. -/
theorem Meets.areRead (h : Meets (recognizeWith (Lexeme.replacement levels)) before text words)
    (hline : '\n' ∉ text) (hopens : before.previous.all statementOpeners.contains = false) :
    AreRead levels (words.filter fun word => word.1 ≠ .comment) := by
  refine ⟨fun word hmem => ?_, ?_⟩
  · obtain ⟨before', behind, ⟨kind, length⟩, hsuffix, hread, -, rfl⟩ :=
      h.exists_of_mem (List.mem_of_mem_filter hmem)
    have hle : length ≤ behind.length := (recognized_of_ok hread).length_le
    have htake : (behind.take length).length = length := by
      rw [List.length_take, Nat.min_eq_left hle]
    have hfront : recognizeWith (Lexeme.replacement levels) before'
        (behind.take length ++ behind.drop length) = .ok ⟨kind, (behind.take length).length⟩ := by
      rw [List.take_append_drop, htake]
      exact hread
    exact Word.isRead_of_recognized hfront fun hmem =>
      hline (hsuffix.subset (List.mem_of_mem_take hmem))
  · intro front name separator other last rest hwords hbehind hname hseparator hother hlast
    obtain rfl | ⟨front, previous, rfl⟩ := List.eq_nil_or_concat' front
    · exact h.not_pair hopens hwords hname hseparator hother hlast
    · rw [← List.append_cons] at hwords
      exact h.not_pair_behind hline hwords (hbehind previous (by simp)) hname hseparator
          hother hlast

/-- A word before others, which do not go on with a path. -/
theorem AreRead.cons (h : AreRead levels words) (hword : word.IsRead levels)
    (hhead : ∀ other ∈ words.head?, other.1 ≠ .moduleSep) : AreRead levels (word :: words) := by
  refine ⟨List.forall_mem_cons.mpr ⟨hword, h.each⟩, ?_⟩
  intro front name separator other last rest hwords hbehind hname hseparator hother hlast
  cases front with
  | nil =>
    obtain ⟨rfl, rfl⟩ := List.cons.inj hwords
    exact absurd hseparator (hhead separator rfl)
  | cons first front =>
    refine h.paths (List.cons.inj hwords).2 (fun word hmem => hbehind word ?_) hname hseparator
      hother hlast
    cases front with
    | nil => simp at hmem
    | cons second front => rwa [List.getLast?_cons_cons]

end PipelineLang
