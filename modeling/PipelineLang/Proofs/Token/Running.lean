import PipelineLang.Proofs.Syntax.Words
import PipelineLang.Proofs.Token.Rereading

/-!
# Texts that are read word by word

## Main definitions

- `Runs` — a reader of tokens takes some words from the head of a text

## Main results

- `Runs.append` — words are taken one after another
- `Runs.sees` — words before a closing brace are what is seen of a replacement
- `Runs.reads` — words up to the end of a text are what a scanner reads of it

## Design notes

What a reader sees of the text before a token, and the braces that are open there, are kept
as the state of a replacement, since the words may be those of one.
-/

namespace PipelineLang

/-- The braces that are open behind a token. -/
def TokenKind.depthBehind (kind : TokenKind) (depth : Nat) : Nat :=
  match kind with
  | .lBrace => depth + 1
  | .rBrace => depth - 1
  | _ => depth

/-- What stands before the text behind a word. -/
theorem Before.passToken_word {before : Before} {word rest : List Char} {kind : TokenKind}
    (hword : word ≠ []) (hkind : kind ≠ .comment) :
    before.passToken ⟨kind, word.length⟩ (word ++ rest) = ⟨some kind, word.getLast?⟩ := by
  have hlast : ((word ++ rest).drop (word.length - 1)).head? = word.getLast? := by
    obtain ⟨front, c, rfl⟩ := (List.eq_nil_or_concat' word).resolve_left hword
    simp
  rw [passToken, pass, if_neg (mt List.length_eq_zero_iff.mp hword), hlast,
    beq_eq_false_iff_ne.mpr hkind]
  rfl

theorem Gap.length_space (text : List Char) : length (' ' :: text) = length text + 1 :=
  Nat.add_comm _ _

/-- A space is all that a gap behind it adds to what stands before. -/
theorem Before.pass_space {previous : Option TokenKind} {char : Option Char} (text : List Char) :
    pass ⟨previous, char⟩ (Gap.length (' ' :: text)) (' ' :: text) =
      pass ⟨previous, some ' '⟩ (Gap.length text) text := by
  rw [Gap.length_space, pass, if_neg (Nat.succ_ne_zero _), Nat.add_sub_cancel, pass]
  cases Gap.length text with
  | zero => rfl
  | succ n => rfl

/-- Each of some words is at the head of what is left of a text, behind a gap. -/
inductive Runs (token : Before → List Char → Except LexicalFault Lexeme) :
    Replacement.State → List Char → List Word → Replacement.State → List Char → Prop
  | nil {state text} : Runs token state text [] state text
  | cons {state text lexeme words last rest}
    (htoken : token (state.before.pass (Gap.length text) text) (text.drop (Gap.length text)) =
      .ok lexeme)
    (hlength : lexeme.length ≤ (text.drop (Gap.length text)).length)
    (hkind : lexeme.kind ∉ [.eof, .comment])
    (hopen : lexeme.kind = .rBrace → state.depth ≠ 0)
    (hrest : Runs token (state.behind lexeme text)
      (text.drop (Gap.length text + lexeme.length)) words last rest) :
    Runs token state text
      ((lexeme.kind, String.ofList ((text.drop (Gap.length text)).take lexeme.length)) :: words)
      last rest

namespace Runs

variable {token : Before → List Char → Except LexicalFault Lexeme}
  {state mid last : Replacement.State} {text rest behind : List Char} {words others : List Word}

theorem append (h : Runs token state text words mid rest)
    (h' : Runs token mid rest others last behind) :
    Runs token state text (words ++ others) last behind := by
  induction h with
  | nil => exact h'
  | cons htoken hlength hkind hopen _ ih => exact .cons htoken hlength hkind hopen (ih h')

/-- A word at the head of a text, with no gap before it. -/
theorem word {kind : TokenKind} {word : List Char}
    (htoken : token state.before (word ++ rest) = .ok ⟨kind, word.length⟩)
    (hgap : Gap.length (word ++ rest) = 0) (hword : word ≠ []) (hkind : kind ∉ [.eof, .comment])
    (hopen : kind = .rBrace → state.depth ≠ 0) :
    Runs token state (word ++ rest) [(kind, String.ofList word)]
      ⟨kind.depthBehind state.depth, ⟨some kind, word.getLast?⟩⟩ rest := by
  have hcomment : kind ≠ .comment := by
    rintro rfl
    simp at hkind
  have hstate : state.behind ⟨kind, word.length⟩ (word ++ rest) =
      ⟨kind.depthBehind state.depth, ⟨some kind, word.getLast?⟩⟩ := by
    rw [Replacement.State.behind, hgap, List.drop_zero, Before.pass, if_pos rfl,
      Before.passToken_word hword hcomment]
    rfl
  have hread : token (state.before.pass (Gap.length (word ++ rest)) (word ++ rest))
      ((word ++ rest).drop (Gap.length (word ++ rest))) = .ok ⟨kind, word.length⟩ := by
    rw [hgap]
    exact htoken
  have hnil : Runs token (state.behind ⟨kind, word.length⟩ (word ++ rest))
      ((word ++ rest).drop (Gap.length (word ++ rest) + word.length)) []
      ⟨kind.depthBehind state.depth, ⟨some kind, word.getLast?⟩⟩ rest := by
    rw [hgap, Nat.zero_add, List.drop_left, hstate]
    exact .nil
  have hruns := Runs.cons hread (by simp [hgap]) hkind hopen hnil
  rw [hgap, List.drop_zero, List.take_left] at hruns
  exact hruns

/-- A space before the first of some words. -/
theorem space {depth : Nat} {previous : Option TokenKind} {char : Option Char}
    (h : Runs token ⟨depth, ⟨previous, some ' '⟩⟩ text words last rest) (hwords : words ≠ []) :
    Runs token ⟨depth, ⟨previous, char⟩⟩ (' ' :: text) words last rest := by
  have hpass : (⟨previous, char⟩ : Before).pass _ (' ' :: text) = _ := Before.pass_space text
  cases h with
  | nil => exact absurd rfl hwords
  | @cons _ _ lexeme words _ _ htoken hlength hkind hopen hrest =>
    have hdrop : (' ' :: text).drop (Gap.length (' ' :: text)) = text.drop (Gap.length text) := by
      rw [Gap.length_space, List.drop_succ_cons]
    have hbehind : Replacement.State.behind ⟨depth, ⟨previous, char⟩⟩ lexeme (' ' :: text) =
        Replacement.State.behind ⟨depth, ⟨previous, some ' '⟩⟩ lexeme text := by
      simp only [Replacement.State.behind, hpass, hdrop]
    rw [← hpass, ← hdrop] at htoken
    rw [← hdrop] at hlength ⊢
    refine .cons htoken hlength hkind hopen ?_
    rw [hbehind, Gap.length_space, Nat.add_right_comm, List.drop_succ_cons]
    exact hrest

/-- Words before a closing brace are what is seen of a replacement. -/
theorem sees {length position : Nat} {source : List Char}
    (h : Runs token state text words last rest) (hdepth : last.depth = 0)
    (hclose : token (last.before.pass (Gap.length rest) rest) (rest.drop (Gap.length rest)) =
      .ok ⟨.rBrace, length⟩) (htext : source.drop position = text) :
    ∃ seen innerStop, Replacement.Sees token source position state seen innerStop ∧
      source.drop innerStop = rest.drop (Gap.length rest) := by
  induction h generalizing position with
  | nil =>
    subst htext
    rw [List.drop_drop] at hclose
    exact ⟨[], _, .close hclose hdepth, List.drop_drop.symm⟩
  | cons htoken hlength hkind hopen _ ih =>
    subst htext
    obtain ⟨seen, innerStop, hseen, hstop⟩ := ih hdepth hclose List.drop_drop.symm
    rw [← Nat.add_assoc] at hseen
    rw [List.drop_drop] at htoken
    exact ⟨_, innerStop, .token htoken (fun heof => hkind (by simp [heof])) hopen hseen, hstop⟩

/-- Words up to the end of a text are what a scanner reads of it. -/
theorem reads {scanner : Scanner} (h : Runs Lexeme.recognize state text words last rest)
    (hend : rest.drop (Gap.length rest) = []) (hphase : scanner.phase = .program)
    (hrest : scanner.cursor.rest = text) (hbefore : scanner.before = state.before) :
    ∃ tokens stop, scanner.Reads (tokens ++ [stop]) ∧ stop.kind = .eof ∧
      tokens.map Token.word = words ∧ ∀ token ∈ tokens, token.kind ∉ [.eof, .comment] := by
  induction h generalizing scanner with
  | nil =>
    rw [← hrest, ← Scanner.rest_passGap] at hend
    exact ⟨[], _, .last (Scanner.read_eof hphase hend) rfl, rfl, rfl, by simp⟩
  | @cons state text lexeme words last rest htoken hlength hkind hopen _ ih =>
    subst hrest
    have hne : lexeme.kind ≠ .eof := fun heof => hkind (by simp [heof])
    rw [← Scanner.rest_passGap] at hlength ⊢
    rw [← hbefore, ← Scanner.before_passGap, ← Scanner.rest_passGap] at htoken
    obtain ⟨after, hread, hphase', hcursor, hbefore'⟩ :=
      Scanner.read_lexeme hphase htoken hne hlength
    have hafter : after.before = (state.behind lexeme scanner.cursor.rest).before := by
      rw [hbefore', Scanner.before_passGap, Scanner.rest_passGap, hbefore]
      rfl
    obtain ⟨tokens, stop, hreads, hstop, hwords, htokens⟩ := ih hend hphase' (by
      rw [hcursor, Cursor.rest_advanceBy, Scanner.rest_passGap, List.drop_drop]) hafter
    refine ⟨scanner.passGap.cursor.token lexeme :: tokens, stop, .more hread hne hreads, hstop, ?_,
      List.forall_mem_cons.mpr ⟨hkind, htokens⟩⟩
    rw [List.map_cons, hwords]
    rfl

end Runs

end PipelineLang
