import PipelineLang.Proofs.Depth
import PipelineLang.Proofs.Grammar.Keeping
import PipelineLang.Proofs.Grammar.StatementCompleteness
import PipelineLang.Proofs.Precedence

/-!
# Expressions that are laid out are read again

An expression is assigned to a name on one line. What it is laid out as can be assigned to that
name again, and is read as the same expression.

## Main results

- `Grammar.wordsRead_of_reads` — what is known of the tokens of the assignment
- `Grammar.reads_assignment` — the words of the assignment that is laid out
- `Program.assignment_reads_back` — the layout of an expression is read as the expression

## Design notes

That the assignment stands on one line is used twice. No line end comes to stand within a format
string, where it could not be laid out; and a path of two groups of digits, which could be an
address, is told from one by what stands before it on its line.
-/

namespace PipelineLang

open Lexeme Grammar

/-! ### The head of a line -/

namespace Scanner

/-- The first token of a source that starts with a name and a space. -/
theorem read_x (text : List Char) : ∃ token behind,
    (ofSource ('x' :: ' ' :: text)).read = (.ok token, behind) ∧
      token.word = (.identifier, "x") ∧ behind.phase = .program ∧
      behind.cursor.rest = ' ' :: text ∧ behind.before = ⟨some .identifier, some 'x'⟩ := by
  have hlexeme : recognize ⟨none, none⟩ (['x'] ++ ' ' :: text) = .ok ⟨.identifier, ['x'].length⟩ :=
    recognizeWith_name isName_x (behindWord_cons text (by decide))
  exact read_first hlexeme (by decide) isName_x.1.head_ne

end Scanner

namespace Grammar

/-- An equals sign is the first word behind the name. -/
theorem head_of_meets {before : Before} {text : List Char} {words : List Word}
    (h : Meets recognize before (' ' :: '=' :: ' ' :: text) words) :
    ∀ word ∈ (words.filter fun word => word.1 ≠ .comment).head?, word.1 = .assign := by
  cases h with
  | nil => simp
  | cons htoken _ _ =>
    have hgap : Gap.length (' ' :: '=' :: ' ' :: text) = 1 := rfl
    rw [hgap, List.drop_succ_cons, List.drop_zero] at htoken
    obtain rfl := Except.ok.inj (htoken.symm.trans (recognizeWith_assign (by decide)))
    rw [List.filter_cons_of_pos (by simp)]
    rintro _ ⟨⟩
    rfl

/-- What is known of the tokens of an assignment on one line. -/
theorem wordsRead_of_reads {text : List Char} (hline : '\n' ∉ text) {tokens : List Token}
    (h : (Scanner.ofSource ('x' :: ' ' :: '=' :: ' ' :: text)).Reads tokens) :
    WordsRead mostLevels (TokenStream.ofTokens tokens).rest := by
  obtain ⟨name, behind, hread, hname, hphase, hrest, hbefore⟩ := Scanner.read_x ('=' :: ' ' :: text)
  have hkind : name.kind = .identifier := congrArg Prod.fst hname
  cases h with
  | last h heof =>
    obtain rfl := Except.ok.inj (Prod.mk.inj (h.symm.trans hread)).1
    exact absurd (hkind.symm.trans heof) (by decide)
  | more h _ hreads =>
    obtain ⟨hsame, rfl⟩ := Prod.mk.inj (h.symm.trans hread)
    obtain rfl := Except.ok.inj hsame
    obtain ⟨others, stop, rfl, hstop, hmeets⟩ := hreads.meets hphase
    rw [hrest, hbefore] at hmeets
    have hothers : ∀ token ∈ others, token.kind ≠ .eof := by
      intro token hmem
      obtain ⟨_, _, lexeme, _, _, hne, hword⟩ := hmeets.exists_of_mem (List.mem_map_of_mem hmem)
      exact fun heof => hne ((congrArg Prod.fst hword).symm.trans heof)
    have hread : AreRead mostLevels
        ((others.map Token.word).filter fun word => word.1 ≠ .comment) :=
      hmeets.areRead (by simpa using hline) rfl
    have hfirst : Word.IsRead mostLevels (.identifier, "x") := by
      have htoken : recognize ⟨none, none⟩ (['x'] ++ [' ']) = .ok ⟨.identifier, ['x'].length⟩ :=
        recognizeWith_name isName_x (behindWord_cons [] (by decide))
      exact Word.isRead_of_recognized htoken (by decide)
    have hsign : ∀ word ∈ ((others.map Token.word).filter fun word => word.1 ≠ .comment).head?,
        word.1 ≠ .moduleSep :=
      fun word hmem => by rw [head_of_meets hmeets word hmem]; decide
    rw [← List.cons_append, TokenStream.ofTokens_concat hstop
      (List.forall_mem_cons.mpr ⟨by simp [hkind], hothers⟩), WordsRead, words_significant,
      List.map_cons, hname, List.filter_cons_of_pos (by simp)]
    exact hread.cons hfirst hsign

/-- An assignment that is laid out is read as its words. -/
theorem reads_assignment {value : Expr} (h : LaidOut recognize Before.Operand value.layout.toList
    (value.words .layout)) (hwords : value.words .layout ≠ []) :
    ∃ tokens, (Scanner.ofSource ('x' :: ' ' :: '=' :: ' ' :: value.layout.toList)).Reads tokens ∧
      (TokenStream.ofTokens tokens).rest.map Token.word =
        (.identifier, "x") :: (.assign, "=") :: value.words .layout := by
  obtain ⟨name, behind, hread, hname, hphase, hrest, hbefore⟩ :=
    Scanner.read_x ('=' :: ' ' :: value.layout.toList)
  have hsign : LaidOut recognize (fun _ => True) ("=".toList ++ ' ' :: value.layout.toList)
      ((.assign, "=") :: value.words .layout) :=
    laidOut_spaced (by decide) (by decide) (fun _ _ => recognizeWith_assign (by decide)) h hwords
  have hspace : LaidOut recognize (fun _ => True) (' ' :: '=' :: ' ' :: value.layout.toList)
      ((.assign, "=") :: value.words .layout) := hsign.space (by simp) fun _ _ => trivial
  obtain ⟨last, hruns⟩ := hspace 0 behind.before [] trivial ⟨by simp, by simp⟩
  rw [List.append_nil] at hruns
  have hbehind : ∃ tokens stop, behind.Reads (tokens ++ [stop]) ∧ stop.kind = .eof ∧
      tokens.map Token.word = (.assign, "=") :: value.words .layout ∧
      ∀ token ∈ tokens, token.kind ∉ [.eof, .comment] := hruns.reads rfl hphase hrest rfl
  obtain ⟨tokens, stop, hreads, hstop, htokens, hkinds⟩ := hbehind
  have hkind : name.kind = .identifier := congrArg Prod.fst hname
  have hall : ∀ token ∈ name :: tokens, token.kind ∉ [.eof, .comment] :=
    List.forall_mem_cons.mpr ⟨by simp [hkind], hkinds⟩
  refine ⟨name :: tokens ++ [stop], .more hread (by simp [hkind]) hreads, ?_⟩
  rw [TokenStream.rest_ofTokens hstop hall, List.map_cons, hname, htokens]

/-- An expression that is assigned in a statement can be read again where it is laid out, with
operators that bind as the precedences ask and no deeper than before. -/
theorem value_of_statement {limit : Nat} {before taken ahead : List Token} {target : Selector}
    {value : Expr} {span : Span}
    (h : StatementAt (nestedTo limit) before taken ahead (.assignment target value span))
    (hW : WordsRead mostLevels (before ++ taken ++ ahead)) :
    value.All (Expr.KeptTo mostLevels) ∧ value.All Expr.Grouped ∧ value.nesting < limit := by
  cases h with
  | letBinding hlet => nomatch hlet
  | selection hselection => nomatch hselection
  | invocation hinvocation => nomatch hinvocation
  | assignment hassignment =>
    have hkept : value.All (Expr.KeptTo mostLevels) :=
      assignment_covered (covered_of_nestedTo (local_keptTo (Nat.le_refl _)) limit) context_inside
        hassignment hW
    have hgrouped : value.All Expr.Grouped :=
      assignment_covered (W := fun _ => True) (covered_of_nestedTo local_grouped limit) context_true
        hassignment trivial
    refine ⟨hkept, hgrouped, ?_⟩
    obtain ⟨-, -, hvalue⟩ := hassignment
    exact bounded_nestedTo limit hvalue

/-- So can what is assigned in the first of some statements. -/
theorem value_of_statements {limit : Nat} {before taken ahead : List Token} {target : Selector}
    {value : Expr} {span : Span} {others : List Statement}
    (h : StatementsTo limit true before taken ahead (.assignment target value span :: others))
    (hW : WordsRead mostLevels (before ++ (taken ++ ahead))) :
    value.All (Expr.KeptTo mostLevels) ∧ value.All Expr.Grouped ∧ value.nesting < limit := by
  cases h with
  | fragment hcomplete => exact absurd hcomplete (by decide)
  | all hstatements =>
    cases hstatements with
    | last hstatement => exact value_of_statement hstatement (by simpa using hW)
    | more hstatement => exact value_of_statement hstatement (by simpa using hW)

end Grammar

namespace Program

/-- An expression that has been assigned to a name on one line is read again from its layout. -/
theorem assignment_reads_back (limit : Nat) (text : String) (hline : '\n' ∉ text.toList)
    (program : Program) (target : Selector) (value : Expr) (span : Span) (others : List Statement)
    (hprogram : ofSource limit ("x = " ++ text) = .ok program)
    (hfirst : program.statements = .assignment target value span :: others) :
    ∃ target' found span' pipelineSpan programSpan,
      ofSource limit ("x = " ++ value.layout) =
        .ok ⟨none, some ⟨[.assignment target' found span'], pipelineSpan⟩, programSpan⟩ ∧
      target'.unplaced = .field ⟨false, [⟨⟨"x", .zero⟩, false⟩], .zero⟩ ∧
      found.unplaced = value.unplaced := by
  obtain ⟨tokens, htokenize, htokens⟩ := exists_tokens_of_ok hprogram
  have hreads : (Scanner.ofSource ('x' :: ' ' :: '=' :: ' ' :: text.toList)).Reads tokens := by
    have hsource : ("x = " ++ text).toList = 'x' :: ' ' :: '=' :: ' ' :: text.toList := by simp
    rw [← hsource]
    exact Scanner.reads_of_tokens? rfl htokenize
  have hW := wordsRead_of_reads hline hreads
  obtain ⟨hrest, -, hstatements⟩ := (ofTokens_takes limit tokens).1 program htokens
  rw [hrest] at hW
  rw [statements_ofStatements?] at hfirst
  subst hfirst
  obtain ⟨hkept, hgrouped, hdepth⟩ := value_of_statements hstatements hW
  have hnamed : value.All Expr.Named := hkept.mono fun _ h => h.kept.named
  have hreadable : value.All Expr.Readable :=
    hgrouped.and (Expr.legible_of_keptTo hkept (Nat.le_refl _))
  obtain ⟨again, hagain, hwords⟩ := reads_assignment
    (Expr.laidOut hkept (Nat.le_refl _)) (Expr.words_ne_nil hnamed)
  have htarget : (Selector.field ⟨false, [⟨⟨"x", .zero⟩, false⟩], .zero⟩).Legible := .inr (by simp)
  obtain ⟨target', found, span', programSpan, hok, htarget', hfound⟩ :=
    ofTokens_assignment htarget hreadable hdepth hwords
  have hsource : ("x = " ++ value.layout).toList =
      'x' :: ' ' :: '=' :: ' ' :: value.layout.toList := by simp
  have htokenize : tokenize ("x = " ++ value.layout) = .ok again := by
    rw [tokenize, hsource]
    exact Scanner.tokens?_of_reads rfl hagain
  refine ⟨target', found, span', span', programSpan, ?_, htarget', hfound⟩
  rw [ofSource_of_tokenize htokenize, hok]
  rfl

/-- What is assigned in `x = f"{a+1}"else -b` is laid out with spaces around its operators, and
read again. -/
theorem assignment_reads_back_format : ∃ program target value span,
    ofSource 8 ("x = " ++ "f\x22\x7ba+1\x7d\x22else -b") = .ok program ∧
      program.statements = [.assignment target value span] ∧
      value.layout = "f\x22\x7ba + 1\x7d\x22 else -b" ∧
      ∃ target' found span' pipelineSpan programSpan,
        ofSource 8 ("x = " ++ value.layout) =
          .ok ⟨none, some ⟨[.assignment target' found span'], pipelineSpan⟩, programSpan⟩ ∧
        target'.unplaced = .field ⟨false, [⟨⟨"x", .zero⟩, false⟩], .zero⟩ ∧
        found.unplaced = value.unplaced := by
  have hlayout : ((ofSource 8 ("x = " ++ "f\x22\x7ba+1\x7d\x22else -b")).toOption.map
      fun program => program.statements.map fun statement => match statement with
        | .assignment _ value _ => some value.layout
        | _ => none) = some [some "f\x22\x7ba + 1\x7d\x22 else -b"] := by decide +kernel
  generalize hprogram : ofSource 8 _ = result at hlayout ⊢
  cases result with
  | error error => cases hlayout
  | ok program =>
    rw [Except.toOption, Option.map_some, Option.some.injEq, List.map_eq_singleton_iff] at hlayout
    obtain ⟨statement, hstatements, hvalue⟩ := hlayout
    split at hvalue
    · next target value span =>
      exact ⟨program, target, value, span, rfl, hstatements, Option.some.inj hvalue,
        assignment_reads_back 8 _ (by decide) program target value span [] hprogram hstatements⟩
    · cases hvalue

end Program

end PipelineLang
