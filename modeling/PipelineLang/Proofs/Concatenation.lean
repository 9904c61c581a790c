import PipelineLang.Proofs.Grammar.Accuracy
import PipelineLang.Proofs.Grammar.Joining
import PipelineLang.Proofs.Grammar.Tracked
import PipelineLang.Proofs.Token.Joining

/-!
# Programs one behind the other

Two sources with a line end between them are one source. Without frontmatter, its statements
are those of the one and then those of the other, further on; and if the second one is no
program, what is wrong with it is wrong with both, further on.

## Main results

- `Program.finds_joined` — what comes of tokens with others behind them
- `Program.ofSource_joined` — the program of a source with another one behind it

## Design notes

A pipe at the head of the second source is no error behind the first one, since it may stand
between statements. A byte order mark is none at the head of the second source only.
-/

namespace PipelineLang

open TokenStream Parse Shape

/-! ### Tokens up to the end -/

namespace TokenStream

variable {front newlines rest : List Token} {stop : Token}

/-- The first token that is neither a line end nor a comment is the first one of what matters to
the grammar behind line ends. -/
theorem firstToken?_concat (hstop : stop.kind = .eof)
    (hsplit : significant front = newlines ++ rest) (hnewlines : Newlines newlines)
    (hrest : firstKind rest ≠ .newline) :
    ∃ token, firstToken? (front ++ [stop]) = some token ∧ token.kind = firstKind rest := by
  have hfirst : firstToken? (front ++ [stop]) =
      (significant (front ++ [stop])).find? fun token => token.kind != .newline := by
    rw [significant, List.find?_filter, firstToken?]
    congr 1
    funext token
    cases token.kind <;> rfl
  rw [hfirst, significant_concat _ hstop, hsplit, List.append_assoc, List.find?_append,
    List.find?_eq_none.mpr (by simpa [Newlines] using hnewlines), Option.none_or]
  cases rest with
  | nil => exact ⟨stop, by simp [hstop], hstop⟩
  | cons token rest =>
    have hkind : token.kind ≠ .newline := hrest
    exact ⟨token, by simp [hkind], rfl⟩

end TokenStream

namespace Grammar

variable {newlines rest : List Token} {stop : Token}

theorem statementsToEnd_moved (shift : Shift) (limit : Nat) {stream : TokenStream}
    (hend : stream.stop.kind = .eof) :
    statementsToEnd (enterTo limit limit) (moved shift stream) =
      moved shift (statementsToEnd (enterTo limit limit) stream) := by
  have henter := entersTracking_moved shift limit limit
  refine (tracks_statementsToEnd henter (tracks_invocation_never henter) hend).resolve_left ?_
  rintro ⟨error, -, hlost⟩
  exact hlost

/-- Statements are the same ones further on, whatever stands before them. -/
theorem statementsToEnd_between_moved (hstop : stop.kind = .eof) (shift : Shift) (limit : Nat)
    (before before' rest : List Token) :
    (statementsToEnd (enterTo limit limit)
        (between before (moved shift rest) (moved shift stop))).items =
        moved shift (statementsToEnd (enterTo limit limit) (between before' rest stop)).items ∧
      (statementsToEnd (enterTo limit limit)
          (between before (moved shift rest) (moved shift stop))).error =
        moved shift (statementsToEnd (enterTo limit limit) (between before' rest stop)).error := by
  obtain ⟨hitems, herror⟩ := statementsToEnd_heedless (enterTo limit limit) before' [] rest hstop
  have hstop' : (moved shift stop).kind = .eof := hstop
  obtain ⟨hitems', herror'⟩ :=
    statementsToEnd_heedless (enterTo limit limit) before [] (moved shift rest) hstop'
  have hmoved : between [] (moved shift rest) (moved shift stop) =
      moved shift (between [] rest stop) := rfl
  rw [hitems, herror, hitems', herror', hmoved, statementsToEnd_moved _ _ hstop]
  exact ⟨rfl, rfl⟩

end Grammar

/-! ### Programs without frontmatter -/

namespace Program

open Grammar

variable {limit : Nat} {front others newlines rest : List Token} {stop : Token}

theorem stream_of_split (hfront : ∀ token ∈ front, token.kind ≠ .eof) (hstop : stop.kind = .eof)
    (hsplit : significant front = newlines ++ rest) :
    TokenStream.ofTokens (front ++ [stop]) = between [] (newlines ++ rest) stop := by
  rw [ofTokens_concat hstop hfront, hsplit]
  rfl

theorem firstKind_moved (shift : Shift) (tokens : List Token) :
    firstKind (moved shift tokens) = firstKind tokens := by
  cases tokens <;> rfl

theorem newlines_moved {shift : Shift} (h : Newlines newlines) :
    Newlines (moved shift newlines) := by
  intro token htoken
  obtain ⟨token, hmem, rfl⟩ := List.mem_map.mp htoken
  exact h token hmem

/-- What comes of the tokens of a program with others behind it, on a line of their own. -/
theorem finds_joined {program : Program} {line stop' : Token} (shift : Shift)
    (hfront : ∀ token ∈ front, token.kind ≠ .eof) (hstop : stop.kind = .eof)
    (hok : ofTokens limit (front ++ [stop]) = .ok program) (hnone : program.frontmatter = none)
    (hline : line.kind = .newline) (hothers : ∀ token ∈ others, token.kind ≠ .eof)
    (hstop' : stop'.kind = .eof) (hsplit : significant others = newlines ++ rest)
    (hnewlines : Newlines newlines)
    (hrest : firstKind rest ∉ [TokenKind.newline, .pipe, .frontmatterOpen]) :
    Finds limit (front ++ line :: moved shift (others ++ [stop']))
      (program.statements ++ moved shift
        (statementsToEnd (enterTo limit limit) (between newlines rest stop')).items)
      (moved shift
        (statementsToEnd (enterTo limit limit) (between newlines rest stop')).error) := by
  have hderivation := (ofTokens_takes limit (front ++ [stop])).1 program hok
  obtain @⟨head, taken, ahead, frontmatter, statements, htokens, hhead, hstatements⟩ := hderivation
  obtain rfl : frontmatter = none := hnone
  obtain ⟨hhead⟩ := hhead
  rw [ofTokens_concat hstop hfront] at htokens
  replace htokens : significant front = head ++ (taken ++ ahead) := htokens
  have hmore : firstKind (moved shift rest) ∉ [TokenKind.newline, .frontmatterOpen] ∧
      firstKind (moved shift rest) ∉ [TokenKind.newline, .pipe] := by
    rw [firstKind_moved]
    simp only [List.mem_cons, List.not_mem_nil, or_false, not_or] at hrest ⊢
    exact ⟨⟨hrest.1, hrest.2.2⟩, hrest.1, hrest.2.1⟩
  have hjoined : ∀ token ∈ front ++ line :: moved shift others, token.kind ≠ .eof := by
    refine List.forall_mem_append.mpr ⟨hfront, List.forall_mem_cons.mpr ⟨by simp [hline], ?_⟩⟩
    intro token htoken
    obtain ⟨token, hmem, rfl⟩ := List.mem_map.mp htoken
    exact hothers token hmem
  have hsignificant : significant (front ++ line :: moved shift others) =
      head ++ (taken ++ ahead) ++ ((line :: moved shift newlines) ++ moved shift rest) := by
    rw [← List.singleton_append, significant_append, significant_append,
      significant_singleton (by simp [hline]), significant_moved, hsplit, htokens]
    simp [moved_list]
  have hsplit' : front ++ line :: moved shift (others ++ [stop']) =
      (front ++ line :: moved shift others) ++ [moved shift stop'] := by
    simp [moved_list]
  have hgap : Newlines (line :: moved shift newlines) :=
    List.forall_mem_cons.mpr ⟨hline, newlines_moved hnewlines⟩
  have hend : (moved shift stop').kind = .eof := hstop'
  rw [statements_ofStatements?, hsplit']
  cases hstatements with
  | fragment hpartial _ => cases hpartial
  | none =>
    obtain ⟨hitems, herror⟩ := statementsToEnd_between_moved hstop' shift limit
      (head ++ (line :: moved shift newlines)) newlines rest
    rw [List.append_nil, List.append_nil, ← List.append_assoc] at hsignificant
    rw [List.nil_append, ← hitems, ← herror]
    exact finds_statementsToEnd hend (stream_of_split hjoined hend hsignificant)
      (List.forall_mem_append.mpr ⟨hhead, hgap⟩) hmore.1
  | all hstatements =>
    obtain ⟨hitems, herror⟩ := statementsToEnd_between_moved hstop' shift limit [] newlines rest
    have heof : ∀ token ∈ moved shift rest, token.kind ≠ .eof := by
      intro token htoken
      obtain ⟨token, hmem, rfl⟩ := List.mem_map.mp htoken
      have hmem' : token ∈ significant others := hsplit ▸ List.mem_append_right newlines hmem
      exact hothers token (List.mem_of_mem_filter hmem')
    obtain ⟨hitems', herror'⟩ :=
      statementsToEnd_joined hend hstatements hgap (by simp) heof hmore.2 head
    rw [← hitems, ← herror, ← hitems', ← herror']
    rw [List.append_nil, List.append_assoc] at hsignificant
    refine finds_statementsToEnd hend (stream_of_split hjoined hend hsignificant) hhead
      fun hmem => ?_
    have hstart := hstatements.start (fun ahead => firstKind ahead ∈ statementOpeners)
      firstKind_statement (line :: moved shift newlines ++ moved shift rest)
    have hnone : ∀ kind ∈ [TokenKind.newline, .frontmatterOpen], kind ∉ statementOpeners := by
      decide
    exact hnone _ hmem hstart

/-- A program without frontmatter starts with a statement, if it has one. -/
theorem firstToken?_of_ok {program : Program} (hfront : ∀ token ∈ front, token.kind ≠ .eof)
    (hstop : stop.kind = .eof) (hok : ofTokens limit (front ++ [stop]) = .ok program)
    (hnone : program.frontmatter = none) :
    ∀ token ∈ firstToken? (front ++ [stop]), token.kind ∈ .eof :: statementOpeners := by
  have hderivation := (ofTokens_takes limit (front ++ [stop])).1 program hok
  obtain @⟨head, taken, ahead, frontmatter, statements, htokens, hhead, hstatements⟩ := hderivation
  obtain rfl : frontmatter = none := hnone
  obtain ⟨hhead⟩ := hhead
  rw [ofTokens_concat hstop hfront] at htokens
  have hkind : firstKind (taken ++ ahead) ∈ TokenKind.eof :: statementOpeners := by
    cases hstatements with
    | fragment hpartial _ => cases hpartial
    | none => exact List.mem_cons_self
    | all hstatements =>
      exact List.mem_cons_of_mem _ (hstatements.start
        (fun ahead => firstKind ahead ∈ statementOpeners) firstKind_statement [])
  have hline : firstKind (taken ++ ahead) ≠ .newline := by
    intro hline
    rw [hline] at hkind
    exact absurd hkind (by decide)
  obtain ⟨first, hfirst, hsame⟩ := firstToken?_concat hstop htokens hhead hline
  intro token htoken
  obtain rfl := Option.some.inj (hfirst.symm.trans htoken)
  rwa [hsame]

/-- What comes of a source without frontmatter that has another one behind it, on a line of its
own: the statements of both, and what is wrong with the second one, further on. -/
theorem exists_finds_joined {first second : String} {program : Program} {tokens : List Token}
    (hfirst : ofSource limit first = .ok program) (hnone : program.frontmatter = none)
    (hsecond : tokenize second = .ok tokens)
    (hplain : ∀ token ∈ tokens, token.kind ≠ .frontmatterOpen)
    (hmark : second.toList.head? ≠ some Cursor.byteOrderMark)
    (hpipe : ∀ token ∈ firstToken? tokens, token.kind ≠ .pipe) :
    ∃ joined items error, tokenize (first ++ "\n" ++ second) = .ok joined ∧
      Finds limit tokens items error ∧
      Finds limit joined (program.statements ++ moved (.past first.toList) items)
        (moved (.past first.toList) error) := by
  obtain ⟨tokens', htokens', hok⟩ := exists_tokens_of_ok hfirst
  obtain ⟨others, stop', rfl, hstop', hothers⟩ := (Scanner.reads_of_tokenize hsecond).eof
  obtain ⟨front, stop, rfl, hstop, hfront⟩ := (Scanner.reads_of_tokenize htokens').eof
  have hstart : ∀ token ∈ firstToken? (front ++ [stop]),
      token.kind ∉ [TokenKind.frontmatterOpen, .minus] := by
    have hnone' :
        ∀ kind ∈ .eof :: statementOpeners, kind ∉ [TokenKind.frontmatterOpen, .minus] := by
      decide
    exact fun token htoken => hnone' _ (firstToken?_of_ok hfront hstop hok hnone token htoken)
  obtain ⟨front', stop'', line, hconcat, -, -, hline, hjoined⟩ :=
    Scanner.tokens?_joined htokens' hstart hsecond hplain hmark
  obtain ⟨rfl, -⟩ := List.append_inj' hconcat rfl
  obtain ⟨newlines, rest, hsplit, hnewlines, hrest⟩ := exists_newlines (significant others)
  obtain ⟨opener, hopener, hkind⟩ := firstToken?_concat hstop' hsplit hnewlines hrest
  have hrest' : firstKind rest ∉ [TokenKind.newline, .pipe, .frontmatterOpen] := by
    simp only [List.mem_cons, List.not_mem_nil, or_false, not_or]
    refine ⟨hrest, ?_, ?_⟩
    · exact hkind ▸ hpipe opener hopener
    · exact hkind ▸ hplain opener (List.mem_of_find?_eq_some hopener)
  refine ⟨_, _, _, ?_, finds_statementsToEnd hstop' (stream_of_split hothers hstop' hsplit)
    hnewlines ?_,
    finds_joined (.past first.toList) hfront hstop hok hnone hline hothers hstop' hsplit hnewlines
      hrest'⟩
  · rw [tokenize, String.toList_append, String.toList_append, List.append_assoc]
    exact hjoined
  · simp only [List.mem_cons, List.not_mem_nil, or_false, not_or] at hrest' ⊢
    exact ⟨hrest'.1, hrest'.2.2⟩

/-- A source behind another one that is a program without frontmatter, with a line end between
them, is a program if it is one alone. The statements are those of the one and then those of the
other, further on. If it is none, the error is the one that it has alone, further on, and so are
the statements before the error. -/
theorem ofSource_joined {first second : String} {program : Program} {tokens : List Token}
    (hfirst : ofSource limit first = .ok program) (hnone : program.frontmatter = none)
    (hsecond : tokenize second = .ok tokens)
    (hplain : ∀ token ∈ tokens,
      token.kind ∉ [TokenKind.frontmatterOpen, .frontmatterBody, .frontmatterClose])
    (hmark : second.toList.head? ≠ some Cursor.byteOrderMark)
    (hpipe : ∀ token ∈ firstToken? tokens, token.kind ≠ .pipe) :
    (∀ other, ofSource limit second = .ok other →
      ∃ joined, ofSource limit (first ++ "\n" ++ second) = .ok joined ∧
        joined.frontmatter = none ∧
        joined.statements = program.statements ++ moved (.past first.toList) other.statements) ∧
    (∀ error, ofSource limit second = .error error →
      ∃ rejection joined, error = .rejected rejection ∧
        ofSource limit (first ++ "\n" ++ second) = .error (.rejected joined) ∧
        joined.error = moved (.past first.toList) rejection.error ∧
        joined.fragment.frontmatter = none ∧
        joined.fragment.statements = program.statements ++
          moved (.past first.toList) rejection.fragment.statements) := by
  have hopen : ∀ token ∈ tokens, token.kind ≠ .frontmatterOpen :=
    fun token htoken hkind => hplain token htoken (by simp [hkind])
  obtain ⟨joined, items, error, hjoined, hfinds, hboth⟩ :=
    exists_finds_joined hfirst hnone hsecond hopen hmark hpipe
  rw [ofSource_of_tokenize hsecond, ofSource_of_tokenize hjoined]
  cases hother : ofTokens limit tokens with
  | ok other =>
    obtain ⟨rfl, rfl⟩ := hfinds.of_program hother
    obtain ⟨both, hok, hplain, hstatements⟩ := hboth.exists_program
    refine ⟨fun other' hother' => ?_, nofun⟩
    obtain rfl := Except.ok.inj hother'
    exact ⟨both, by rw [hok]; rfl, hplain, hstatements⟩
  | error rejection =>
    obtain ⟨rfl, rfl⟩ := hfinds.of_rejection hother
    obtain ⟨both, hrejected, herror, hplain, hstatements⟩ := hboth.exists_rejection
    refine ⟨nofun, fun error herror' => ?_⟩
    obtain rfl := Except.error.inj herror'
    exact ⟨rejection, both, rfl, by rw [hrejected]; rfl, herror, hplain, hstatements⟩

/-- Behind `p // a`, the call `q` stands seven bytes and a line further on, and so does what is
wrong with `q )`. -/
theorem ofSource_joined_calls :
    ∃ program, ofSource 8 "p // a" = .ok program ∧
      (∃ other joined, ofSource 8 "q" = .ok other ∧ ofSource 8 "p // a\nq" = .ok joined ∧
        joined.statements = program.statements ++ moved ⟨7, 1⟩ other.statements) ∧
      ∃ rejection joined, ofSource 8 "q )" = .error (.rejected rejection) ∧
        ofSource 8 "p // a\nq )" = .error (.rejected joined) ∧
        joined.error = moved ⟨7, 1⟩ rejection.error ∧
        joined.fragment.statements =
          program.statements ++ moved ⟨7, 1⟩ rejection.fragment.statements := by
  have hok : ∀ {ε α : Type} {result : Except ε α}, result.isOk = true → ∃ a, result = .ok a := by
    rintro ε α (error | a) h
    · cases h
    · exact ⟨a, rfl⟩
  have herror : ∀ {ε α : Type} {result : Except ε α}, result.isOk = false →
      ∃ error, result = .error error := by
    rintro ε α (error | a) h
    · exact ⟨error, rfl⟩
    · cases h
  -- What is asked of the tokens of the second source.
  have hallowed : ∀ (source : String) (tokens : List Token), tokenize source = .ok tokens →
      ((tokenize source).toOption.all fun tokens => tokens.all fun token =>
        [TokenKind.identifier, .rParen, .eof].contains token.kind) = true →
      ∀ token ∈ tokens, token.kind ∈ [TokenKind.identifier, .rParen, .eof] := by
    intro source tokens htokens hall
    simpa [htokens, Except.toOption] using hall
  have hkinds : ∀ kind ∈ [TokenKind.identifier, .rParen, .eof],
      kind ∉ [TokenKind.frontmatterOpen, .frontmatterBody, .frontmatterClose] ∧ kind ≠ .pipe := by
    decide
  obtain ⟨program, hprogram⟩ := hok (by decide +kernel : (ofSource 8 "p // a").isOk = true)
  have hnone : program.frontmatter = none := by
    have hplain : ((ofSource 8 "p // a").toOption.bind (·.frontmatter)).isNone = true := by
      decide +kernel
    simpa [hprogram, Except.toOption] using hplain
  have hpast : Shift.past "p // a".toList = ⟨7, 1⟩ := by
    rw [Shift.past, Shift.mk.injEq]
    decide +kernel
  refine ⟨program, hprogram, ?_, ?_⟩
  · obtain ⟨other, hother⟩ := hok (by decide +kernel : (ofSource 8 "q").isOk = true)
    obtain ⟨tokens, htokens⟩ := hok (by decide +kernel : (tokenize "q").isOk = true)
    have hmem := hallowed "q" tokens htokens (by decide +kernel)
    obtain ⟨joined, hjoined, -, hstatements⟩ :=
      (ofSource_joined hprogram hnone htokens (fun token htoken => (hkinds _ (hmem token htoken)).1)
        (by decide) (fun token htoken =>
          (hkinds _ (hmem token (List.mem_of_find?_eq_some htoken))).2)).1 other hother
    exact ⟨other, joined, hother, hjoined, hpast ▸ hstatements⟩
  · obtain ⟨error, hrejected⟩ := herror (by decide +kernel : (ofSource 8 "q )").isOk = false)
    obtain ⟨tokens, htokens⟩ := hok (by decide +kernel : (tokenize "q )").isOk = true)
    have hmem := hallowed "q )" tokens htokens (by decide +kernel)
    obtain ⟨rejection, joined, rfl, hjoined, hsame, -, hstatements⟩ :=
      (ofSource_joined hprogram hnone htokens (fun token htoken => (hkinds _ (hmem token htoken)).1)
        (by decide) (fun token htoken =>
          (hkinds _ (hmem token (List.mem_of_find?_eq_some htoken))).2)).2 error hrejected
    exact ⟨rejection, joined, hrejected, hjoined, hpast ▸ hsame, hpast ▸ hstatements⟩

end Program

end PipelineLang
