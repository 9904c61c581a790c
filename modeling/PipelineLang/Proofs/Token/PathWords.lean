import PipelineLang.Proofs.Token.Laying
import PipelineLang.Proofs.Token.Paths
import PipelineLang.Proofs.Token.Reading

/-!
# Paths that are called or head a statement

Two neighbours of a path may be spelled like the groups of an address. Where the path is called,
the last two of them are not read as one, and where it heads a statement, the first two are not.
All others are.

## Main results

- `Meets.areApart` — the words of a path are met in a text only if they are apart
- `tokenize_call_iff` — which paths are read word by word where they are called
- `tokenize_heading_iff` — which are where they head a statement

## Design notes

Both results rest on the same step: a name of a path and what is behind it are read as a name
exactly if it is apart from the next one, where the token before opens no statement.
-/

namespace PipelineLang

open Address Lexeme

variable {replacement : Option TokenKind → List Char → Except LexicalFault Replacement}
  {before : Before} {rest : List Char} {kind : TokenKind}
  {name : String} {names : List String}

/-! ### Only paths whose names are apart -/

/-- What is met behind a token that is known. -/
theorem Meets.behind_word {word : List Char} {head : Word} {words : List Word}
    (h : Meets (recognizeWith replacement) before (word ++ rest) (head :: words))
    (htoken : recognizeWith replacement before (word ++ rest) = .ok ⟨kind, word.length⟩)
    (hkind : kind ∉ [.eof, .comment]) :
    head = (kind, String.ofList word) ∧
      Meets (recognizeWith replacement) ⟨some kind, word.getLast?⟩ rest words := by
  simp only [List.mem_cons, List.not_mem_nil, or_false, not_or] at hkind
  have hgap := gap_of_recognized htoken
  have hword : word ≠ [] :=
    List.ne_nil_of_length_pos ((recognized_of_ok htoken).length_pos hkind.1).2
  cases h with
  | cons hread _ hrest =>
    rw [hgap, List.drop_zero, Before.pass, if_pos rfl] at hread
    obtain rfl := Except.ok.inj (hread.symm.trans htoken)
    rw [hgap, List.drop_zero, Nat.zero_add, List.drop_left, Before.pass, if_pos rfl,
      Before.passToken_word hword hkind.2] at hrest
    rw [hgap, List.drop_zero, List.take_left]
    exact ⟨rfl, hrest⟩

/-- What is met behind two colons that go on with a path. -/
theorem Meets.behind_colons {text : List Char} {head : Word} {words : List Word}
    (h : Meets (recognizeWith replacement) ⟨some .identifier, name.toList.getLast?⟩
      (':' :: ':' :: text) (head :: words)) (hname : IsName name) :
    Meets (recognizeWith replacement) ⟨some .moduleSep, some ':'⟩ text words := by
  have hseparator : recognizeWith replacement ⟨some .identifier, name.toList.getLast?⟩
      ([':', ':'] ++ text) = .ok ⟨.moduleSep, [':', ':'].length⟩ :=
    recognizeWith_separator rfl hname.last
  exact (Meets.behind_word h hseparator (by decide)).2

/-- The words of a path are met where no statement starts only if its names are apart. -/
theorem Meets.areApart {others : List Word}
    (h : Meets (recognizeWith replacement) before (name.toList ++ (pathBehind names ++ rest))
      ((.identifier, name) :: (pathWordsBehind names ++ others)))
    (hopens : before.previous.all statementOpeners.contains = false)
    (hnames : ∀ other ∈ name :: names, IsName other) (hrest : EndsPath rest) :
    AreApart (name :: names) rest := by
  -- Behind a name and its colons the rest of the path is met, and no statement starts there.
  induction names generalizing name before with
  | nil => exact areApart_singleton name
  | cons other names ih =>
    obtain ⟨hname, hothers⟩ := List.forall_mem_cons.mp hnames
    have hother : IsName other := hothers other List.mem_cons_self
    by_cases hpair : IsPair name.toList other.toList →
        (pathBehind names ++ rest).head? = some '('
    · refine areApart_cons_cons.mpr ⟨hpair, ?_⟩
      have hread : recognizeWith replacement before _ = .ok ⟨.identifier, name.toList.length⟩ :=
        recognizeWith_segment hnames (by rintro _ ⟨⟩ hp; exact namesOperator_of_call (hpair hp))
          hrest
      obtain ⟨-, hbehind⟩ := h.behind_word hread (by decide)
      rw [pathBehind_cons] at hbehind
      exact ih (hbehind.behind_colons hname) rfl hothers
    · -- The two names are read as an address.
      obtain ⟨hpair, hcall⟩ := Classical.not_imp.mp hpair
      have hread : recognizeWith replacement before _ = .ok ⟨.ip, _⟩ :=
        recognizeWith_pair hname.1 hother.1 hpair (goesOn_pathBehind names hrest)
          (namesOperator_eq_false hopens hcall)
      rw [pathBehind_cons, ← List.cons_append, ← List.cons_append, ← List.append_assoc] at h
      have hkind := congrArg Prod.fst (h.behind_word hread (by decide)).1
      simp at hkind

/-- What is met behind a space. -/
theorem Meets.behind_space {previous : Option TokenKind} {char : Option Char} {text : List Char}
    {words : List Word}
    (h : Meets (recognizeWith replacement) ⟨previous, char⟩ (' ' :: text) words) :
    Meets (recognizeWith replacement) ⟨previous, some ' '⟩ text words := by
  have hdrop : (' ' :: text).drop (Gap.length (' ' :: text)) = text.drop (Gap.length text) := by
    rw [Gap.length_space, List.drop_succ_cons]
  cases h with
  | nil => exact .nil
  | cons htoken hkind hrest =>
    rw [Before.pass_space, hdrop] at htoken
    rw [Before.pass_space, hdrop, Gap.length_space, Nat.add_right_comm, List.drop_succ_cons]
      at hrest
    rw [hdrop]
    exact .cons htoken hkind hrest

/-! ### The words of a source -/

/-- The words of a source behind its first one are those that are met there. -/
theorem words_of_tokenize {source : String} {word : List Char}
    (hsource : source.toList = word ++ rest)
    (htoken : recognize ⟨none, none⟩ (word ++ rest) = .ok ⟨kind, word.length⟩)
    (hkind : kind ∉ [.eof, .comment, .newline])
    (hhead : word.head? ≠ some '-' ∧ word.head? ≠ some Cursor.byteOrderMark) (words : List Word) :
    ((∃ tokens, tokenize source = .ok tokens ∧
        tokens.map Token.word = (kind, String.ofList word) :: (words ++ [(.eof, "")])) →
      Meets recognize ⟨some kind, word.getLast?⟩ rest words) ∧
    ∀ last behind, Runs recognize ⟨0, ⟨some kind, word.getLast?⟩⟩ rest words last behind →
      behind.drop (Gap.length behind) = [] →
      ∃ tokens, tokenize source = .ok tokens ∧
        tokens.map Token.word = (kind, String.ofList word) :: (words ++ [(.eof, "")]) := by
  obtain ⟨token, scanner, hread, hword, hphase, hrest, hbefore⟩ :=
    Scanner.read_first htoken hkind hhead
  have hne : token.kind ≠ .eof := by
    rw [show token.kind = kind from congrArg Prod.fst hword]
    rintro rfl
    simp at hkind
  rw [← hsource] at hread
  refine ⟨?_, fun last behind hruns hend => ?_⟩
  · rintro ⟨tokens, htokens, hwords⟩
    obtain ⟨others, rfl, hreads⟩ :=
      (Scanner.reads_iff_of_read hread hne).mp (tokenize_eq_ok_iff.mp htokens)
    obtain ⟨others, stop, rfl, -, hmeets⟩ := hreads.meets hphase
    rw [List.map_cons, List.map_append, List.map_singleton, hword] at hwords
    obtain ⟨rfl, -⟩ := List.append_inj' (List.cons.inj hwords).2 rfl
    rwa [hrest, hbefore] at hmeets
  · obtain ⟨others, stop, hreads, hstop, rfl, -⟩ := hruns.reads hend hphase hrest hbefore
    refine ⟨token :: (others ++ [stop]), tokenize_eq_ok_iff.mpr (.more hread hne hreads), ?_⟩
    have htext := hreads.text_of_eof stop (by simp) hstop
    rw [List.map_cons, List.map_append, List.map_singleton, hword, Token.word, hstop, htext]

/-! ### Paths in a source -/

/-- The words of a path before others. -/
def pathWords (name : String) (names : List String) (others : List Word) : List Word :=
  (.identifier, name) :: (pathWordsBehind names ++ others)

theorem endsPath_call (text : List Char) : EndsPath ('(' :: text) := by
  rintro _ ⟨⟩
  exact ⟨by decide, by decide⟩

/-- A path that is called is read up to the end of its call. -/
theorem runs_call (hnames : ∀ other ∈ name :: names, IsName other)
    (hapart : AreApart (name :: names) ['(', '1', ')']) (state : Replacement.State) :
    ∃ last, Runs (recognizeWith replacement) state
      (name.toList ++ (pathBehind names ++ ['(', '1', ')']))
      (pathWords name names [(.lParen, "("), (.number, "1"), (.rParen, ")")])
      ⟨state.depth, last⟩ [] := by
  obtain ⟨last, hpath⟩ := runs_names hnames hapart (endsPath_call _) state
  have hone : ∀ before, recognizeWith replacement before (['1'] ++ [')']) =
      .ok ⟨.number, ['1'].length⟩ := by
    intro before
    rw [List.singleton_append,
      recognizeWith_open ⟨by decide, by decide, fun h => absurd h (by decide)⟩]
    rfl
  have hopening : Runs (recognizeWith replacement) ⟨state.depth, last⟩ (['('] ++ ['1', ')'])
      [(.lParen, "(")] ⟨state.depth, ⟨some .lParen, some '('⟩⟩ ['1', ')'] :=
    runs_word (recognizeWith_mark (by decide)) (by decide) (by simp)
  have hnumber : Runs (recognizeWith replacement) ⟨state.depth, ⟨some .lParen, some '('⟩⟩
      (['1'] ++ [')']) [(.number, "1")] ⟨state.depth, ⟨some .number, some '1'⟩⟩ [')'] :=
    runs_word (hone _) (by decide) (by simp)
  have hclosing : Runs (recognizeWith replacement) ⟨state.depth, ⟨some .number, some '1'⟩⟩
      ([')'] ++ []) [(.rParen, ")")] ⟨state.depth, ⟨some .rParen, some ')'⟩⟩ [] :=
    runs_word (recognizeWith_mark (by decide)) (by decide) (by simp)
  exact ⟨_, hpath.append (hopening.append (hnumber.append hclosing))⟩

/-- A path that is called is read word by word exactly if no two neighbours before its last name
would be an address. -/
theorem tokenize_call_iff (hnames : ∀ other ∈ name :: names, IsName other) :
    (∃ tokens, tokenize ("x = " ++ String.intercalate "::" (name :: names) ++ "(1)") = .ok tokens ∧
      tokens.map Token.word = (.identifier, "x") :: (.assign, "=") :: pathWords name names
        [(.lParen, "("), (.number, "1"), (.rParen, ")"), (.eof, "")]) ↔
      (name :: names).dropLast.IsChain fun name other => ¬ IsPair name.toList other.toList := by
  have hsource : ("x = " ++ String.intercalate "::" (name :: names) ++ "(1)").toList =
      ['x'] ++ (' ' :: '=' :: ' ' :: (name.toList ++ (pathBehind names ++ ['(', '1', ')']))) := by
    rw [String.toList_append, String.toList_append, toList_path]
    simp
  have hx : recognize ⟨none, none⟩ (['x'] ++ (' ' :: '=' :: ' ' ::
      (name.toList ++ (pathBehind names ++ ['(', '1', ')'])))) = .ok ⟨.identifier, ['x'].length⟩ :=
    recognizeWith_name isName_x (behindWord_cons _ (by decide))
  have hassign : ∀ before text, recognize before (['='] ++ ' ' :: text) =
      .ok ⟨.assign, ['='].length⟩ := fun _ _ => recognizeWith_assign (by decide)
  obtain ⟨hmeets, hread⟩ := words_of_tokenize hsource hx (by decide) isName_x.1.head_ne
    ((.assign, "=") :: pathWords name names [(.lParen, "("), (.number, "1"), (.rParen, ")")])
  have hwords : (.assign, "=") :: pathWords name names
        [(.lParen, "("), (.number, "1"), (.rParen, ")")] ++ [(.eof, "")] =
      (.assign, "=") :: pathWords name names
        [(.lParen, "("), (.number, "1"), (.rParen, ")"), (.eof, "")] := by simp [pathWords]
  rw [hwords] at hmeets hread
  have hcall : ['(', '1', ')'].head? = some '(' := rfl
  constructor
  · intro h
    obtain ⟨-, hmeets⟩ := (hmeets h).behind_space.behind_word (hassign _ _) (by decide)
    have hapart := hmeets.behind_space.areApart (by decide) hnames (endsPath_call _)
    rwa [AreApart, if_pos hcall] at hapart
  · intro h
    have hapart : AreApart (name :: names) ['(', '1', ')'] := by rwa [AreApart, if_pos hcall]
    have hpath : ∃ last, Runs recognize ⟨0, ⟨some .assign, some ' '⟩⟩ _ _ ⟨0, last⟩ [] :=
      runs_call hnames hapart _
    obtain ⟨last, hpath⟩ := hpath
    have hsign : ∀ text, Runs recognize ⟨0, ⟨some .identifier, some ' '⟩⟩ (['='] ++ ' ' :: text)
        [(.assign, "=")] ⟨0, ⟨some .assign, some '='⟩⟩ (' ' :: text) :=
      fun text => runs_word (hassign _ text) (by decide) (by simp)
    exact hread _ [] (((hsign _).append (hpath.space (by simp [pathWords]))).space (by simp)) rfl

/-- A path that heads a statement is read word by word exactly if no two neighbours behind its
first name would be an address. -/
theorem tokenize_heading_iff (hnames : ∀ other ∈ name :: names, IsName other) :
    (∃ tokens, tokenize (String.intercalate "::" (name :: names) ++ "\n") = .ok tokens ∧
      tokens.map Token.word = pathWords name names [(.newline, "\n"), (.eof, "")]) ↔
      names.IsChain fun name other => ¬ IsPair name.toList other.toList := by
  have hsource : (String.intercalate "::" (name :: names) ++ "\n").toList =
      name.toList ++ (pathBehind names ++ ['\n']) := by
    rw [String.toList_append, toList_path]
    simp
  have hends : EndsPath ['\n'] := by
    rintro _ ⟨⟩
    exact ⟨by decide, by decide⟩
  obtain ⟨hname, hothers⟩ := List.forall_mem_cons.mp hnames
  -- Where a statement starts, no address is read in place of a path.
  have hfirst : recognize ⟨none, none⟩ (name.toList ++ (pathBehind names ++ ['\n'])) =
      .ok ⟨.identifier, name.toList.length⟩ := by
    refine recognizeWith_segment hnames (fun other _ _ => ?_) hends
    cases names.tail with
    | nil => decide
    | cons last names =>
      rw [pathBehind_cons]
      rfl
  obtain ⟨hmeets, hread⟩ := words_of_tokenize hsource hfirst (by decide) hname.1.head_ne
    (pathWordsBehind names ++ [(.newline, "\n")])
  rw [String.ofList_toList, List.append_assoc] at hmeets hread
  have hcall : ['\n'].head? ≠ some '(' := by decide
  constructor
  · intro h
    have hbehind := hmeets h
    cases names with
    | nil => exact .nil
    | cons other names =>
      rw [pathBehind_cons] at hbehind
      have hapart := (hbehind.behind_colons hname).areApart rfl hothers hends
      rwa [AreApart, if_neg hcall] at hapart
  · intro h
    have hapart : AreApart names ['\n'] := by rwa [AreApart, if_neg hcall]
    have hpath : ∃ last, Runs recognize ⟨0, ⟨some .identifier, name.toList.getLast?⟩⟩ _ _
        ⟨0, last⟩ ['\n'] := runs_pathBehind hothers hapart hends rfl hname.last
    obtain ⟨last, hpath⟩ := hpath
    have hline : Runs recognize ⟨0, last⟩ (['\n'] ++ []) [(.newline, "\n")]
        ⟨0, ⟨some .newline, some '\n'⟩⟩ [] := runs_word rfl (by decide) (by simp)
    exact hread _ [] (hpath.append hline) rfl

end PipelineLang
