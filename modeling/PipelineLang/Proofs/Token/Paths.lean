import PipelineLang.Proofs.Address.Words
import PipelineLang.Proofs.Token.Meeting

/-!
# Paths in a text

A path that does not start a statement is read as one wherever it is called, since no two
words of it that are followed by a third one would be an address.

## Main results

- `Lexeme.name_of_recognized`, `Lexeme.separator_of_recognized` — the tokens of paths
- `Lexeme.address?_pair` — two words that are an address
- `Lexeme.address?_gap` — a word that is an address with the colons behind it
- `Meets.not_pair` — two words of a path in a text
-/

namespace PipelineLang

open Address

variable {replacement : Option TokenKind → List Char → Except LexicalFault Replacement}
  {before : Before} {text : List Char} {words : List Word} {lexeme : Lexeme}

namespace Lexeme

/-- Names start like words, and variables with a dollar sign. -/
theorem named_cases (h : recognizeWith replacement before text = .ok lexeme)
    (hkind : lexeme.kind ∈ [.identifier, .dollarVar]) :
    (∃ rest, text = '$' :: rest ∧ 0 < wordAhead rest ∧
      lexeme = ⟨.dollarVar, 1 + wordAhead rest⟩) ∨
    ∃ c rest, text = c :: rest ∧ Ascii.isWordStart c ∧ lexeme = ofWord before text := by
  cases recognized_of_ok h with
  | dollar hpos => exact .inl ⟨_, rfl, hpos, rfl⟩
  | word hc => exact .inr ⟨_, _, rfl, hc, rfl⟩
  | eof | newline | lineComment | format => simp [ofLineComment] at hkind
  | blockComment hblock =>
    rw [(ofBlockComment_delimited _ _ _ hblock).1] at hkind
    simp at hkind
  | quoted hquoted =>
    rw [(ofQuoted_delimited _ _ _ _ hquoted).1] at hkind
    simp at hkind
  | raw hraw =>
    rw [(ofRaw_delimited _ _ _ _ hraw).1] at hkind
    simp at hkind
  | @digit c rest hc =>
    have hother : ∀ kind ∈ [TokenKind.identifier, .dollarVar],
        kind ∉ [TokenKind.time, .subnet, .ip, .number, .duration] := by decide
    exact absurd (ofDigit_spec hc rest).2 (hother _ hkind)
  | @colon rest =>
    have hother : ∀ kind ∈ [TokenKind.identifier, .dollarVar],
        kind ∉ [TokenKind.colon, .moduleSep, .subnet, .ip] := by decide
    exact absurd (ofColon_spec before rest).2 (hother _ hkind)
  | punctuation hpunctuation =>
    have hkinds : ∀ entry ∈ punctuation, entry.2 ∉ [.identifier, .dollarVar] := by decide
    exact absurd hkind (hkinds _ (ofPunctuation?_spec hpunctuation).1)

/-- A name is a word that is neither reserved nor the start of an address. -/
theorem name_of_recognized (h : recognizeWith replacement before text = .ok lexeme)
    (hkind : lexeme.kind = .identifier) :
    ∃ name rest, text = name ++ rest ∧ lexeme.length = name.length ∧ IsWord name ∧
      EndsWord rest ∧ TokenKind.keyword? (String.ofList name) = none ∧
      address? before text = none := by
  obtain ⟨rest, rfl, -, rfl⟩ | ⟨c, rest, rfl, hc, rfl⟩ := named_cases h (by simp [hkind])
  · simp at hkind
  cases haddress : address? before (c :: rest) with
  | some found =>
    have hmem := (address?_spec haddress).2
    rw [ofWord, haddress] at hkind
    rw [hkind] at hmem
    simp at hmem
  | none =>
    refine ⟨(c :: rest).takeWhile Ascii.isWordChar, (c :: rest).dropWhile Ascii.isWordChar,
      List.takeWhile_append_dropWhile.symm, ?_, isWord_takeWhile hc, endsWord_dropWhile _, ?_, rfl⟩
    · rw [ofWord, haddress]
      rfl
    · rw [ofWord, haddress] at hkind
      dsimp only at hkind
      rw [Ascii.wordLength, Matcher.take_length_takeWhile] at hkind
      cases hkeyword : TokenKind.keyword?
          (String.ofList ((c :: rest).takeWhile Ascii.isWordChar)) with
      | none => rfl
      | some kind =>
        rw [hkeyword, Option.getD_some] at hkind
        have hspelling := spelling_of_keyword? hkeyword
        rw [hkind] at hspelling
        simp [TokenKind.spelling?] at hspelling

/-- Two colons that go on with a path come right behind a word, or right before one that is
longer than any address. -/
theorem separator_of_recognized (h : recognizeWith replacement before text = .ok lexeme)
    (hkind : lexeme.kind = .moduleSep) :
    ∃ rest, text = ':' :: ':' :: rest ∧ lexeme.length = 2 ∧
      (before.last.any Ascii.isWordChar ∨ 0 < wordAhead rest ∧
        (groupsMatcher text).getD 2 < 2 + wordAhead rest) := by
  have hspelling := (recognized_of_ok h).spelling (show lexeme.kind.spelling? = some "::" by
    rw [hkind]; rfl)
  have hlength : lexeme.length ≤ text.length := (recognized_of_ok h).length_le
  obtain ⟨rest, rfl⟩ : ∃ rest, text = ':' :: ':' :: rest := by
    refine ⟨text.drop lexeme.length, ?_⟩
    conv_lhs => rw [← List.take_append_drop lexeme.length text, hspelling]
    rfl
  have hopen : IsOpen ':' (':' :: rest) := ⟨by decide, by decide, fun h => absurd h (by decide)⟩
  rw [recognizeWith_open hopen] at h
  obtain rfl := Except.ok.inj (show Except.ok (ofColon before _) = Except.ok lexeme from h)
  have htwo := congrArg List.length hspelling
  rw [List.length_take, Nat.min_eq_left hlength] at htwo
  refine ⟨rest, rfl, htwo, ?_⟩
  unfold ofColon at hkind
  rw [if_neg (by simp)] at hkind
  dsimp only at hkind
  split at hkind
  · next hpath =>
    simp only [continuesPath, Bool.and_eq_true, Bool.or_eq_true, decide_eq_true_eq] at hpath
    refine hpath.2.imp_right fun hword => ⟨hword.1, ?_⟩
    exact Nat.lt_of_le_of_lt (Nat.le_max_left _ _) hword.2
  · split at hkind <;> simp at hkind

/-- Groups at the head of a text that starts with a word are an address, where no subnet and no
path is. -/
theorem address?_of_groups {name rest : List Char} {ip : Nat} (hname : IsWord name)
    (hgroups : groupsMatcher (name ++ rest) = some ip)
    (hdigit : (((name ++ rest).take ip).takeWhile (· != ':')).any Char.isDigit)
    (hbehind : ∀ c ∈ ((name ++ rest).drop ip).head?, Ascii.isWordChar c = false)
    (hslash : ∀ tail, (name ++ rest).drop ip = '/' :: tail → ∀ c ∈ tail.head?, c.isDigit = false)
    (hpath : ¬ (isPathShaped ((name ++ rest).take ip) = true ∧
      namesOperator before ((name ++ rest).drop ip) = true)) :
    address? before (name ++ rest) = some ⟨.ip, ip⟩ := by
  have hsubnet : subnetMatcher (name ++ rest) = none := by
    refine subnetMatcher_eq_none hname fun ip' tail hip' hdrop => ?_
    obtain rfl := Option.some.inj (hip'.symm.trans hgroups)
    exact hslash tail hdrop
  have haddressOr : addressOr (name ++ rest) ip = ⟨.ip, ip⟩ := by rw [addressOr, hsubnet]
  have hany : ((name ++ rest).drop ip).head?.any Ascii.isWordChar = false := by
    cases hhead : ((name ++ rest).drop ip).head? with
    | none => rfl
    | some c => exact hbehind c hhead
  exact address?_eq_some.mpr ⟨ip, hgroups, by rw [hdigit, Bool.true_or], hany,
    fun h => hpath ⟨h.2.1, h.2.2⟩, haddressOr⟩

end Lexeme

/-! ### Words that are followed by another one -/

theorem Lexeme.wordAhead_word {word rest : List Char} (h : IsWord word) (hrest : EndsWord rest) :
    wordAhead (word ++ rest) = word.length := by
  have hlength : Ascii.wordLength (word ++ rest) = word.length := by
    rw [Ascii.wordLength, h.takeWhile_append hrest]
  obtain ⟨c, tail, rfl, hc⟩ := h.start
  rw [List.cons_append] at hlength ⊢
  rw [wordAhead, if_pos hc, hlength]

/-- A text that neither a word nor an address nor a subnet goes on with, but a path may. -/
structure GoesOn (rest : List Char) : Prop where
  endsWord : EndsWord rest
  colons : ∀ c tail, rest = ':' :: c :: tail → c = ':'
  slash : ∀ tail, rest = '/' :: tail → ∀ c ∈ tail.head?, c.isDigit = false

theorem Parted.goesOn (h : Parted text) : GoesOn text := by
  obtain ⟨c, tail, rfl, hc⟩ := id h
  refine ⟨h.not_head (by decide), ?_, ?_⟩
  · rintro d tail' heq
    have := h.not_head (p := (· == ':')) (by decide) c rfl
    simp [(List.cons.inj heq).1] at this
  · intro tail' heq
    obtain ⟨rfl, rfl⟩ := List.cons.inj heq
    obtain hblank | hslash | ⟨-, hdigit⟩ := hc
    · simp [Ascii.isBlank] at hblank
    · simp at hslash
    · exact hdigit

theorem goesOn_colons (rest : List Char) : GoesOn (':' :: ':' :: rest) := by
  refine ⟨?_, ?_, ?_⟩
  · rintro _ ⟨⟩
    decide
  · rintro c tail heq
    exact (List.cons.inj (List.cons.inj heq).2).1.symm
  · rintro tail heq
    simp at heq

/-- A pair is an address, where the path does not name an operator. -/
theorem Lexeme.address?_pair {first second rest : List Char} (hfirst : IsWord first)
    (hsecond : IsWord second) (hpair : IsPair first second) (hrest : GoesOn rest)
    (hnames : namesOperator before rest = false) :
    address? before (first ++ ':' :: ':' :: (second ++ rest)) =
      some ⟨.ip, (first ++ ':' :: ':' :: second).length⟩ := by
  obtain ⟨hgroup₁, hgroup₂, hdigit⟩ := hpair
  have hsplit : first ++ ':' :: ':' :: (second ++ rest) =
      (first ++ ':' :: ':' :: second) ++ rest := by simp
  have hlength : first.length + 2 + second.length = (first ++ ':' :: ':' :: second).length := by
    simp only [List.length_append, List.length_cons]
    omega
  have hgroups : groupsMatcher (first ++ ':' :: ':' :: (second ++ rest)) =
      some (first ++ ':' :: ':' :: second).length := by
    rw [(groupsMatcher_gap hfirst).1 hgroup₁,
      moreGroups_second hsecond hrest.endsWord hgroup₂ hrest.colons, Option.getD_some, hlength]
  refine address?_of_groups hfirst hgroups ?_ ?_ ?_ ?_
  · rw [hsplit, List.take_left, takeWhile_path (hfirst.not_mem (by decide))]
    exact hdigit
  · rw [hsplit, List.drop_left]
    exact hrest.endsWord
  · rw [hsplit, List.drop_left]
    exact hrest.slash
  · rw [hsplit, List.drop_left, hnames]
    simp

/-- A word of digits and the colons behind it are an address, where the path has ended. -/
theorem Lexeme.address?_gap {first rest : List Char} (hfirst : IsWord first)
    (hgroup : IsGroup first) (hdigit : first.any Char.isDigit) (hrest : Parted rest) :
    address? before (first ++ ':' :: ':' :: rest) = some ⟨.ip, (first ++ [':', ':']).length⟩ := by
  have hsplit : first ++ ':' :: ':' :: rest = (first ++ [':', ':']) ++ rest := by simp
  have hgroups : groupsMatcher (first ++ ':' :: ':' :: rest) =
      some (first ++ [':', ':']).length := by
    rw [(groupsMatcher_gap hfirst).1 hgroup, moreGroups_eq_none (hrest.not_head (by decide)),
      Option.getD_none, Nat.add_zero, List.length_append]
    rfl
  refine address?_of_groups hfirst hgroups ?_ ?_ ?_ ?_
  · rw [hsplit, List.take_left, takeWhile_path (hfirst.not_mem (by decide))]
    exact hdigit
  · rw [hsplit, List.drop_left]
    exact hrest.goesOn.endsWord
  · rw [hsplit, List.drop_left]
    exact hrest.goesOn.slash
  · rw [hsplit, List.take_left, isPathShaped_gap hfirst]
    simp

/-- A word behind colons is no longer than the address that starts with them. -/
theorem Lexeme.wordAhead_le_groupsMatcher {second rest : List Char} (hsecond : IsWord second)
    (hgroup : IsGroup second) (hrest : EndsWord rest) :
    2 + wordAhead (second ++ rest) ≤ (groupsMatcher (':' :: ':' :: (second ++ rest))).getD 2 := by
  obtain ⟨n, hn, hle⟩ := exists_moreGroups hsecond hrest hgroup
  rw [wordAhead_word hsecond hrest, groupsMatcher, hn]
  simp only [Option.getD_some]
  omega

/-- A path that is not called names no operator where no statement starts. -/
theorem Lexeme.namesOperator_eq_false {rest : List Char}
    (hopens : before.previous.all statementOpeners.contains = false)
    (hcall : rest.head? ≠ some '(') : namesOperator before rest = false := by
  rw [namesOperator, hopens, Bool.false_and, Bool.or_false, beq_eq_false_iff_ne]
  exact hcall

/-- Two words of a path that are followed by a third one would not be an address, unless the
path starts a statement. -/
theorem Meets.not_pair (h : Meets (Lexeme.recognizeWith replacement) before text words)
    (hopens : before.previous.all Lexeme.statementOpeners.contains = false)
    {name separator other last : Word} {rest : List Word}
    (hwords : words.filter (fun word => word.1 ≠ .comment) =
      name :: separator :: other :: last :: rest)
    (hname : name.1 = .identifier) (hseparator : separator.1 = .moduleSep)
    (hother : other.1 = .identifier) (hlast : last.1 = .moduleSep) :
    ¬ IsPair name.2.toList other.2.toList := by
  obtain ⟨before₁, text₁, lexeme₁, words₁, hbetween₁, hread₁, -, rfl, hmeets₁, hwords₁⟩ :=
    h.next hwords (by rw [hname]; decide)
  obtain ⟨before₂, text₂, lexeme₂, words₂, hbetween₂, hread₂, -, rfl, hmeets₂, hwords₂⟩ :=
    hmeets₁.next hwords₁ (by rw [hseparator]; decide)
  obtain ⟨before₃, text₃, lexeme₃, words₃, hbetween₃, hread₃, -, rfl, hmeets₃, hwords₃⟩ :=
    hmeets₂.next hwords₂ (by rw [hother]; decide)
  obtain ⟨before₄, text₄, lexeme₄, words₄, hbetween₄, hread₄, -, rfl, -, -⟩ :=
    hmeets₃.next hwords₃ (by rw [hlast]; decide)
  obtain ⟨first, rest₁, rfl, hlength₁, hfirst, -, -, hnone⟩ :=
    Lexeme.name_of_recognized hread₁ hname
  obtain ⟨rest₂, rfl, hlength₂, hpath⟩ := Lexeme.separator_of_recognized hread₂ hseparator
  obtain ⟨second, rest₃, rfl, hlength₃, hsecond, -⟩ := Lexeme.name_of_recognized hread₃ hother
  obtain ⟨rest₄, rfl, -, -⟩ := Lexeme.separator_of_recognized hread₄ hlast
  rw [hlength₁, List.drop_left] at hbetween₂
  rw [hlength₂, List.drop_succ_cons, List.drop_succ_cons, List.drop_zero] at hbetween₃
  rw [hlength₃, List.drop_left] at hbetween₄
  rw [hlength₁, hlength₃, List.take_left, List.take_left, String.toList_ofList,
    String.toList_ofList]
  obtain ⟨hthird, hcall⟩ : GoesOn rest₃ ∧ rest₃.head? ≠ some '(' := by
    obtain ⟨rfl, -⟩ | ⟨hparted, -⟩ := hbetween₄.place
    · exact ⟨goesOn_colons _, by simp⟩
    · exact ⟨hparted.goesOn, fun heq => by
        have := hparted.not_head (p := (· == '(')) (by decide) _ heq
        simp at this⟩
  intro hpair
  obtain ⟨hgroup₁, hgroup₂, hdigit⟩ := id hpair
  obtain ⟨rfl, -⟩ | ⟨-, hlast⟩ := hbetween₂.place
  · obtain ⟨rfl, -⟩ | ⟨hparted, -⟩ := hbetween₃.place
    · -- The two words and the colons between them are an address.
      have hnames : Lexeme.namesOperator before₁ rest₃ = false :=
        Lexeme.namesOperator_eq_false (by rw [hbetween₁.previous, hopens]) hcall
      rw [Lexeme.address?_pair hfirst hsecond hpair hthird hnames] at hnone
      simp at hnone
    · -- The first word and the colons are an address.
      rw [Lexeme.address?_gap hfirst hgroup₁ hdigit hparted] at hnone
      simp at hnone
  · -- The second word is longer than the address that starts with the colons.
    obtain hword | ⟨hword, hlt⟩ := hpath
    · cases hchar : before₂.last with
      | none => simp [hchar] at hword
      | some c =>
        rw [hchar, Option.any_some, hlast c hchar] at hword
        simp at hword
    · obtain ⟨rfl, -⟩ | ⟨hparted, -⟩ := hbetween₃.place
      · exact absurd hlt
          (Lexeme.wordAhead_le_groupsMatcher hsecond hgroup₂ hthird.endsWord).not_gt
      · obtain ⟨c, tail, rfl, -⟩ := id hparted
        have hstart := hparted.not_head (p := Ascii.isWordStart) (by decide) c rfl
        simp [Lexeme.wordAhead, hstart] at hword

/-- The same for words behind others, the last one of which opens no statement. -/
theorem Meets.not_pair_behind (h : Meets (Lexeme.recognizeWith replacement) before text words)
    (hlines : '\n' ∉ text) {front : List Word} {previous name separator other last : Word}
    {rest : List Word}
    (hwords : words.filter (fun word => word.1 ≠ .comment) =
      front ++ previous :: name :: separator :: other :: last :: rest)
    (hprevious : previous.1 ∉ Lexeme.statementOpeners)
    (hname : name.1 = .identifier) (hseparator : separator.1 = .moduleSep)
    (hother : other.1 = .identifier) (hlast : last.1 = .moduleSep) :
    ¬ IsPair name.2.toList other.2.toList := by
  have hkept : ∀ word ∈ front ++ previous :: name :: separator :: other :: last :: rest,
      word.1 ≠ .newline ∧ word.1 ≠ .comment := by
    intro word hmem
    rw [← hwords, List.mem_filter, decide_eq_true_eq] at hmem
    exact ⟨h.ne_newline hlines hmem.1, hmem.2⟩
  clear hlines
  induction front generalizing before text words with
  | nil =>
    obtain ⟨hnewline, hcomment⟩ := hkept previous (by simp)
    obtain ⟨before', text', lexeme, others, -, -, -, rfl, hmeets, hothers⟩ := h.next hwords hnewline
    refine hmeets.not_pair ?_ hothers hname hseparator hother hlast
    rw [Before.passToken, if_neg (by simpa using hcomment)]
    simpa using hprevious
  | cons word front ih =>
    obtain ⟨hword, hkept⟩ := List.forall_mem_cons.mp hkept
    obtain ⟨before', text', lexeme, others, -, -, -, -, hmeets, hothers⟩ := h.next hwords hword.1
    exact ih hmeets hothers hkept

end PipelineLang
