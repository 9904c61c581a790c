import PipelineLang.Proofs.Literal.Decoding
import PipelineLang.Proofs.Literal.Longest
import PipelineLang.Proofs.Token.Paths

/-!
# Words that recur

The text of a word is read again as the same token where an operand may stand, with whatever
may stand behind an expression behind it.

## Main definitions

- `Before.Operand` — what may stand before an operand
- `Word.Recurs` — a word that is read again as it is
- `BehindWord` — what may stand right behind a name or a reserved word

## Main results

- `Lexeme.recurs_of_recognized` — a literal that has been read is read again
- `Lexeme.recognizeWith_word` — a name or a reserved word
- `Lexeme.recognizeWith_path` — a word of a path
-/

namespace PipelineLang

open Address

/-- What stands before an operand: no name, and nothing that opens a statement. -/
structure Before.Operand (before : Before) : Prop where
  name : before.previous ≠ some .identifier
  opener : before.previous.all Lexeme.statementOpeners.contains = false

/-- A word that is read again as it is, wherever an operand may stand. -/
def Word.Recurs (word : Word) : Prop :=
  ∀ replacement (before : Before) (rest : List Char), before.Operand → Halts rest →
    Lexeme.recognizeWith replacement before (word.2.toList ++ rest) =
      .ok ⟨word.1, word.2.toList.length⟩

variable {replacement : Option TokenKind → List Char → Except LexicalFault Replacement}
  {before : Before} {text rest word : List Char} {lexeme : Lexeme}

/-! ### Names and reserved words -/

/-- What may stand right behind a name or a reserved word: no letter or digit, no quote or
fence, and no colon that an address goes on behind. -/
structure BehindWord (rest : List Char) : Prop where
  endsWord : EndsWord rest
  quote : ∀ c ∈ rest.head?, c ∉ ['\x22', '\x27', '#']
  colon : ∀ c tail, rest = ':' :: c :: tail → c ≠ ':' ∧ Ascii.isHexDigit c = false

theorem Halts.behindWord (h : Halts rest) : BehindWord rest := by
  refine ⟨h.head (by decide), h.not_mem (by decide), ?_⟩
  rintro c tail rfl
  exact absurd (h.1 ':' rfl) (by decide)

theorem behindWord_cons {c : Char} (tail : List Char)
    (hc : Ascii.isWordChar c = false ∧ c ∉ ['\x22', '\x27', '#', ':']) :
    BehindWord (c :: tail) := by
  refine ⟨?_, ?_, ?_⟩
  · rintro _ ⟨⟩
    exact hc.1
  · rintro _ ⟨⟩
    exact fun hmem => hc.2 (by simp only [List.mem_cons] at hmem ⊢; tauto)
  · rintro d tail' heq
    exact absurd (by simp [(List.cons.inj heq).1]) hc.2

namespace Lexeme

theorem opensRaw_eq_false (h : ∀ c ∈ text.head?, c ≠ '\x22' ∧ c ≠ '#') : opensRaw text = false := by
  cases text with
  | nil => rfl
  | cons c text =>
    obtain ⟨hquote, hfence⟩ := h c rfl
    have hcount : fenceCount (c :: text) = 0 := by
      rw [fenceCount, List.takeWhile_cons_of_neg (by simpa [fence] using hfence)]
      rfl
    rw [opensRaw, hcount]
    simpa using hquote

/-- A word that is read as a whole is no string and no variable. -/
theorem recognizeWith_ofWord (h : IsWord word) (hend : EndsWord rest)
    (hquote : ∀ c ∈ rest.head?, c ∉ ['\x22', '\x27', '#']) :
    recognizeWith replacement before (word ++ rest) = .ok (ofWord before (word ++ rest)) := by
  obtain ⟨c, tail, rfl, hc⟩ := h.start
  have hne : ∀ d, Ascii.isWordStart d = false → c ≠ d := by
    rintro d hd rfl
    rw [hc] at hd
    simp at hd
  -- What is behind the first character is a character of a word, or what is behind the word.
  have hhead : ∀ d ∈ (tail ++ rest).head?, d ∉ ['\x22', '\x27', '#'] := by
    cases tail with
    | nil => exact hquote
    | cons d tail =>
      rintro _ ⟨⟩
      have hchars : ∀ d ∈ ['\x22', '\x27', '#'], Ascii.isWordChar d = false := by
        simp only [List.forall_mem_cons, List.not_mem_nil, false_imp_iff, implies_true, and_true]
        decide
      exact fun hmem => h.not_mem (hchars d hmem) (by simp)
  have hopens : opensRaw (tail ++ rest) = false := by
    refine opensRaw_eq_false fun d hd => ?_
    have := hhead d hd
    simp only [List.mem_cons, List.not_mem_nil, or_false, not_or] at this
    exact ⟨this.1, this.2.2⟩
  have hopens' : (tail ++ rest).head? = some 'r' → opensRaw ((tail ++ rest).drop 1) = false := by
    intro hr
    refine opensRaw_eq_false fun d hd => ?_
    cases tail with
    | nil =>
      have := hend 'r' hr
      exact absurd this (by decide)
    | cons e tail =>
      cases tail with
      | nil =>
        have := hquote d (by simpa using hd)
        simp only [List.mem_cons, List.not_mem_nil, or_false, not_or] at this
        exact ⟨this.1, this.2.2⟩
      | cons f tail =>
        obtain rfl : f = d := by simpa using hd
        refine ⟨?_, ?_⟩
        · rintro rfl
          exact h.not_mem (c := '\x22') (by decide) (by simp)
        · rintro rfl
          exact h.not_mem (c := '#') (by decide) (by simp)
  have hquotes : ((tail ++ rest).head? == some '\x22') = false ∧
      ((tail ++ rest).head? == some '\x27') = false := by
    refine ⟨beq_eq_false_iff_ne.mpr fun heq => ?_, beq_eq_false_iff_ne.mpr fun heq => ?_⟩
    · exact hhead _ heq (by simp)
    · exact hhead _ heq (by simp)
  have hopen : IsOpen c (tail ++ rest) :=
    ⟨hne _ (by decide), ⟨hne _ (by decide), hne _ (by decide)⟩,
      fun h => absurd h (hne _ (by decide))⟩
  have hraw : ((tail ++ rest).head? == some 'r' && opensRaw ((tail ++ rest).drop 1)) = false := by
    by_cases hr : (tail ++ rest).head? = some 'r'
    · rw [hopens' hr, Bool.and_false]
    · rw [beq_eq_false_iff_ne.mpr hr, Bool.false_and]
  rw [List.cons_append, recognizeWith_open hopen, recognizeOpen]
  simp only [hquotes, hraw, hopens, Bool.or_self, Bool.and_false, Bool.false_eq_true, if_false,
    if_neg (hne '$' (by decide)), Ascii.isDigit_of_isWordStart hc, if_neg (hne ':' (by decide)),
    if_pos hc]

/-- A word that is no part of an address is a reserved word or a name. -/
theorem ofWord_of_none (h : IsWord word) (hend : EndsWord rest)
    (hnone : address? before (word ++ rest) = none) :
    ofWord before (word ++ rest) =
      ⟨(TokenKind.keyword? (String.ofList word)).getD .identifier, word.length⟩ := by
  have hlength : Ascii.wordLength (word ++ rest) = word.length := by
    rw [Ascii.wordLength, h.takeWhile_append hend]
  rw [ofWord, hnone]
  dsimp only
  rw [hlength, List.take_left]

theorem isWord_of_keyword? {word : String} {kind : TokenKind}
    (h : TokenKind.keyword? word = some kind) : IsWord word.toList := by
  obtain ⟨front, back, hkeywords, -⟩ := List.lookup_eq_some_iff.mp h
  have hwords : ∀ entry ∈ TokenKind.keywords, entry.1.toList.head?.any Ascii.isWordStart ∧
      entry.1.toList.all Ascii.isWordChar := by decide
  obtain ⟨hstart, hchars⟩ := hwords (word, kind) (by rw [hkeywords]; simp)
  refine ⟨?_, List.all_eq_true.mp hchars⟩
  cases hword : word.toList with
  | nil => simp [hword] at hstart
  | cons c tail => exact ⟨c, tail, rfl, by simpa [hword] using hstart⟩

/-- A word is read as a reserved word or as a name. -/
theorem recognizeWith_word (h : IsWord word) (hrest : BehindWord rest) :
    recognizeWith replacement before (word ++ rest) =
      .ok ⟨(TokenKind.keyword? (String.ofList word)).getD .identifier, word.length⟩ := by
  have hnone : address? before (word ++ rest) = none := by
    rw [address?, groupsMatcher_word h hrest.endsWord hrest.colon]
    rfl
  rw [recognizeWith_ofWord h hrest.endsWord hrest.quote, ofWord_of_none h hrest.endsWord hnone]

/-! ### Paths -/

/-- Two colons go on with a path, or they start an address or a subnet. -/
theorem ofColon_colon (before : Before) (text : List Char) :
    ∃ n, ofColon before (':' :: ':' :: text) =
      if continuesPath before (':' :: ':' :: text) n then ⟨.moduleSep, 2⟩
      else addressOr (':' :: ':' :: text) (2 + (moreGroups 8 true true text).getD 0) := by
  refine ⟨_, (if_neg (by simp)).trans (if_congr Iff.rfl rfl ?_)⟩
  rw [addressOr, groupsMatcher, Option.getD_some]
  cases subnetMatcher (':' :: ':' :: text) with
  | none => exact if_neg (Nat.not_lt_zero _)
  | some n => rfl

/-- A word that `::` and another word are behind is no address, unless the two are a pair, and
not if the path names an operator. -/
theorem address?_path {first second : List Char} (hfirst : IsWord first) (hsecond : IsWord second)
    (hrest : GoesOn rest) (hpair : IsPair first second → namesOperator before rest) :
    address? before (first ++ ':' :: ':' :: (second ++ rest)) = none := by
  rw [Option.eq_none_iff_forall_not_mem]
  intro lexeme hlexeme
  obtain ⟨ip, hip, hmarks, hbehind, hpath, haddress⟩ := address?_eq_some.mp hlexeme
  by_cases hgroup : IsGroup first
  swap
  · rw [(groupsMatcher_gap hfirst).2 hgroup] at hip
    simp at hip
  rw [(groupsMatcher_gap hfirst).1 hgroup, Option.some.injEq] at hip
  -- What is behind the address is a part of the second word, or what is behind that.
  have hplace : ∃ k, ip = first.length + 2 + k ∧ k ≤ second.length ∧
      (k = second.length → IsGroup second) := by
    by_cases hgroup' : IsGroup second
    · rw [moreGroups_second hsecond hrest.endsWord hgroup' hrest.colons, Option.getD_some] at hip
      exact ⟨second.length, hip.symm, Nat.le_refl _, fun _ => hgroup'⟩
    · cases hmore : moreGroups 7 true true (second ++ rest) with
      | none =>
        rw [hmore, Option.getD_none] at hip
        exact ⟨0, hip.symm, Nat.zero_le _, fun hzero => absurd hzero.symm
          (Nat.ne_of_gt hsecond.length_pos)⟩
      | some k =>
        rw [hmore, Option.getD_some] at hip
        have hlt := (moreGroups_of_not_group hsecond hrest.endsWord hgroup' k hmore).2
        exact ⟨k, hip.symm, Nat.le_of_lt hlt, fun heq => absurd heq (Nat.ne_of_lt hlt)⟩
  obtain ⟨k, hk, hle, hwhole⟩ := hplace
  have hdrop : (first ++ ':' :: ':' :: (second ++ rest)).drop ip = second.drop k ++ rest := by
    rw [hk, Nat.add_assoc, ← List.drop_drop, List.drop_left, Nat.add_comm 2,
      List.drop_succ_cons, List.drop_succ_cons, List.drop_append_of_le_length hle]
  have hsubnet : subnetMatcher (first ++ ':' :: ':' :: (second ++ rest)) = none := by
    refine subnetMatcher_eq_none hfirst fun ip' tail hip' hslash => ?_
    rw [(groupsMatcher_gap hfirst).1 hgroup, Option.some.injEq, hip] at hip'
    rw [← hip', hdrop] at hslash
    -- Within the second word there is no slash.
    cases htail : second.drop k with
    | nil =>
      rw [htail] at hslash
      exact hrest.slash tail hslash
    | cons c more =>
      rw [htail] at hslash
      obtain rfl := (List.cons.inj hslash).1
      exact absurd (List.mem_of_mem_drop (htail ▸ List.mem_cons_self))
        (hsecond.not_mem (by decide))
  rw [addressOr, hsubnet] at haddress
  subst haddress
  dsimp only at hbehind hpath
  rw [hdrop] at hbehind hpath
  obtain rfl | hlt := Nat.eq_or_lt_of_le hle
  · have htake : (first ++ ':' :: ':' :: (second ++ rest)).take ip =
        first ++ ':' :: ':' :: second := by
      rw [hk, show first ++ ':' :: ':' :: (second ++ rest) =
        (first ++ ':' :: ':' :: second) ++ rest by simp]
      exact List.take_left' (by simp; omega)
    have hcolons : ':' ∉ first := hfirst.not_mem (by decide)
    rw [htake, takeWhile_path hcolons, hasSingleColon_path hcolons (hsecond.not_mem (by decide)),
      Bool.or_false] at hmarks
    rw [htake, List.drop_length, List.nil_append] at hpath
    exact hpath ⟨rfl, isPathShaped_path hfirst hsecond, hpair ⟨hgroup, hwhole rfl, hmarks⟩⟩
  · rw [List.drop_eq_getElem_cons hlt, List.cons_append, List.head?_cons, Option.any_some,
      hsecond.chars _ (List.getElem_mem hlt)] at hbehind
    simp at hbehind

/-- A word of a path is read as one. -/
theorem recognizeWith_path {first second : List Char} (hfirst : IsWord first)
    (hsecond : IsWord second) (hrest : GoesOn rest)
    (hpair : IsPair first second → namesOperator before rest) :
    recognizeWith replacement before (first ++ ':' :: ':' :: (second ++ rest)) =
      .ok ⟨(TokenKind.keyword? (String.ofList first)).getD .identifier, first.length⟩ := by
  have hend : EndsWord (':' :: ':' :: (second ++ rest)) := by
    rintro _ ⟨⟩
    decide
  rw [recognizeWith_ofWord hfirst hend (by rintro _ ⟨⟩; decide),
    ofWord_of_none hfirst hend (address?_path hfirst hsecond hrest hpair)]

/-- Two words that are a pair are read as an address, where the path names no operator. -/
theorem recognizeWith_pair {first second : List Char} (hfirst : IsWord first)
    (hsecond : IsWord second) (hpair : IsPair first second) (hrest : GoesOn rest)
    (hnames : namesOperator before rest = false) :
    recognizeWith replacement before (first ++ ':' :: ':' :: second ++ rest) =
      .ok ⟨.ip, (first ++ ':' :: ':' :: second).length⟩ := by
  rw [List.append_assoc, List.cons_append, List.cons_append]
  rw [recognizeWith_ofWord hfirst (by rintro _ ⟨⟩; decide) (by rintro _ ⟨⟩; decide), ofWord,
    address?_pair hfirst hsecond hpair hrest hnames]

/-- Two colons right behind a name go on with a path. -/
theorem recognizeWith_separator (hprevious : before.previous = some .identifier)
    (hlast : before.last.any Ascii.isWordChar = true) :
    recognizeWith replacement before (':' :: ':' :: text) = .ok ⟨.moduleSep, 2⟩ := by
  obtain ⟨n, hcolon⟩ := ofColon_colon before text
  rw [recognizeWith_open ⟨by decide, by decide, fun h => absurd h (by decide)⟩]
  show Except.ok (ofColon before _) = _
  rw [hcolon, continuesPath, hprevious, hlast]
  rfl

/-! ### Literals -/

theorem fenceCount_fences (count : Nat) (tail : List Char) :
    fenceCount (List.replicate count '#' ++ '\x22' :: tail) = count := by
  have hall : ∀ c ∈ List.replicate count '#', (c == fence) = true := fun c hc => by
    rw [List.eq_of_mem_replicate hc]
    rfl
  rw [fenceCount, List.takeWhile_append_of_pos hall, List.takeWhile_cons_of_neg (by decide),
    List.append_nil, List.length_replicate]

theorem opensRaw_fences (count : Nat) (tail : List Char) :
    opensRaw (List.replicate count '#' ++ '\x22' :: tail) = true := by
  rw [opensRaw, fenceCount_fences, List.drop_left' (List.length_replicate)]
  rfl

/-- A string is read again, whatever is around it. -/
theorem RecognizedString.recurs {back : List Char} {kind : TokenKind}
    (h : RecognizedString before (word ++ back) ⟨kind, word.length⟩) (before' : Before)
    (rest : List Char) :
    recognizeWith replacement before' (word ++ rest) = .ok ⟨kind, word.length⟩ := by
  cases h with
  | @plain lead hmarks hquote h =>
    obtain ⟨quote, middle, hhead, htake⟩ := take_of_ofQuoted h
    have hread : ofQuoted before' lead (word ++ rest) = .ok ⟨kind, word.length⟩ :=
      ofQuoted_within h (Nat.le_refl _)
    have hlead : ((word ++ back).take lead).length = lead := by
      rw [List.length_take, Nat.min_eq_left]
      by_contra hlt
      rw [List.drop_of_length_le (by omega)] at hhead
      simp at hhead
    rw [List.take_left] at htake
    rw [hhead, Option.some.injEq, Option.some.injEq] at hquote
    obtain hmarks | hmarks := hmarks
    · rw [hmarks] at hlead htake
      obtain rfl : 0 = lead := hlead
      rw [htake, List.nil_append, List.cons_append] at hread ⊢
      obtain rfl | rfl := hquote <;> exact hread
    · rw [hmarks] at hlead htake
      obtain rfl : 1 = lead := hlead
      rw [htake, List.singleton_append, List.cons_append, List.cons_append] at hread ⊢
      rw [recognizeWith_open ⟨by decide, by decide, fun h => absurd h (by decide)⟩, recognizeOpen,
        if_pos (by obtain rfl | rfl := hquote <;> rfl)]
      exact hread
  | @raw lead hmarks hopens h =>
    obtain ⟨count, middle, htake⟩ := take_of_ofRaw h hopens
    have hread : ofRaw before' lead (word ++ rest) = .ok ⟨kind, word.length⟩ :=
      ofRaw_within h (Nat.le_refl _)
    have hlead : ((word ++ back).take lead).length = lead := by
      rw [List.length_take, Nat.min_eq_left]
      by_contra hlt
      rw [List.drop_of_length_le (by omega)] at hopens
      simp [opensRaw] at hopens
    rw [List.take_left] at htake
    have hagain : ∀ tail, opensRaw ((List.replicate count '#' ++ ['\x22']) ++
        (middle ++ ('\x22' :: List.replicate count '#')) ++ tail) = true := by
      intro tail
      rw [List.append_assoc, List.append_assoc]
      exact opensRaw_fences count _
    obtain hmarks | hmarks := hmarks
    · rw [hmarks] at hlead htake
      obtain rfl : 1 = lead := hlead
      rw [htake, List.singleton_append, List.cons_append] at hread ⊢
      rw [recognizeWith_open ⟨by decide, by decide, fun h => absurd h (by decide)⟩, recognizeOpen]
      simp only [hagain, hread]
      rfl
    · rw [hmarks] at hlead htake
      obtain rfl : 2 = lead := hlead
      rw [htake, List.cons_append, List.cons_append, List.singleton_append, List.cons_append]
        at hread ⊢
      rw [recognizeWith_open ⟨by decide, by decide, fun h => absurd h (by decide)⟩, recognizeOpen]
      simp only [List.head?_cons, List.drop_succ_cons, List.drop_zero, hagain, hread]
      rfl

/-- Where a digit is, some literal is found. -/
theorem literal?_of_isDigit {c : Char} (hc : c.isDigit) (rest : List Char) :
    literal? (c :: rest) = some (ofDigit (c :: rest)) := by
  obtain ⟨n, hn, -⟩ := Number.matcher_of_isDigit hc rest
  cases h : literal? (c :: rest) with
  | some lexeme => rw [ofDigit, h, Option.getD_some]
  | none =>
    rw [literal?_eq_longest] at h
    simp only [longest, literals, List.foldl_cons, List.foldl_nil, hn, Option.map_some] at h
    have hnumber := (longer_none (longer_none h).1).2
    simp at hnumber

/-- Where a digit is, a literal is read. -/
theorem recognizeWith_of_isDigit {c : Char} (hc : c.isDigit) (before : Before)
    (rest : List Char) :
    recognizeWith replacement before (c :: rest) = .ok (ofDigit (c :: rest)) := by
  have hne : ∀ d, d.isDigit = false → c ≠ d := by
    rintro d hd rfl
    rw [hc] at hd
    simp at hd
  rw [recognizeWith_open ⟨hne _ (by decide), ⟨hne _ (by decide), hne _ (by decide)⟩,
    fun h => absurd h (hne _ (by decide))⟩, recognizeOpen]
  simp only [hne 'b' (by decide), hne 'r' (by decide), hne 'f' (by decide), hne '$' (by decide),
    hc, decide_false, Bool.false_and, Bool.false_eq_true, if_false, if_true]

/-- A literal that starts with a digit is read again. -/
theorem recurs_ofDigit {c : Char} {tail back : List Char} {kind : TokenKind} (hc : c.isDigit)
    (h : ofDigit (c :: tail ++ back) = ⟨kind, (c :: tail).length⟩) :
    Word.Recurs (kind, String.ofList (c :: tail)) := by
  intro replacement before rest _ hrest
  have hread : ofDigit (c :: tail) = ⟨kind, (c :: tail).length⟩ := by
    have hliteral := literal?_of_isDigit hc (tail ++ back)
    rw [← List.cons_append, h] at hliteral
    rw [ofDigit, literal?_exact hliteral, Option.getD_some]
  rw [String.toList_ofList, List.cons_append, recognizeWith_of_isDigit hc]
  rw [← List.cons_append, ofDigit_append hrest.stops, hread]

/-- An address that a subnet goes on behind is the same one where the text ends behind the
subnet, since no address goes on with a slash. -/
theorem groupsMatcher_of_subnet {back : List Char} {ip : Nat}
    (hip : groupsMatcher (word ++ back) = some ip) (hquad : quadMatcher (word ++ back) = none)
    (hsubnet : subnetMatcher (word ++ back) = some word.length) (hlt : ip < word.length) :
    groupsMatcher word = some ip := by
  have hnone : quadMatcher.followedBy (lengthMatcher 2) (word ++ back) = none := by
    rw [Matcher.followedBy, hquad]
    rfl
  obtain ⟨hmatch, -⟩ | ⟨hmatch, -⟩ := Matcher.longer_eq_some.mp hsubnet
  · rw [hnone] at hmatch
    simp at hmatch
  obtain ⟨ip', k, hip', hk, -⟩ := Matcher.followedBy_eq_some.mp hmatch
  obtain rfl : ip = ip' := Option.some.inj (hip.symm.trans hip')
  obtain ⟨one, j, hone, -, -⟩ := Matcher.followedBy_eq_some.mp hk
  obtain ⟨c, tail, hdrop, hslash, -⟩ := Matcher.char_eq_some.mp hone
  obtain rfl := beq_iff_eq.mp hslash
  rw [List.drop_append_of_le_length (Nat.le_of_lt hlt)] at hdrop
  have hends : ∀ behind : List Char, Ends (word.drop ip ++ behind) := by
    intro behind
    rw [List.drop_eq_getElem_cons hlt, List.cons_append] at hdrop ⊢
    rw [(List.cons.inj hdrop).1]
    exact ⟨by rintro _ ⟨⟩; decide, by simp⟩
  have hsplit : ∀ behind : List Char,
      groupsMatcher (word ++ behind) = groupsMatcher (word.take ip) := by
    intro behind
    conv_lhs => rw [← List.take_append_drop ip word, List.append_assoc]
    exact deaf_groupsMatcher (hends behind) _
  rw [← List.append_nil word, hsplit, ← hsplit back, hip]

/-- An address or a subnet is the same one where the text ends behind it. -/
theorem addressOr_exact {back : List Char} {kind : TokenKind} {ip : Nat}
    (hip : groupsMatcher (word ++ back) = some ip) (hquad : quadMatcher (word ++ back) = none)
    (h : addressOr (word ++ back) ip = ⟨kind, word.length⟩) :
    groupsMatcher word = some ip ∧ addressOr word ip = ⟨kind, word.length⟩ := by
  -- Without a longer subnet the address takes all of the text.
  have halone : (⟨.ip, ip⟩ : Lexeme) = ⟨kind, word.length⟩ →
      groupsMatcher word = some ip ∧ addressOr word ip = ⟨kind, word.length⟩ := by
    intro hlexeme
    obtain ⟨rfl, rfl⟩ := Lexeme.mk.inj hlexeme
    refine ⟨exact_groupsMatcher hip, ?_⟩
    rw [addressOr]
    cases hsubnet : subnetMatcher word with
    | none => rfl
    | some n => exact if_neg (Nat.not_lt.mpr (bounded_subnetMatcher hsubnet))
  rw [addressOr] at h
  cases hsubnet : subnetMatcher (word ++ back) with
  | none =>
    rw [hsubnet] at h
    exact halone h
  | some n =>
    rw [hsubnet] at h
    dsimp only at h
    split at h
    · next hlt =>
      obtain ⟨rfl, rfl⟩ := Lexeme.mk.inj h
      refine ⟨groupsMatcher_of_subnet hip hquad hsubnet hlt, ?_⟩
      rw [addressOr, exact_subnetMatcher hsubnet]
      exact if_pos hlt
    · exact halone h

/-- An address or a subnet that starts with a colon is read again. -/
theorem recurs_ofColon {tail back : List Char} {kind : TokenKind} (hkind : kind ∈ [.ip, .subnet])
    (h : ofColon before (':' :: (tail ++ back)) = ⟨kind, (':' :: tail).length⟩) :
    Word.Recurs (kind, String.ofList (':' :: tail)) := by
  obtain ⟨text, htext⟩ : ∃ text, tail ++ back = ':' :: text := by
    rw [← List.head?_eq_some_iff]
    by_contra hne
    rw [ofColon, if_pos (by simpa using hne)] at h
    obtain ⟨rfl, -⟩ := Lexeme.mk.inj h
    simp at hkind
  obtain ⟨n, hcolon⟩ := ofColon_colon before text
  have haddress : addressOr (':' :: ':' :: text) (2 + (moreGroups 8 true true text).getD 0) =
      ⟨kind, (':' :: tail).length⟩ := by
    rw [htext, hcolon] at h
    split at h
    · obtain ⟨rfl, -⟩ := Lexeme.mk.inj h
      simp at hkind
    · exact h
  have hlength := (addressOr_spec (':' :: ':' :: text) (2 + (moreGroups 8 true true text).getD 0)).1
  rw [haddress, List.length_cons] at hlength
  obtain ⟨c, tail, rfl⟩ :=
    List.exists_cons_of_length_pos (l := tail) (by dsimp only at hlength; omega)
  obtain ⟨rfl, rfl⟩ := List.cons.inj htext
  have hquad : quadMatcher (':' :: ':' :: tail ++ back) = none :=
    octet_followedBy_eq_none _ (by rintro _ ⟨⟩; decide)
  have hgroups' : groupsMatcher (':' :: ':' :: tail ++ back) =
      some (2 + (moreGroups 8 true true (tail ++ back)).getD 0) := rfl
  obtain ⟨hgroups, halone⟩ := addressOr_exact hgroups' hquad haddress
  intro replacement before' rest hbefore hrest
  rw [String.toList_ofList, List.cons_append,
    recognizeWith_open ⟨by decide, by decide, fun h => absurd h (by decide)⟩]
  show Except.ok (ofColon before' (':' :: (':' :: tail ++ rest))) = _
  obtain ⟨n, hagain⟩ := ofColon_colon before' tail
  rw [ofColon_append before'.alike_self hrest.stops, hagain, continuesPath,
    beq_eq_false_iff_ne.mpr hbefore.name, Bool.false_and, if_neg Bool.false_ne_true,
    Option.some.inj hgroups, halone]

/-- An address or a subnet that starts with a letter is read again. -/
theorem recurs_address {back : List Char} {kind : TokenKind} {c : Char} {tail : List Char}
    (hc : Ascii.isWordStart c)
    (h : address? before (c :: tail ++ back) = some ⟨kind, (c :: tail).length⟩) :
    Word.Recurs (kind, String.ofList (c :: tail)) := by
  obtain ⟨ip, hip, hmarks, -, -, haddress⟩ := address?_eq_some.mp h
  have hquad : quadMatcher (c :: tail ++ back) = none :=
    octet_followedBy_eq_none _ (by rintro _ ⟨⟩; exact Ascii.isDigit_of_isWordStart hc)
  obtain ⟨hgroups, halone⟩ := addressOr_exact hip hquad haddress
  have hle : ip ≤ (c :: tail).length := bounded_groupsMatcher hgroups
  rw [List.take_append_of_le_length hle] at hmarks
  obtain ⟨first, behind, hsplit, hfirst, -⟩ := exists_word_of_groupsMatcher hc hgroups
  intro replacement before' rest hbefore hrest
  have hagain : address? before' (c :: tail ++ rest) = some ⟨kind, (c :: tail).length⟩ := by
    refine address?_eq_some.mpr ⟨ip, ?_, ?_, ?_, ?_, ?_⟩
    · rw [deaf_groupsMatcher (ends_of_stops hrest.stops), hgroups]
    · rwa [List.take_append_of_le_length hle]
    · rw [List.drop_left]
      cases rest with
      | nil => rfl
      | cons d rest => exact hrest.head (p := Ascii.isWordChar) (by decide) d rfl
    · rintro ⟨-, -, hnames⟩
      rw [List.drop_left, namesOperator, hbefore.opener, Bool.false_and, Bool.or_false,
        beq_iff_eq] at hnames
      exact absurd (hrest.1 '(' hnames) (by decide)
    · rw [addressOr_append hrest.stops, halone]
  have hread : recognizeWith replacement before' (first ++ (':' :: behind ++ rest)) =
      .ok (ofWord before' (first ++ (':' :: behind ++ rest))) :=
    recognizeWith_ofWord hfirst (by rintro _ ⟨⟩; decide) (by rintro _ ⟨⟩; decide)
  rw [← List.append_assoc, ← hsplit, ofWord, hagain] at hread
  rw [String.toList_ofList]
  exact hread

/-- A reserved word is read again as it is. -/
theorem recurs_keyword {kind : TokenKind} {spelling : String}
    (h : TokenKind.keyword? spelling = some kind) : Word.Recurs (kind, spelling) := by
  intro replacement before' rest _ hrest
  have hread : recognizeWith replacement before' _ = .ok _ :=
    recognizeWith_word (isWord_of_keyword? h) hrest.behindWord
  rw [String.ofList_toList, h] at hread
  exact hread

/-- A word that is neither an address nor a name is reserved. -/
theorem exists_spelling_ofWord (hnone : address? before text = none)
    (hkind : (ofWord before text).kind ≠ .identifier) :
    ∃ spelling, (ofWord before text).kind.spelling? = some spelling := by
  rw [ofWord, hnone] at hkind ⊢
  dsimp only at hkind ⊢
  cases hkeyword : TokenKind.keyword? (String.ofList (text.take (Ascii.wordLength text))) with
  | none => simp [hkeyword] at hkind
  | some found => exact ⟨_, spelling_of_keyword? hkeyword⟩

/-- A literal is read again as it is. -/
theorem recurs_of_recognized {back : List Char} {kind : TokenKind}
    (h : recognizeWith replacement before (word ++ back) = .ok ⟨kind, word.length⟩)
    (hliteral : kind.isLiteral) (hformat : kind ≠ .formatString) :
    Word.Recurs (kind, String.ofList word) := by
  by_cases hstring : kind = .string
  · intro replacement before' rest _ _
    rw [String.toList_ofList]
    exact (recognizedString_of_ok h hstring).recurs before' rest
  have hrecognized := recognized_of_ok h
  by_cases hspelled : ∃ spelling, kind.spelling? = some spelling
  · obtain ⟨spelling, hspelling⟩ := hspelled
    have hword := hrecognized.spelling hspelling
    rw [List.take_left] at hword
    have hkeyword : TokenKind.keyword? spelling = some kind := by
      cases kind <;> simp_all [TokenKind.isLiteral, TokenKind.spelling?] <;> subst hspelling <;> rfl
    rw [hword, String.ofList_toList]
    exact recurs_keyword hkeyword
  obtain ⟨c, tail, rfl⟩ := List.exists_cons_of_length_pos
    (hrecognized.length_pos (by rintro rfl; simp [TokenKind.isLiteral] at hliteral)).2
  rw [List.cons_append] at hrecognized
  generalize htext : c :: (tail ++ back) = text at hrecognized
  generalize hlexeme : (⟨kind, (c :: tail).length⟩ : Lexeme) = lexeme at hrecognized
  have hkind : kind = lexeme.kind := by rw [← hlexeme]
  cases hrecognized with
  | eof | newline | lineComment | format | dollar =>
    rw [hkind] at hliteral hformat
    simp [ofLineComment, TokenKind.isLiteral] at hliteral hformat
  | blockComment hblock =>
    rw [hkind, (ofBlockComment_delimited _ _ _ hblock).1] at hliteral
    simp [TokenKind.isLiteral] at hliteral
  | quoted hquoted => exact absurd (hkind.trans (ofQuoted_delimited _ _ _ _ hquoted).1) hstring
  | raw hraw => exact absurd (hkind.trans (ofRaw_delimited _ _ _ _ hraw).1) hstring
  | @digit d rest hdigit =>
    obtain ⟨rfl, rfl⟩ := List.cons.inj htext
    exact recurs_ofDigit hdigit hlexeme.symm
  | @colon rest =>
    obtain ⟨rfl, rfl⟩ := List.cons.inj htext
    have hmem := (ofColon_spec before (tail ++ back)).2
    rw [← hkind] at hmem
    refine recurs_ofColon ?_ hlexeme.symm
    simp only [List.mem_cons, List.not_mem_nil, or_false] at hmem ⊢
    obtain rfl | rfl | rfl | rfl := hmem
    · simp [TokenKind.isLiteral] at hliteral
    · simp [TokenKind.isLiteral] at hliteral
    · exact .inr rfl
    · exact .inl rfl
  | @word d rest hstart =>
    obtain ⟨rfl, rfl⟩ := List.cons.inj htext
    cases haddress : address? before (c :: (tail ++ back)) with
    | some found =>
      rw [ofWord, haddress] at hlexeme
      dsimp only at hlexeme
      rw [← hlexeme] at haddress
      exact recurs_address hstart haddress
    | none =>
      refine absurd (hkind ▸ exists_spelling_ofWord haddress fun hname => ?_) hspelled
      rw [hkind, hname] at hliteral
      cases hliteral
  | punctuation hpunctuation =>
    have hkinds : ∀ entry ∈ punctuation, entry.2.isLiteral = false := by decide
    rw [hkind, hkinds _ (ofPunctuation?_spec hpunctuation).1] at hliteral
    simp at hliteral

end Lexeme

end PipelineLang
