import PipelineLang.Proofs.Token.Parting
import PipelineLang.Proofs.Token.Running

/-!
# Comments

A comment parts the tokens around it as a space does. There are two exceptions. A line that is a
delimiter line without its comment opens frontmatter, since it has to be nothing but that. And a
path that would be an address in other places is a pattern before an arrow or a comma, but not if
a comment stands between them.

## Main definitions

- `Token.blanked` — a source with a space in the place of a token
- `Token.HidesDelimiter`, `Token.HidesPattern` — the exceptions
- `Scanner.AtComment` — a comment, and the scanners before and behind it

## Main results

- `Scanner.Abreast.reads_comment` — behind a comment the same is read as behind a space
- `tokenize_blanked` — a source has the same tokens with a space in the place of a comment
- `not_hides_of_words_eq` — and there are no more exceptions than it takes
-/

namespace PipelineLang

variable {front back back' : List Char}

theorem swap_comment {back : List Char} (rest : List Char)
    (h : ['/', '/'] <+: back ∨ ['/', '*'] <+: back) : Swap back (' ' :: rest) := by
  obtain ⟨c, tail, rfl, hc⟩ : ∃ c tail, back = '/' :: c :: tail ∧ c.isDigit = false := by
    obtain ⟨tail, rfl⟩ | ⟨tail, rfl⟩ := h
    · exact ⟨'/', tail, rfl, by decide⟩
    · exact ⟨'*', tail, rfl, by decide⟩
  refine ⟨fun before text => ⟨?_, ?_, fun _ _ => rfl⟩, ?_, by simp, fun line hle => ?_, by simp⟩
  · rintro _ ⟨⟩
    decide
  · rintro _ ⟨⟩ _ ⟨⟩
    exact hc
  · rintro _ ⟨⟩
    decide
  · exact Lexeme.ofLineComment_within (by decide) hle

theorem Gap.length_blank {c : Char} (hc : Ascii.isBlank c) (text : List Char) :
    length (c :: text) = 1 + length text := by
  rw [length, lengthFrom, if_pos hc]
  rfl

namespace Scanner

variable {one other behind : Scanner} {token : Token} {tokens : List Token}

/-- What is read does not depend on how much of a gap has been passed. -/
theorem read_pass {n : Nat} (hphase : one.phase ≠ .frontmatter)
    (hgap : Gap.length one.cursor.rest = n + Gap.length (one.cursor.rest.drop n)) :
    (one.pass n).read = one.read := by
  have hpass : (one.pass n).passGap = one.passGap := by
    rw [passGap, passGap, rest_pass, hgap]
    simp only [pass, Cursor.advanceBy_add]
  simp only [read, if_neg hphase, hpass]
  rw [if_neg (show (one.pass n).phase ≠ .frontmatter from hphase)]

theorem Reads.of_read_eq (h : one.Reads tokens) (hread : other.read = one.read) :
    other.Reads tokens := by
  cases h with
  | last h hkind => exact .last (hread.trans h) hkind
  | more h hkind htokens => exact .more (hread.trans h) hkind htokens

theorem read_newline {tail : List Char} (hphase : one.phase ≠ .frontmatter)
    (hrest : one.cursor.rest = '\n' :: tail) :
    one.read = (.ok (one.tokenOf .newline 1), one.passLexeme ⟨.newline, 1⟩) := by
  have hgap : one.passGap = one := by
    rw [passGap, hrest, Gap.length_of_head (by decide)]
    rfl
  have hlexeme : Lexeme.recognize one.before one.cursor.rest = .ok ⟨.newline, 1⟩ := by
    rw [hrest]
    rfl
  have hopening : one.opening? = none := opening?_of_head (by simp [hrest])
  rw [read_of_opening? hphase (by rwa [hgap]), hgap, readProgram_of_lexeme hlexeme (by simp)]

theorem read_nil (hphase : one.phase ≠ .frontmatter) (hrest : one.cursor.rest = []) :
    one.read = (.ok (one.passGap.tokenOf .eof 0), one.passGap) := by
  have hend : one.passGap.cursor.rest = [] := by rw [rest_passGap, hrest, List.drop_nil]
  rw [read_of_opening? hphase (opening?_of_head (by simp [hend])), readProgram_of_nil hend]

/-- Two scanners at the same text, with the same before it as far as it matters, except for the
last character. -/
structure Beside (one other : Scanner) : Prop where
  rest : other.cursor.rest = one.cursor.rest
  phase : other.phase = one.phase
  outside : one.phase ≠ .frontmatter
  before : Before.Alike ⟨one.previous, none⟩ ⟨other.previous, none⟩

namespace Beside

variable (h : Beside one other)

include h

theorem outside' : other.phase ≠ .frontmatter := h.phase ▸ h.outside

theorem pass (n : Nat) : Beside (one.pass n) (other.pass n) :=
  ⟨by rw [rest_pass, rest_pass, h.rest], h.phase, h.outside, h.before⟩

/-- They are abreast if neither the same word nor the same line goes on for one of them only. -/
theorem abreast {c d : Char} (hc : one.cursor.last = some c) (hd : other.cursor.last = some d)
    (hword : Ascii.isWordChar c = Ascii.isWordChar d) (hline : (c == '\n') = (d == '\n')) :
    Abreast one.cursor.rest [] [] one other := by
  refine ⟨(List.append_nil _).symm, by rw [h.rest, List.append_nil], h.phase, ?_, ?_⟩
  · exact ⟨h.before.names, h.before.opens, by simp [Scanner.before, hc, hd, hword]⟩
  · simpa [Cursor.atLineStart, hc, hd] using hline

theorem reads_nil (hend : one.cursor.rest = []) (hreads : one.Reads tokens) :
    ∃ tokens', other.Reads tokens' ∧ tokens'.map Token.word = tokens.map Token.word := by
  refine ⟨_, .last (read_nil h.outside' (h.rest.trans hend)) rfl, ?_⟩
  have hread := read_nil h.outside hend
  cases hreads with
  | last h =>
    obtain rfl := Except.ok.inj (Prod.mk.inj (hread.symm.trans h)).1
    rfl
  | more h hkind =>
    obtain rfl := Except.ok.inj (Prod.mk.inj (hread.symm.trans h)).1
    exact absurd rfl hkind

theorem reads_newline {tail : List Char} (hline : one.cursor.rest = '\n' :: tail)
    (hreads : one.Reads tokens) :
    ∃ tokens', other.Reads tokens' ∧ tokens'.map Token.word = tokens.map Token.word := by
  have hline' := h.rest.trans hline
  have hlast : ∀ {here : Scanner}, here.cursor.rest = '\n' :: tail →
      (here.pass 1).cursor.last = some '\n' := by
    intro here hhere
    rw [Scanner.pass, Cursor.last_advanceBy Nat.one_pos (by simp [hhere]), hhere]
    rfl
  obtain ⟨others, rfl, hothers⟩ :=
    (reads_iff_of_read (read_newline h.outside hline) (by simp [tokenOf])).mp hreads
  have hbehind : Beside (one.passLexeme ⟨.newline, 1⟩) (other.passLexeme ⟨.newline, 1⟩) :=
    ⟨(h.pass 1).rest, h.phase, h.outside, Before.alike_self _⟩
  obtain ⟨others', hothers', hwords⟩ :=
    (hbehind.abreast (hlast hline) (hlast hline') rfl rfl).reads hothers
  refine ⟨_, .more (read_newline h.outside' hline') (by simp [tokenOf]) hothers', ?_⟩
  rw [List.map_cons, List.map_cons, hwords]
  simp [Token.word, tokenOf, h.rest]

theorem reads_return {tail : List Char} (hline : one.cursor.rest = '\r' :: tail)
    (hreads : one.Reads tokens) :
    ∃ tokens', other.Reads tokens' ∧ tokens'.map Token.word = tokens.map Token.word := by
  have hline' := h.rest.trans hline
  have hlast : ∀ {here : Scanner}, here.cursor.rest = '\r' :: tail →
      (here.pass 1).cursor.last = some '\r' := by
    intro here hhere
    rw [Scanner.pass, Cursor.last_advanceBy Nat.one_pos (by simp [hhere]), hhere]
    rfl
  have hread : ∀ {here : Scanner}, here.phase ≠ .frontmatter → here.cursor.rest = '\r' :: tail →
      (here.pass 1).read = here.read := by
    intro here hout hhere
    refine read_pass hout ?_
    rw [hhere]
    exact Gap.length_blank (by decide) tail
  obtain ⟨tokens', hreads', hwords⟩ :=
    ((h.pass 1).abreast (hlast hline) (hlast hline') rfl rfl).reads
      (hreads.of_read_eq (hread h.outside hline))
  exact ⟨tokens', hreads'.of_read_eq (hread h.outside' hline').symm, hwords⟩

/-- At the end of a line it does not matter which character is before it. -/
theorem reads_lineEnd (hhead : ∀ c ∈ one.cursor.rest.head?, c = '\n' ∨ c = '\r')
    (hreads : one.Reads tokens) :
    ∃ tokens', other.Reads tokens' ∧ tokens'.map Token.word = tokens.map Token.word := by
  cases hone : one.cursor.rest with
  | nil => exact h.reads_nil hone hreads
  | cons c tail =>
    rw [hone] at hhead
    obtain rfl | rfl := hhead c rfl
    · exact h.reads_newline hone hreads
    · exact h.reads_return hone hreads

end Beside

/-- A scanner before a gap with a space behind it reads what it reads behind the space. -/
theorem read_space {gap rest : List Char} (hphase : one.phase ≠ .frontmatter) (hgap : IsGap gap)
    (hrest : one.cursor.rest = gap ++ ' ' :: rest) :
    (one.pass (gap.length + 1)).read = one.read ∧
      (one.pass (gap.length + 1)).cursor.rest = rest ∧
      (one.pass (gap.length + 1)).cursor.last = some ' ' := by
  have hdrop : one.cursor.rest.drop (gap.length + 1) = rest := by
    rw [hrest, ← List.drop_drop, List.drop_left, List.drop_one, List.tail_cons]
  refine ⟨read_pass hphase ?_, (rest_pass _ _).trans hdrop, ?_⟩
  · rw [hdrop, hrest, Gap.length_append_of_isGap hgap, Gap.length_space]
    omega
  · rw [pass, Cursor.last_advanceBy (Nat.succ_pos _) (by simp [hrest]), hrest, Nat.succ_sub_one,
      List.drop_left]
    rfl

/-- What lies between two scanners that are abreast and the place where their texts differ is a
gap, if a token starts there. -/
theorem Abreast.isGap {gap : List Char} (h : Abreast gap back back' one other)
    (hback : one.passGap.cursor.rest = back) : IsGap gap := by
  have hle := Gap.length_le one.cursor.rest
  have hlengths := congrArg List.length hback
  have htotal := congrArg List.length h.rest
  rw [rest_passGap, List.length_drop] at hlengths
  rw [List.length_append] at htotal
  have hlength : Gap.length one.cursor.rest = gap.length := by omega
  have hgap := Gap.isGap_take_length one.cursor.rest
  rwa [hlength, h.rest, List.take_left] at hgap

/-- Behind a comment the same is read as behind a space. -/
theorem Abreast.reads_comment {gap : List Char}
    (h : Abreast gap back (' ' :: behind.cursor.rest) one other) (hread : ReadAs one token behind)
    (hkind : token.kind = .comment) (hback : one.passGap.cursor.rest = back)
    (hreads : behind.Reads tokens) :
    ∃ tokens', other.Reads tokens' ∧ tokens'.map Token.word = tokens.map Token.word := by
  cases hread with
  | frontmatterEnd | frontmatterClose | frontmatterBody | frontmatterOpen | eof => cases hkind
  | @lexeme lexeme hphase _ hlexeme hother =>
    have hcomment : lexeme.kind = .comment := hkind
    have hphase' : one.passGap.phaseBehind lexeme.kind = one.phase := by
      rw [hcomment]
      rfl
    change (one.passGap.passLexeme lexeme).Reads tokens at hreads
    obtain ⟨hskip, hrest, hlast⟩ := read_space (h.phase ▸ hphase) (h.isGap hback) h.rest'
    have hbeside : Beside (one.passGap.passLexeme lexeme) (other.pass (gap.length + 1)) := by
      refine ⟨hrest, h.phase.trans hphase'.symm, ?_, ?_⟩
      · show one.passGap.phaseBehind lexeme.kind ≠ .frontmatter
        rwa [hphase']
      · have hprevious : (one.passGap.passLexeme lexeme).previous = one.previous :=
          Lexeme.previous_passToken_comment hcomment
        rw [hprevious]
        exact ⟨h.before.names, h.before.opens, rfl⟩
    suffices hsame : ∃ tokens', (other.pass (gap.length + 1)).Reads tokens' ∧
        tokens'.map Token.word = tokens.map Token.word by
      obtain ⟨tokens', hreads', hwords⟩ := hsame
      exact ⟨tokens', hreads'.of_read_eq hskip.symm, hwords⟩
    by_cases hhead : ∀ c ∈ (one.passGap.passLexeme lexeme).cursor.rest.head?, c = '\n' ∨ c = '\r'
    · exact hbeside.reads_lineEnd hhead hreads
    · -- Where the line goes on, the comment ends with a slash.
      simp only [not_forall, not_or] at hhead
      obtain ⟨c, hc, hline⟩ := hhead
      have hslash : (one.passGap.passLexeme lexeme).cursor.last = some '/' := by
        have hbehind := before_passLexeme (Lexeme.recognized_of_ok hlexeme).length_le
        exact (congrArg Before.last hbehind).trans
          (Lexeme.last_passToken_comment hlexeme hcomment (rest_pass _ _ ▸ hc) hline)
      exact (hbeside.abreast hslash hlast (by decide) (by decide)).reads hreads

/-- The tokens up to one of them are read by a scanner, and the others by one behind it. -/
theorem passes_of_reads {earlier later : List Token} (h : one.Reads (earlier ++ token :: later))
    (hkind : token.kind ≠ .eof) : ∃ mid behind, Passes one earlier mid ∧ ReadAs mid token behind ∧
      behind.Reads later := by
  generalize htokens : earlier ++ token :: later = tokens at h
  induction h generalizing earlier with
  | last _ heof =>
    obtain ⟨rfl, rfl, -⟩ : earlier = [] ∧ token = _ ∧ later = [] := by
      simpa [List.append_eq_singleton_iff] using htokens
    exact absurd heof hkind
  | more hread hfirst hothers ih =>
    cases earlier with
    | nil =>
      obtain ⟨rfl, rfl⟩ := List.cons.inj htokens
      exact ⟨_, _, .nil, readAs_of_read hread, hothers⟩
    | cons first earlier =>
      obtain ⟨rfl, hrest⟩ := List.cons.inj htokens
      obtain ⟨mid, behind, hpasses, hlast⟩ := ih hrest
      exact ⟨mid, behind, .cons (readAs_of_read hread) hfirst hpasses, hlast⟩

/-- The scanners at the heads of two sources that start alike are abreast. -/
theorem exists_abreast_ofSource (front : List Char) (hback : back.head? ≠ some Cursor.byteOrderMark)
    (hback' : back'.head? ≠ some Cursor.byteOrderMark) :
    ∃ mark text, front = mark ++ text ∧ (ofSource (front ++ back)).cursor.offset = byteCount mark ∧
      Abreast text back back' (ofSource (front ++ back)) (ofSource (front ++ back')) := by
  by_cases hmark : front.head? = some Cursor.byteOrderMark
  · obtain ⟨text, rfl⟩ := List.head?_eq_some_iff.mp hmark
    have hstart : ∀ back, ofSource (Cursor.byteOrderMark :: text ++ back) =
        ⟨⟨text ++ back, Cursor.byteOrderMark.utf8Size, 1, 1, none⟩, .start, none, false⟩ :=
      fun _ => rfl
    rw [hstart, hstart]
    exact ⟨[Cursor.byteOrderMark], text, rfl, by simp, rfl, rfl, rfl, Before.alike_self _, rfl⟩
  · have hstart : ∀ {back : List Char}, back.head? ≠ some Cursor.byteOrderMark →
        ofSource (front ++ back) = ⟨⟨front ++ back, 0, 1, 1, none⟩, .start, none, false⟩ := by
      intro back hback
      refine ofSource_of_head ?_
      cases front with
      | nil => exact hback
      | cons c front => exact hmark
    rw [hstart hback, hstart hback']
    exact ⟨[], front, rfl, rfl, rfl, rfl, rfl, Before.alike_self _, rfl⟩

/-- Where a comment is read, it is at the place behind the gap. -/
theorem ReadAs.comment (h : ReadAs one token behind) (hkind : token.kind = .comment) :
    one.phase ≠ .frontmatter ∧ token.span.start = one.passGap.cursor.offset ∧
      (['/', '/'] <+: one.passGap.cursor.rest ∨ ['/', '*'] <+: one.passGap.cursor.rest) := by
  cases h with
  | frontmatterEnd | frontmatterClose | frontmatterBody | frontmatterOpen | eof => cases hkind
  | @lexeme lexeme hphase _ hlexeme =>
    refine ⟨hphase, rfl, ?_⟩
    obtain ⟨rest, hrest, -⟩ | ⟨rest, hrest, -⟩ := Lexeme.comment_cases hlexeme hkind
    · exact .inl ⟨rest, hrest.symm⟩
    · exact .inr ⟨rest, hrest.symm⟩

/-- A comment parts its source in the text before it and the text behind it. -/
theorem Passes.exists_split {source : List Char} (h : Passes (ofSource source) tokens one)
    (hread : ReadAs one token behind) (hkind : token.kind = .comment) :
    ∃ passed, source = passed ++ one.passGap.cursor.rest ∧
      Cursor.charactersBefore token.span.start source = passed.length ∧
      source.drop (Cursor.charactersBefore token.span.stop source) = behind.cursor.rest := by
  have hone : one.cursor.StandsIn source := by
    obtain ⟨n, hn⟩ := h.cursor
    exact hn ▸ (Cursor.standsIn_ofSource source).advanceBy n
  obtain ⟨passed, hsource, hoffset⟩ : one.passGap.cursor.StandsIn source := hone.advanceBy _
  obtain ⟨passed', hsource', hoffset'⟩ : behind.cursor.StandsIn source := by
    obtain ⟨n, hn⟩ := hread.cursor
    exact hn ▸ hone.advanceBy n
  refine ⟨passed, hsource, ?_, ?_⟩
  · rw [(hread.comment hkind).2.1, hoffset, hsource, Cursor.charactersBefore_byteCount]
  · rw [hread.stop, hoffset', hsource', Cursor.charactersBefore_byteCount, List.drop_left]

/-- Where a token starts in a text, it starts in the source of the text. -/
theorem StartsAt.exists_skipped {here : Cursor} {source mark text line : List Char}
    (h : StartsAt here text line token) (hmark : here.offset = byteCount mark)
    (hsource : source = mark ++ text ++ back) : ∃ skipped, mark ++ text = skipped ++ line ∧
      Cursor.charactersBefore token.span.start source = skipped.length := by
  obtain ⟨skipped, rfl, hstart⟩ := h
  refine ⟨mark ++ skipped, (List.append_assoc _ _ _).symm, ?_⟩
  rw [hstart, hmark, ← byteCount_append, hsource, ← List.append_assoc mark, List.append_assoc,
    Cursor.charactersBefore_byteCount]

end Scanner

namespace Token

/-- A source with a space in the place of a token. -/
def blanked (token : Token) (source : List Char) : List Char :=
  source.take (Cursor.charactersBefore token.span.start source) ++
    ' ' :: source.drop (Cursor.charactersBefore token.span.stop source)

/-- With a space in the place of `comment`, the line of the first token that is neither a line end
nor a comment is a delimiter line, and opens frontmatter. -/
def HidesDelimiter (comment : Token) (source : List Char) (earlier : List Token) : Prop :=
  ∃ dash ∈ firstToken? earlier, dash.kind = .minus ∧ dash.span.column = 1 ∧
    (Frontmatter.delimiter? false ((comment.blanked source).drop
      (Cursor.charactersBefore dash.span.start source))).isSome

/-- What stands from one of the tokens up to `comment` is read as a path, although it would be an
address in other places, and an arrow or a comma is behind the comment. -/
def HidesPattern (comment : Token) (source : List Char) (earlier : List Token) : Prop :=
  ∃ token ∈ earlier, token.kind = .identifier ∧
    IsPathAddress ((source.take (Cursor.charactersBefore comment.span.start source)).drop
      (Cursor.charactersBefore token.span.start source)) ∧
    Lexeme.endsPattern (source.drop (Cursor.charactersBefore comment.span.stop source))

end Token

namespace Scanner

/-- The scanner `one` stands before a comment and `behind` stands behind it, and `text` and `back`
are what is before the comment and from it on. With a space in the place of the comment, a source
is read abreast as far as `text` goes. -/
structure AtComment (source : List Char) (comment : Token) (earlier later : List Token)
    (text back : List Char) (one behind : Scanner) : Prop where
  passes : Passes (ofSource source) earlier one
  read : ReadAs one comment behind
  reads : behind.Reads later
  outside : one.phase ≠ .frontmatter
  rest : one.passGap.cursor.rest = back
  length_le : back.length ≤ one.cursor.rest.length
  swap : Swap back (' ' :: behind.cursor.rest)
  abreast : Abreast text back (' ' :: behind.cursor.rest) (ofSource source)
    (ofSource (comment.blanked source))
  ahead : source.drop (Cursor.charactersBefore comment.span.stop source) = behind.cursor.rest
  startsAt : ∀ {token line}, StartsAt (ofSource source).cursor text line token →
    (source.take (Cursor.charactersBefore comment.span.start source)).drop
        (Cursor.charactersBefore token.span.start source) = line ∧
      (comment.blanked source).drop (Cursor.charactersBefore token.span.start source) =
        line ++ ' ' :: behind.cursor.rest

theorem exists_atComment {source : List Char} {earlier later : List Token} {comment : Token}
    (h : (ofSource source).Reads (earlier ++ comment :: later)) (hkind : comment.kind = .comment) :
    ∃ text back one behind, AtComment source comment earlier later text back one behind := by
  obtain ⟨one, behind, hpasses, hread, hreads⟩ := passes_of_reads h (by rw [hkind]; decide)
  obtain ⟨passed, hsource, htaken, hdropped⟩ := hpasses.exists_split hread hkind
  obtain ⟨hphase, -, hslash⟩ := hread.comment hkind
  generalize hback : one.passGap.cursor.rest = back at hsource hslash
  have hmarked : back.head? ≠ some Cursor.byteOrderMark := by
    obtain ⟨tail, rfl⟩ | ⟨tail, rfl⟩ := hslash <;> simp [Cursor.byteOrderMark]
  have hblanked : comment.blanked source = passed ++ ' ' :: behind.cursor.rest := by
    rw [Token.blanked, hdropped, htaken, hsource, List.take_left]
  obtain ⟨mark, text, rfl, hmark, habreast⟩ := exists_abreast_ofSource passed hmarked
    (show (' ' :: behind.cursor.rest).head? ≠ _ by simp [Cursor.byteOrderMark])
  rw [← hsource, ← hblanked] at habreast
  rw [← hsource] at hmark
  have hle : back.length ≤ one.cursor.rest.length := by
    rw [← hback, rest_passGap, List.length_drop]
    exact Nat.sub_le _ _
  refine ⟨text, back, one, behind, hpasses, hread, hreads, hphase, hback, hle,
    swap_comment behind.cursor.rest hslash, habreast, hdropped, fun {token line} hstarts => ?_⟩
  obtain ⟨skipped, hline, hskipped⟩ := hstarts.exists_skipped hmark hsource
  refine ⟨?_, ?_⟩
  · rw [htaken, hskipped, hsource, List.take_left, hline, List.drop_left]
  · rw [hblanked, hskipped, hline, List.append_assoc, List.drop_left]

end Scanner

/-- With a space in the place of a comment, a source has the same tokens but for the comment. -/
theorem tokenize_blanked {source : String} {earlier later : List Token} {comment : Token}
    (h : tokenize source = .ok (earlier ++ comment :: later)) (hkind : comment.kind = .comment)
    (hdelimiter : ¬ comment.HidesDelimiter source.toList earlier)
    (hpattern : ¬ comment.HidesPattern source.toList earlier) :
    ∃ tokens, tokenize (String.ofList (comment.blanked source.toList)) = .ok tokens ∧
      tokens.map Token.word = (earlier ++ later).map Token.word := by
  rw [tokenize_eq_ok_iff] at h
  generalize source.toList = source at h hdelimiter hpattern ⊢
  -- The text before the comment is the same one, with the comment or with a space behind it.
  obtain ⟨text, back, one, behind, hat⟩ := Scanner.exists_atComment h hkind
  -- The comment hides no delimiter line that starts with the first token.
  have hdash : ∀ dash ∈ firstToken? earlier, dash.kind = .minus → dash.span.column = 1 →
      ∀ line, Scanner.StartsAt (Scanner.ofSource source).cursor text line dash →
        Frontmatter.delimiter? false (line ++ ' ' :: behind.cursor.rest) = none := by
    intro dash hmem hminus hfirst line hstarts
    by_contra hsome
    refine hdelimiter ⟨dash, hmem, hminus, hfirst, ?_⟩
    rw [(hat.startsAt hstarts).2]
    exact Option.isSome_iff_ne_none.mpr hsome
  -- And it hides no pattern that starts with one of the tokens.
  have hpath : ∀ token ∈ earlier, token.kind = .identifier → ∀ line,
      Scanner.StartsAt (Scanner.ofSource source).cursor text line token → IsPathAddress line →
        Lexeme.endsPattern (' ' :: behind.cursor.rest) = false := by
    intro token hmem hname line hstarts hpath
    by_contra hends
    refine hpattern ⟨token, hmem, hname, ?_, ?_⟩
    · rw [(hat.startsAt hstarts).1]
      exact hpath
    · rw [hat.ahead]
      exact Bool.of_not_eq_false hends
  obtain ⟨tokens, other, hwords, ⟨n, -, hother⟩, hothers⟩ :=
    hat.abreast.passes hat.swap hat.passes hat.outside hat.length_le
      (Cursor.countsColumns_ofSource source) (fun _ => hdash) hpath
  obtain ⟨tokens', hreads', hwords'⟩ := hother.reads_comment hat.read hkind hat.rest hat.reads
  refine ⟨tokens ++ tokens', ?_, by rw [List.map_append, List.map_append, hwords, hwords']⟩
  rw [tokenize_eq_ok_iff, String.toList_ofList]
  exact hothers _ hreads'

/-- A path of two words with no digit is no address anywhere, so a comment may stand between it
and a comma. -/
theorem tokenize_blanked_path :
    ∃ tokens, tokenize (String.ofList (Token.blanked ⟨.comment, "/* n */", ⟨11, 18, 1, 12⟩⟩
        "x = f(c::d /* n */, e)".toList)) = .ok tokens ∧
      tokens.map Token.word = [(.identifier, "x"), (.assign, "="), (.identifier, "f"),
        (.lParen, "("), (.identifier, "c"), (.moduleSep, "::"), (.identifier, "d"), (.comma, ","),
        (.identifier, "e"), (.rParen, ")"), (.eof, "")] := by
  have htokens : tokenize "x = f(c::d /* n */, e)" =
      .ok ([⟨.identifier, "x", ⟨0, 1, 1, 1⟩⟩, ⟨.assign, "=", ⟨2, 3, 1, 3⟩⟩,
          ⟨.identifier, "f", ⟨4, 5, 1, 5⟩⟩, ⟨.lParen, "(", ⟨5, 6, 1, 6⟩⟩,
          ⟨.identifier, "c", ⟨6, 7, 1, 7⟩⟩, ⟨.moduleSep, "::", ⟨7, 9, 1, 8⟩⟩,
          ⟨.identifier, "d", ⟨9, 10, 1, 10⟩⟩] ++ ⟨.comment, "/* n */", ⟨11, 18, 1, 12⟩⟩ ::
        [⟨.comma, ",", ⟨18, 19, 1, 19⟩⟩, ⟨.identifier, "e", ⟨20, 21, 1, 21⟩⟩,
          ⟨.rParen, ")", ⟨21, 22, 1, 22⟩⟩, ⟨.eof, "", ⟨22, 22, 1, 23⟩⟩]) := by
    decide +kernel
  refine tokenize_blanked htokens rfl ?_ ?_
  · rintro ⟨dash, hmem, hminus, -⟩
    obtain rfl := Option.some.inj hmem
    cases hminus
  · rintro ⟨token, -, -, ⟨first, second, blanks, htext, -, -, hpair, -⟩, -⟩
    have hdigits : ∀ c ∈ "x = f(c::d /* n */, e)".toList, c.isDigit = false := by simp
    obtain ⟨c, hc, hdigit⟩ := List.any_eq_true.mp hpair.2.2
    have hmem := List.mem_of_mem_take (List.mem_of_mem_drop (htext ▸ List.mem_append_left _ hc))
    rw [hdigits c hmem] at hdigit
    cases hdigit

/-- Where a source has the same tokens with a space in the place of a comment, the comment hides
neither a delimiter line nor a pattern. -/
theorem not_hides_of_words_eq {source : String} {earlier later tokens : List Token}
    {comment : Token} (h : tokenize source = .ok (earlier ++ comment :: later))
    (hkind : comment.kind = .comment)
    (htokens : tokenize (String.ofList (comment.blanked source.toList)) = .ok tokens)
    (hwords : tokens.map Token.word = (earlier ++ later).map Token.word) :
    ¬ comment.HidesDelimiter source.toList earlier ∧
      ¬ comment.HidesPattern source.toList earlier := by
  rw [tokenize_eq_ok_iff] at h htokens
  rw [String.toList_ofList] at htokens
  generalize source.toList = source at h htokens ⊢
  obtain ⟨text, back, one, behind, hat⟩ := Scanner.exists_atComment h hkind
  have hspace : Stops (' ' :: behind.cursor.rest) := by
    refine ⟨?_, ?_⟩
    · rintro _ ⟨⟩
      decide
    · rintro c tail (rfl | rfl) heq <;> cases heq
  have hprefix : earlier.map Token.word <+: tokens.map Token.word := by
    rw [hwords, List.map_append]
    exact List.prefix_append _ _
  obtain ⟨hdashes, hnames⟩ := hat.abreast.noneOf_words hat.swap hspace hat.passes hat.outside
    hat.length_le (Cursor.countsColumns_ofSource source) htokens hprefix
  refine ⟨?_, ?_⟩
  · rintro ⟨dash, hmem, hminus, hfirst, hsome⟩
    obtain ⟨line, hstarts, hnone⟩ := hdashes rfl dash hmem hminus hfirst
    rw [(hat.startsAt hstarts).2, hnone] at hsome
    cases hsome
  · rintro ⟨token, hmem, hname, hpath, hends⟩
    obtain ⟨line, hstarts, hnone⟩ := hnames token hmem hname
    rw [(hat.startsAt hstarts).1] at hpath
    rw [hat.ahead] at hends
    exact absurd (hends.symm.trans (hnone hpath)) (by decide)

/-- A line of three dashes and a comment is no delimiter line, but it is one with a space in the
place of the comment. -/
theorem not_forall_tokenize_blanked :
    ¬ ∀ (source : String) (earlier later : List Token) (comment : Token),
      tokenize source = .ok (earlier ++ comment :: later) → comment.kind = .comment →
        ∃ tokens, tokenize (String.ofList (comment.blanked source.toList)) = .ok tokens ∧
          tokens.map Token.word = (earlier ++ later).map Token.word := by
  intro h
  obtain ⟨tokens, htokens, hwords⟩ := h "---//\n"
    [⟨.minus, "-", ⟨0, 1, 1, 1⟩⟩, ⟨.minus, "-", ⟨1, 2, 1, 2⟩⟩, ⟨.minus, "-", ⟨2, 3, 1, 3⟩⟩]
    [⟨.newline, "\n", ⟨5, 6, 1, 6⟩⟩, ⟨.eof, "", ⟨6, 6, 2, 1⟩⟩]
    ⟨.comment, "//", ⟨3, 5, 1, 4⟩⟩ (by decide +kernel) rfl
  have hopen : tokenize "--- \n" =
      .ok [⟨.frontmatterOpen, "--- \n", ⟨0, 5, 1, 1⟩⟩, ⟨.eof, "", ⟨5, 5, 2, 1⟩⟩] := by
    decide +kernel
  obtain rfl := Except.ok.inj (hopen.symm.trans htokens)
  simp [Token.word] at hwords

end PipelineLang
