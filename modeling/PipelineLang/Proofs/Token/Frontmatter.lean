import PipelineLang.Proofs.Token.Joining

/-!
# The tokens of frontmatter

Frontmatter is what stands between two delimiter lines at the head of a source. Its body is
not looked into, save for the next delimiter line.

## Main definitions

- `Frontmatter.IsDelimiter` — a delimiter line
- `Frontmatter.HasDelimiter` — one of the lines of a text is a delimiter line
- `Frontmatter.GoesOn` — no line that starts in a body is a delimiter line
- `Frontmatter.IsBlock` — the tokens of frontmatter
- `Frontmatter.enclose` — the text of closed frontmatter

## Main results

- `Frontmatter.exists_bodyLength` — a body goes on up to the first delimiter line
- `Scanner.Reads.frontmatter` — frontmatter stands behind line ends and comments only
- `Scanner.tokens?_frontmatter` — the tokens of frontmatter with a source behind it

## Design notes

A delimiter line ends with the text or with a line end, and a carriage return alone does not
end it. So a text without delimiter lines may have one where more comes behind it; a text of
whole lines has the same delimiter lines whatever comes.
-/

namespace PipelineLang

namespace Frontmatter

/-! ### Delimiter lines -/

/-- Text of whole lines: it is empty or ends with a line end. -/
def IsLines (text : List Char) : Prop := ∀ c ∈ text.getLast?, c = '\n'

/-- A delimiter line, with `behind` behind it: three dashes, then spaces and tabs, then a line
end or the end of the text. -/
def IsDelimiter (line behind : List Char) : Prop :=
  ∃ blanks ending, line = '-' :: '-' :: '-' :: (blanks ++ ending) ∧
    (∀ c ∈ blanks, c = ' ' ∨ c = '\t') ∧
    (ending = ['\n'] ∨ ending = ['\r', '\n'] ∨ ending = [] ∧ behind = [])

/-- One of the lines of a text is a delimiter line. -/
def HasDelimiter (text : List Char) : Prop :=
  ∃ front line behind, text = front ++ (line ++ behind) ∧ IsLines front ∧
    IsDelimiter line behind

variable {text front back line behind : List Char}

theorem isLines_nil : IsLines [] := by
  intro c hc
  simp at hc

theorem isLines_concat {c : Char} : IsLines (front ++ [c]) ↔ c = '\n' := by
  simp [IsLines]

theorem isLines_append (hne : back ≠ []) : IsLines (front ++ back) ↔ IsLines back := by
  rw [IsLines, IsLines, List.getLast?_append_of_ne_nil front hne]

theorem IsLines.mem (h : IsLines text) (hne : text ≠ []) : '\n' ∈ text := by
  have hlast : text.getLast hne = '\n' := h _ (List.getLast?_eq_some_getLast hne)
  exact hlast ▸ List.getLast_mem hne

theorem delimiter?_eq_some {endsLine : Bool} {n : Nat} : delimiter? endsLine text = some n ↔
    ∃ line behind, text = line ++ behind ∧ line.length = n ∧ IsDelimiter line behind ∧
      (endsLine ∨ '\n' ∈ line) := by
  constructor
  · intro h
    unfold delimiter? at h
    split at h
    · next rest =>
      have hblanks : ∀ c ∈ rest.takeWhile fun c => c == ' ' || c == '\t', c = ' ' ∨ c = '\t' :=
        fun c hc => by simpa using List.mem_takeWhile_imp hc
      have hrest := List.take_append_drop
        (rest.takeWhile fun c => c == ' ' || c == '\t').length rest
      rw [Matcher.take_length_takeWhile] at hrest
      generalize rest.takeWhile (fun c => c == ' ' || c == '\t') = blanks at h hblanks hrest
      dsimp only at h
      split at h
      · next tail hdrop =>
        rw [hdrop] at hrest
        exact ⟨'-' :: '-' :: '-' :: (blanks ++ ['\n']), tail, by simp [← hrest],
          by simpa [Nat.add_comm, Nat.add_left_comm] using h, ⟨blanks, _, rfl, hblanks, .inl rfl⟩,
          .inr (by simp)⟩
      · next tail hdrop =>
        rw [hdrop] at hrest
        exact ⟨'-' :: '-' :: '-' :: (blanks ++ ['\r', '\n']), tail, by simp [← hrest],
          by simpa [Nat.add_comm, Nat.add_left_comm] using h,
          ⟨blanks, _, rfl, hblanks, .inr (.inl rfl)⟩, .inr (by simp)⟩
      · next hdrop =>
        rw [hdrop] at hrest
        obtain ⟨hends, h⟩ := Option.ite_none_right_eq_some.mp h
        exact ⟨'-' :: '-' :: '-' :: (blanks ++ []), [], by simp [← hrest],
          by simpa [Nat.add_comm, Nat.add_left_comm] using h,
          ⟨blanks, _, rfl, hblanks, .inr (.inr ⟨rfl, rfl⟩)⟩, .inl hends⟩
      · simp at h
    · simp at h
  · rintro ⟨line, behind, rfl, rfl, ⟨blanks, ending, rfl, hblanks, hending⟩, hline⟩
    have hall : ∀ c ∈ blanks, (c == ' ' || c == '\t') = true := fun c hc => by
      simpa using hblanks c hc
    have htake : ∀ more : List Char, (∀ c ∈ more.head?, (c == ' ' || c == '\t') = false) →
        (blanks ++ more).takeWhile (fun c => c == ' ' || c == '\t') = blanks := by
      intro more hmore
      rw [List.takeWhile_append_of_pos hall]
      cases more with
      | nil => simp
      | cons c more => rw [List.takeWhile_cons_of_neg (by simp [hmore c rfl]), List.append_nil]
    obtain rfl | rfl | ⟨rfl, rfl⟩ := hending
    · have htake := htake ('\n' :: behind) (by simp)
      simp [delimiter?, htake]
      omega
    · have htake := htake ('\r' :: '\n' :: behind) (by simp)
      simp [delimiter?, htake]
      omega
    · have htake := htake [] (by simp)
      have hnot : '\n' ∉ blanks := fun hmem => by simpa using hblanks '\n' hmem
      rw [List.append_nil] at htake
      have hends : endsLine = true := by simpa [hnot] using hline
      simp [delimiter?, htake, hends]
      omega

theorem delimiter?_le {endsLine : Bool} {length : Nat}
    (h : delimiter? endsLine text = some length) : length ≤ text.length := by
  obtain ⟨line, rest, rfl, rfl, -⟩ := delimiter?_eq_some.mp h
  simp

theorem isSome_delimiter? : (delimiter? true text).isSome ↔
    ∃ line behind, text = line ++ behind ∧ IsDelimiter line behind := by
  simp [Option.isSome_iff_exists, delimiter?_eq_some]

/-- A delimiter line has a line end behind all of its other characters, and then it is one
whatever comes behind it; or it ends with the text. -/
theorem IsDelimiter.cases (h : IsDelimiter line behind) :
    (∃ start, line = start ++ ['\n'] ∧ '\n' ∉ start ∧ ∀ more, IsDelimiter line more) ∨
      behind = [] ∧ '\n' ∉ line := by
  obtain ⟨blanks, ending, rfl, hblanks, hending⟩ := h
  have hnot : '\n' ∉ blanks := fun hmem => by simpa using hblanks '\n' hmem
  obtain rfl | rfl | ⟨rfl, rfl⟩ := hending
  · exact .inl ⟨'-' :: '-' :: '-' :: blanks, by simp, by simp [hnot],
      fun more => ⟨blanks, _, rfl, hblanks, .inl rfl⟩⟩
  · exact .inl ⟨'-' :: '-' :: '-' :: (blanks ++ ['\r']), by simp, by simp [hnot],
      fun more => ⟨blanks, _, rfl, hblanks, .inr (.inl rfl)⟩⟩
  · exact .inr ⟨rfl, by simp [hnot]⟩

theorem IsDelimiter.ne_nil (h : IsDelimiter line behind) : line ≠ [] := by
  obtain ⟨blanks, ending, rfl, -⟩ := h
  exact List.cons_ne_nil _ _

/-- In a text of whole lines, a line is no delimiter line because of what comes behind it. -/
theorem delimiter?_append (hplain : ¬ HasDelimiter text) (hlines : IsLines text)
    (htext : text = front ++ back) (hfront : IsLines front) (hne : back ≠ []) (rest : List Char) :
    delimiter? true (back ++ rest) = none := by
  rw [← Option.not_isSome_iff_eq_none, isSome_delimiter?]
  rintro ⟨line, behind, hsplit, hline⟩
  rw [htext, isLines_append hne] at hlines
  obtain ⟨start, c, rfl⟩ := (List.eq_nil_or_concat back).resolve_left hne
  rw [List.concat_eq_append, isLines_concat] at hlines
  subst hlines
  rw [List.concat_eq_append] at hsplit htext
  obtain ⟨before, rfl, hbefore, hany⟩ | ⟨rfl, hnot⟩ := hline.cases
  · have hprefix : before ++ ['\n'] <+: start ++ ['\n'] := by
      obtain h | h := List.prefix_or_prefix_of_prefix
        (hsplit ▸ List.prefix_append (start ++ ['\n']) rest)
        (List.prefix_append (before ++ ['\n']) behind)
      · -- The line end of the text is the only one of the line.
        obtain h | h := List.prefix_concat_iff.mp h
        · exact h ▸ List.prefix_rfl
        · exact absurd (h.subset (by simp)) hbefore
      · exact h
    obtain ⟨more, hmore⟩ := hprefix
    exact hplain ⟨front, before ++ ['\n'], more, by rw [hmore, htext], hfront, hany more⟩
  · rw [List.append_nil] at hsplit
    rw [← hsplit] at hnot
    simp at hnot

/-- A line end behind a text makes a delimiter line only where a carriage return is before it. -/
theorem not_hasDelimiter_concat (hplain : ¬ HasDelimiter text) (hlast : text.getLast? ≠ some '\r') :
    ¬ HasDelimiter (text ++ ['\n']) := by
  rintro ⟨front, line, behind, hsplit, hfront, hline⟩
  have hbefore : ∀ {start : List Char} {c : Char}, text ++ ['\n'] = front ++ (start ++ [c]) →
      text = front ++ start := by
    intro start c hsplit
    rw [← List.append_assoc] at hsplit
    exact (List.append_inj' hsplit rfl).1
  obtain rfl | ⟨behind, c, rfl⟩ := List.eq_nil_or_concat behind
  · have hlines : IsLines line := by
      rw [List.append_nil] at hsplit
      rw [← isLines_append hline.ne_nil, ← hsplit]
      exact isLines_concat.mpr rfl
    have hmem := hlines.mem hline.ne_nil
    obtain ⟨blanks, ending, rfl, hblanks, hending⟩ := hline
    rw [List.append_nil] at hsplit
    obtain rfl | rfl | ⟨rfl, -⟩ := hending
    · -- The text ends with the same line, without its end.
      have htext : text = front ++ '-' :: '-' :: '-' :: blanks := hbefore hsplit
      exact hplain ⟨front, '-' :: '-' :: '-' :: blanks, [], by rw [htext, List.append_nil], hfront,
        blanks, [], by simp, hblanks, .inr (.inr ⟨rfl, rfl⟩)⟩
    · have htext : text = front ++ ('-' :: '-' :: '-' :: blanks ++ ['\r']) :=
        hbefore (by simpa using hsplit)
      exact hlast (by rw [htext, ← List.append_assoc, List.getLast?_concat])
    · have hblank : '\n' ∉ blanks := fun hmem => by simpa using hblanks '\n' hmem
      simp [hblank] at hmem
  · obtain ⟨-, -, -, hany⟩ | ⟨hnil, -⟩ := hline.cases
    · rw [List.concat_eq_append, ← List.append_assoc line] at hsplit
      exact hplain ⟨front, line, behind, hbefore hsplit, hfront, hany _⟩
    · simp at hnil

/-! ### Bodies -/

/-- No line that starts in `body` is a delimiter line, with `passed` before the body and `rest`
behind it. -/
def GoesOn (passed body rest : List Char) : Prop :=
  ∀ front back, body = front ++ back → back ≠ [] → IsLines (passed ++ front) →
    delimiter? true (back ++ rest) = none

theorem goesOn_nil (passed rest : List Char) : GoesOn passed [] rest :=
  fun _ _ hsplit hne _ => absurd (List.append_eq_nil_iff.mp hsplit.symm).2 hne

theorem GoesOn.cons {passed body rest : List Char} {c : Char}
    (hhere : IsLines passed → delimiter? true (c :: (body ++ rest)) = none)
    (h : GoesOn (passed ++ [c]) body rest) : GoesOn passed (c :: body) rest := by
  intro front back hsplit hne hlines
  cases front with
  | nil =>
    obtain rfl : c :: body = back := hsplit
    exact hhere (List.append_nil passed ▸ hlines)
  | cons d front =>
    obtain ⟨rfl, rfl⟩ := List.cons.inj hsplit
    refine h front back rfl hne ?_
    rwa [List.append_assoc, List.singleton_append]

/-- The walk over a body knows whether a line starts behind what has been passed. -/
theorem exists_walk (ahead passed : List Char) (position : Nat) (lineStart : Bool)
    (hstart : lineStart = true ↔ IsLines passed) : ∃ body rest, ahead = body ++ rest ∧
      walk bodyLength.stop (fun position _ => position) 0 position lineStart ahead =
        position + body.length ∧
      GoesOn passed body rest ∧
      (rest = [] ∨ IsLines (passed ++ body) ∧ (delimiter? true rest).isSome) := by
  induction ahead generalizing passed position lineStart with
  | nil => exact ⟨[], [], rfl, rfl, goesOn_nil passed [], .inl rfl⟩
  | cons c ahead ih =>
    by_cases hstop : lineStart = true ∧ (delimiter? true (c :: ahead)).isSome
    · refine ⟨[], c :: ahead, rfl, ?_, goesOn_nil passed _, .inr ⟨?_, hstop.2⟩⟩
      · simp only [walk, bodyLength.stop, hstop.1, hstop.2, Bool.and_true, if_true]
        rfl
      · rw [List.append_nil]
        exact hstart.mp hstop.1
    · have hgo : bodyLength.stop position lineStart (c :: ahead) = .go 0 (c == '\n') := by
        rw [bodyLength.stop, if_neg (by simpa using hstop)]
        rfl
      obtain ⟨body, rest, rfl, hposition, hgoes, hrest⟩ :=
        ih (passed ++ [c]) (position + 1) (c == '\n') (by rw [isLines_concat, beq_iff_eq])
      refine ⟨c :: body, rest, rfl, ?_, .cons (fun hlines => ?_) hgoes, ?_⟩
      · rw [walk, hgo]
        dsimp only
        rw [hposition, List.length_cons]
        omega
      · have hnot := fun hsome => hstop ⟨hstart.mpr hlines, hsome⟩
        exact Option.not_isSome_iff_eq_none.mp hnot
      · rwa [List.append_assoc, List.singleton_append] at hrest

/-- A body goes on up to the first delimiter line, or up to the end. -/
theorem exists_bodyLength (text : List Char) : ∃ body rest, text = body ++ rest ∧
    bodyLength text = body.length ∧ GoesOn [] body rest ∧
    (rest = [] ∨ IsLines body ∧ (delimiter? true rest).isSome) := by
  obtain ⟨body, rest, htext, hlength, hgoes, hrest⟩ :=
    exists_walk text [] 0 true (iff_of_true rfl isLines_nil)
  exact ⟨body, rest, htext, hlength.trans (Nat.zero_add _), hgoes, hrest⟩

theorem bodyLength_le (text : List Char) : bodyLength text ≤ text.length := by
  obtain ⟨body, rest, rfl, hlength, -⟩ := exists_bodyLength text
  simp [hlength]

/-- No line of a body is a delimiter line. -/
theorem not_hasDelimiter_body {body rest : List Char} (hgoes : GoesOn [] body rest)
    (hrest : rest = [] ∨ IsLines body) : ¬ HasDelimiter body := by
  rintro ⟨front, line, behind, rfl, hfront, hline⟩
  have hhead := hgoes front (line ++ behind) rfl (by simp [hline.ne_nil]) hfront
  rw [← Option.not_isSome_iff_eq_none, isSome_delimiter?] at hhead
  obtain ⟨start, rfl, -, hany⟩ | ⟨rfl, hnot⟩ := hline.cases
  · exact hhead ⟨_, behind ++ rest, List.append_assoc _ _ _, hany _⟩
  · obtain rfl | hlines := hrest
    · exact hhead ⟨line, [], List.append_nil _, hline⟩
    · rw [List.append_nil, isLines_append hline.ne_nil] at hlines
      exact hnot (hlines.mem hline.ne_nil)

/-- A text has a delimiter line if it is not a body as a whole. -/
theorem hasDelimiter_iff : HasDelimiter text ↔ bodyLength text ≠ text.length := by
  obtain ⟨body, rest, rfl, hlength, hgoes, hrest⟩ := exists_bodyLength text
  rw [hlength, List.length_append]
  constructor
  · intro h heq
    obtain rfl := List.eq_nil_of_length_eq_zero (Nat.left_eq_add.mp heq)
    rw [List.append_nil] at h
    exact not_hasDelimiter_body hgoes (.inl rfl) h
  · intro hne
    have hnil : rest ≠ [] := by
      rintro rfl
      exact hne (Nat.add_zero _).symm
    obtain ⟨hlines, hsome⟩ := hrest.resolve_left hnil
    obtain ⟨line, behind, rfl, hline⟩ := isSome_delimiter?.mp hsome
    exact ⟨body, line, behind, rfl, hlines, hline⟩

instance (text : List Char) : Decidable (HasDelimiter text) :=
  decidable_of_iff _ hasDelimiter_iff.symm

instance (text : List Char) : Decidable (IsLines text) :=
  decidable_of_iff (text.getLast?.all (· == '\n') = true) (by simp [IsLines, Option.all_eq_true])

/-- A body of whole lines without delimiter lines goes on up to the delimiter line behind it. -/
theorem bodyLength_append {body rest : List Char} (hplain : ¬ HasDelimiter body)
    (hlines : IsLines body) (hrest : (delimiter? true rest).isSome) :
    bodyLength (body ++ rest) = body.length := by
  obtain ⟨found, behind, hsplit, hlength, hgoes, hbehind⟩ := exists_bodyLength (body ++ rest)
  rw [hlength]
  obtain ⟨more, rfl, rfl⟩ | ⟨more, rfl, rfl⟩ := List.append_eq_append_iff.mp hsplit
  · -- The body is not passed, since a delimiter line is behind it.
    by_cases hmore : more = []
    · rw [hmore, List.append_nil]
    · rw [hgoes body more rfl hmore hlines] at hrest
      simp at hrest
  · -- It is not left before, since no line in it is a delimiter line.
    by_cases hmore : more = []
    · rw [hmore, List.append_nil]
    · obtain hnil | ⟨hfound, hsome⟩ := hbehind
      · exact absurd (List.append_eq_nil_iff.mp hnil).1 hmore
      · rw [delimiter?_append hplain hlines rfl hfound hmore rest] at hsome
        simp at hsome

/-! ### Tokens -/

/-- The kinds of token that frontmatter consists of. -/
def kinds : List TokenKind := [.frontmatterOpen, .frontmatterBody, .frontmatterClose]

/-- The body of frontmatter is not empty, and none of its lines is a delimiter line. If the
frontmatter is closed, it consists of whole lines. -/
structure IsBody (closed : Bool) (token : Token) : Prop where
  kind : token.kind = .frontmatterBody
  nonempty : token.text ≠ ""
  plain : ¬ HasDelimiter token.text.toList
  lines : closed = true → IsLines token.text.toList

/-- The tokens of frontmatter, with `rest` behind them: the opening line, then a body and a
closing line if there are any. Where no line closes it, there is nothing but the end behind. -/
inductive IsBlock : List Token → (rest : List Token) → Prop
  | intro {opener : Token} {body closer : Option Token} {rest : List Token}
    (hopener : opener.kind = .frontmatterOpen) (hbody : ∀ token ∈ body, IsBody closer.isSome token)
    (hcloser : ∀ token ∈ closer, token.kind = .frontmatterClose)
    (hend : closer = none → rest.map (·.kind) = [.eof]) :
    IsBlock (opener :: (body.toList ++ closer.toList)) rest

/-- A body among the tokens of frontmatter is one, and it is whole lines if a closing line is
among them too. -/
theorem IsBlock.isBody {block rest : List Token} {token : Token} (h : IsBlock block rest)
    (hmem : token ∈ block) (hkind : token.kind = .frontmatterBody) :
    ∃ closed, IsBody closed token ∧
      ((∃ closer ∈ block, closer.kind = .frontmatterClose) → closed = true) := by
  obtain @⟨opener, body, closer, _, hopener, hbody, hcloser, -⟩ := h
  have hmem' : ∀ {token}, token ∈ opener :: (body.toList ++ closer.toList) →
      token = opener ∨ token ∈ body ∨ token ∈ closer := by
    intro token hmem
    rwa [List.mem_cons, List.mem_append, Option.mem_toList, Option.mem_toList] at hmem
  have hhere : token ∈ body := by
    obtain rfl | hhere | hhere := hmem' hmem
    · rw [hopener] at hkind
      cases hkind
    · exact hhere
    · rw [hcloser token hhere] at hkind
      cases hkind
  refine ⟨closer.isSome, hbody token hhere, ?_⟩
  rintro ⟨other, hother, hkind'⟩
  obtain rfl | hother | hother := hmem' hother
  · rw [hopener] at hkind'
    cases hkind'
  · rw [(hbody other hother).kind] at hkind'
    cases hkind'
  · exact Option.isSome_of_mem hother

/-- The text of closed frontmatter, but for the end of its closing line. -/
def enclose (body : List Char) : List Char := '-' :: '-' :: '-' :: '\n' :: (body ++ ['-', '-', '-'])

end Frontmatter

namespace Scanner

variable {scanner behind : Scanner} {token : Token} {tokens : List Token}

/-- No lexeme belongs to frontmatter. -/
theorem kind_of_lexeme {lexeme : Lexeme} {before : Before} {text : List Char}
    (h : Lexeme.recognize before text = .ok lexeme) : lexeme.kind ∉ Frontmatter.kinds := by
  intro hmem
  have hkinds : ∀ kind ∈ Frontmatter.kinds, kind ∈ Lexeme.unspelled ∧ kind ≠ .dollarVar := by decide
  obtain ⟨hunspelled, hdollar⟩ := hkinds _ hmem
  obtain ⟨h, -⟩ | h := (Lexeme.recognized_of_ok h).dollar_or_other
  · exact hdollar h
  · exact h hunspelled

/-- Behind the head of a source, no token belongs to frontmatter. -/
theorem Reads.program (h : Reads scanner tokens) (hphase : scanner.phase = .program) :
    ∀ token ∈ tokens, token.kind ∉ Frontmatter.kinds := by
  have hread : ∀ {scanner behind : Scanner} {token : Token}, ReadAs scanner token behind →
      scanner.phase = .program → token.kind ∉ Frontmatter.kinds ∧ behind.phase = .program := by
    intro scanner behind token h hphase
    cases h with
    | frontmatterEnd hphase' | frontmatterClose hphase' | frontmatterBody hphase' =>
      rw [hphase] at hphase'
      cases hphase'
    | frontmatterOpen _ hlength =>
      have hnone : scanner.passGap.opening? = none := opening?_of_phase (by
        show scanner.phase ≠ .start
        rw [hphase]
        decide)
      rw [hnone] at hlength
      cases hlength
    | eof => exact ⟨by simp [tokenOf, Frontmatter.kinds], hphase⟩
    | @lexeme lexeme _ _ hlexeme _ =>
      refine ⟨kind_of_lexeme hlexeme, ?_⟩
      show (if _ then scanner.phase else Phase.program) = .program
      rw [hphase, ite_self]
  induction h with
  | last h _ => exact List.forall_mem_singleton.mpr (hread (readAs_of_read h) hphase).1
  | more h _ _ ih =>
    obtain ⟨hkind, hbehind⟩ := hread (readAs_of_read h) hphase
    exact List.forall_mem_cons.mpr ⟨hkind, ih hbehind⟩

/-- Where no body is next, frontmatter goes on with its closing line, or with the end. -/
theorem Reads.closer (h : Reads scanner tokens) (hphase : scanner.phase = .frontmatter)
    (hrest : scanner.cursor.rest = [] ∨
      (Frontmatter.delimiter? true scanner.cursor.rest).isSome) :
    ∃ (closer : Option Token) (rest : List Token), tokens = closer.toList ++ rest ∧
      (∀ token ∈ closer, token.kind = .frontmatterClose) ∧
      (closer = none ↔ scanner.cursor.rest = []) ∧ (closer = none → rest.map (·.kind) = [.eof]) ∧
      ∀ token ∈ rest, token.kind ∉ Frontmatter.kinds := by
  cases h with
  | @last _ token _ hread hkind =>
    have hend : scanner.cursor.rest = [] := by
      cases readAs_of_read hread with
      | frontmatterEnd _ hnil => exact hnil
      | frontmatterClose | frontmatterBody => cases hkind
      | frontmatterOpen hother | eof hother | lexeme hother => exact absurd hphase hother
    exact ⟨none, [token], rfl, by simp, iff_of_true rfl hend, fun _ => by simp [hkind],
      by simp [hkind, Frontmatter.kinds]⟩
  | @more _ token behind tokens hread hkind htokens =>
    cases readAs_of_read hread with
    | frontmatterEnd => exact absurd rfl hkind
    | frontmatterClose _ hlength =>
      refine ⟨some _, tokens, rfl, ?_, ?_, nofun, htokens.program rfl⟩
      · rintro _ ⟨⟩
        rfl
      · exact iff_of_false (by simp) (delimiter?_pos hlength).1
    | frontmatterBody _ hne hnone =>
      rw [hnone] at hrest
      simp [hne] at hrest
    | frontmatterOpen hother | eof hother | lexeme hother => exact absurd hphase hother

/-- Behind its opening line, frontmatter has a body, a closing line, both or none of them. -/
theorem Reads.body (h : Reads scanner tokens) (hphase : scanner.phase = .frontmatter) :
    ∃ (body closer : Option Token) (rest : List Token),
      tokens = body.toList ++ (closer.toList ++ rest) ∧
      (∀ token ∈ body, Frontmatter.IsBody closer.isSome token) ∧
      (∀ token ∈ closer, token.kind = .frontmatterClose) ∧
      (closer = none → rest.map (·.kind) = [.eof]) ∧
      ∀ token ∈ rest, token.kind ∉ Frontmatter.kinds := by
  by_cases hnext : scanner.cursor.rest = [] ∨
      (Frontmatter.delimiter? true scanner.cursor.rest).isSome
  · obtain ⟨closer, rest, hsplit, hcloser, -, hend, hrest⟩ := h.closer hphase hnext
    exact ⟨none, closer, rest, hsplit, by simp, hcloser, hend, hrest⟩
  rw [not_or, Bool.not_eq_true, Option.isSome_eq_false_iff, Option.isNone_iff_eq_none] at hnext
  obtain ⟨hne, hnone⟩ := hnext
  obtain ⟨found, behind, hread, hreads⟩ : ∃ found behind,
      ReadAs scanner found behind ∧ ∃ others, tokens = found :: others ∧
        (found.kind ≠ .eof → behind.Reads others) := by
    cases h with
    | last hread hkind => exact ⟨_, _, readAs_of_read hread, [], rfl, fun h => absurd hkind h⟩
    | more hread _ htokens => exact ⟨_, _, readAs_of_read hread, _, rfl, fun _ => htokens⟩
  obtain ⟨others, rfl, hreads⟩ := hreads
  cases hread with
  | frontmatterEnd _ hnil => exact absurd hnil hne
  | frontmatterClose _ hlength =>
    rw [hnone] at hlength
    cases hlength
  | frontmatterOpen hother | eof hother | lexeme hother => exact absurd hphase hother
  | frontmatterBody =>
    obtain ⟨body, rest, hsplit, hlength, hgoes, hbehind⟩ :=
      Frontmatter.exists_bodyLength scanner.cursor.rest
    have hpos := bodyLength_pos hne hnone
    rw [hlength] at hreads hpos ⊢
    have htake : scanner.cursor.rest.take body.length = body := by rw [hsplit, List.take_left]
    have hdrop : (scanner.pass body.length).cursor.rest = rest := by
      rw [rest_pass, hsplit, List.drop_left]
    obtain ⟨closer, others, rfl, hcloser, hiff, hend, hothers⟩ :=
      (hreads (by simp [tokenOf])).closer hphase (hdrop ▸ hbehind.imp id fun h => h.2)
    refine ⟨some (scanner.tokenOf .frontmatterBody body.length), closer, others, rfl, ?_, hcloser,
      hend, hothers⟩
    rintro _ ⟨⟩
    have htext : (scanner.tokenOf .frontmatterBody body.length).text.toList = body := by
      rw [tokenOf, String.toList_ofList, htake]
    refine ⟨rfl, fun hempty => ?_, ?_, fun hclosed => ?_⟩
    · rw [hempty] at htext
      rw [← htext] at hpos
      simp at hpos
    · rw [htext]
      exact Frontmatter.not_hasDelimiter_body hgoes (hbehind.imp id fun h => h.1)
    · rw [htext]
      refine (hbehind.resolve_left fun hnil => ?_).1
      rw [hiff.mpr (hdrop.trans hnil)] at hclosed
      simp at hclosed

/-- Frontmatter stands behind line ends and comments only, and no other token belongs to
frontmatter. -/
theorem Reads.frontmatter (h : Reads scanner tokens) (hphase : scanner.phase = .start) :
    ∃ lead block rest, tokens = lead ++ (block ++ rest) ∧
      (∀ token ∈ lead, token.kind ∈ [TokenKind.newline, .comment]) ∧
      (block = [] ∨ Frontmatter.IsBlock block rest) ∧
      ∀ token ∈ rest, token.kind ∉ Frontmatter.kinds := by
  induction h with
  | @last _ token _ _ hkind =>
    exact ⟨[], [], [token], rfl, by simp, .inl rfl, by simp [hkind, Frontmatter.kinds]⟩
  | @more scanner token behind tokens hread hkind htokens ih =>
    cases readAs_of_read hread with
    | frontmatterEnd hother | frontmatterClose hother | frontmatterBody hother =>
      rw [hphase] at hother
      cases hother
    | eof => exact absurd rfl hkind
    | @frontmatterOpen length =>
      obtain ⟨body, closer, rest, rfl, hbody, hcloser, hend, hrest⟩ := htokens.body rfl
      have hopener : (scanner.passGap.tokenOf .frontmatterOpen length).kind = .frontmatterOpen :=
        rfl
      refine ⟨[], _, rest, ?_, by simp, .inr (.intro hopener hbody hcloser hend), hrest⟩
      simp
    | @lexeme lexeme _ _ hlexeme _ =>
      have hbehind : ∀ phase, scanner.passGap.phaseBehind lexeme.kind = phase →
          (if lexeme.kind = .newline ∨ lexeme.kind = .comment then Phase.start else .program) =
            phase := by
        rintro phase rfl
        show _ = if _ then scanner.phase else Phase.program
        rw [hphase]
        simp
      by_cases htrivial : lexeme.kind = .newline ∨ lexeme.kind = .comment
      · rw [if_pos htrivial] at hbehind
        obtain ⟨lead, block, rest, rfl, hlead, hblock, hrest⟩ := ih (hbehind _ rfl).symm
        refine ⟨_ :: lead, block, rest, rfl, List.forall_mem_cons.mpr ⟨?_, hlead⟩, hblock, hrest⟩
        simpa [tokenOf] using htrivial
      · rw [if_neg htrivial] at hbehind
        exact ⟨[], [], _, rfl, by simp, .inl rfl, List.forall_mem_cons.mpr
          ⟨kind_of_lexeme hlexeme, htokens.program (hbehind _ rfl).symm⟩⟩

/-! ### Frontmatter with a source behind it -/

theorem read_of_end (hphase : scanner.phase = .frontmatter) (hrest : scanner.cursor.rest = []) :
    scanner.read = (.ok (scanner.tokenOf .eof 0), { scanner with phase := .program }) := by
  simp only [read, if_pos hphase, readFrontmatter, hrest]

theorem read_of_delimiter? {length : Nat} (hphase : scanner.phase = .frontmatter)
    (hlength : Frontmatter.delimiter? true scanner.cursor.rest = some length) : scanner.read =
      (.ok (scanner.tokenOf .frontmatterClose length),
        { scanner.pass length with phase := .program, previous := some .frontmatterClose }) := by
  obtain ⟨c, text, hrest⟩ := List.exists_cons_of_ne_nil (delimiter?_pos hlength).1
  rw [hrest] at hlength
  simp only [read, if_pos hphase, readFrontmatter, hrest, hlength]

theorem read_of_body (hphase : scanner.phase = .frontmatter) (hne : scanner.cursor.rest ≠ [])
    (hnone : Frontmatter.delimiter? true scanner.cursor.rest = none) : scanner.read =
      (.ok (scanner.tokenOf .frontmatterBody (Frontmatter.bodyLength scanner.cursor.rest)),
        { scanner.pass (Frontmatter.bodyLength scanner.cursor.rest) with
          previous := some .frontmatterBody }) := by
  obtain ⟨c, text, hrest⟩ := List.exists_cons_of_ne_nil hne
  rw [hrest] at hnone
  simp only [read, if_pos hphase, readFrontmatter, hrest, hnone]

/-- A body of whole lines without delimiter lines is read up to the delimiter line behind it. -/
theorem reads_body {source body rest : List Char} (hphase : scanner.phase = .frontmatter)
    (hrest : scanner.cursor.rest = body ++ rest) (hplain : ¬ Frontmatter.HasDelimiter body)
    (hlines : Frontmatter.IsLines body) (hbehind : (Frontmatter.delimiter? true rest).isSome)
    (hplaced : scanner.cursor.IsPlaced source) (hstands : scanner.cursor.StandsIn source) :
    ∃ (block : Option Token) (behind : Scanner), (∀ token ∈ block, token.kind = .frontmatterBody) ∧
      (block.map (·.text)).getD "" = String.ofList body ∧ behind.phase = .frontmatter ∧
      behind.cursor.rest = rest ∧ behind.cursor.IsPlaced source ∧
      behind.cursor.StandsIn source ∧
      ∀ others, behind.Reads others → scanner.Reads (block.toList ++ others) := by
  by_cases hne : body = []
  · subst hne
    exact ⟨none, scanner, by simp, rfl, hphase, hrest, hplaced, hstands, fun others h => h⟩
  have hlength := Frontmatter.bodyLength_append hplain hlines hbehind
  rw [← hrest] at hlength
  have hnone : Frontmatter.delimiter? true scanner.cursor.rest = none := by
    rw [hrest]
    exact Frontmatter.delimiter?_append hplain hlines rfl Frontmatter.isLines_nil hne rest
  have hread := read_of_body hphase (by simp [hrest, hne]) hnone
  rw [hlength] at hread
  obtain ⟨hplaced', hstands'⟩ := place_of_read hread hplaced hstands
  refine ⟨some (scanner.tokenOf .frontmatterBody body.length), _, ?_, ?_, ?_, ?_, hplaced',
    hstands',
    fun others h => .more hread (by simp [tokenOf]) h⟩
  · rintro _ ⟨⟩
    rfl
  · show String.ofList (scanner.cursor.rest.take body.length) = _
    rw [hrest, List.take_left]
  · exact hphase
  · show (scanner.pass body.length).cursor.rest = rest
    rw [rest_pass, hrest, List.drop_left]

/-- A closing line is read, and then what stands behind it as if it stood alone, but for its
place. -/
theorem reads_closing {source tail : List Char} (hphase : scanner.phase = .frontmatter)
    (hrest : scanner.cursor.rest = '-' :: '-' :: '-' :: '\n' :: tail)
    (hplaced : scanner.cursor.IsPlaced (source ++ '\n' :: tail))
    (hstands : scanner.cursor.StandsIn (source ++ '\n' :: tail))
    (htokens : (ofSource tail).tokens? = .ok tokens)
    (hopen : ∀ token ∈ tokens, token.kind ≠ .frontmatterOpen)
    (hmark : tail.head? ≠ some Cursor.byteOrderMark) :
    ∃ closer : Token, closer.kind = .frontmatterClose ∧
      scanner.Reads (closer :: moved (.past source) tokens) := by
  have hlength : Frontmatter.delimiter? true scanner.cursor.rest = some 4 := by
    simp [hrest, Frontmatter.delimiter?]
  have hread := read_of_delimiter? hphase hlength
  obtain ⟨hplaced', hstands'⟩ := place_of_read hread hplaced hstands
  have hrest' : (scanner.pass 4).cursor.rest = tail := by
    rw [rest_pass, hrest]
    rfl
  have hlast : (scanner.pass 4).cursor.last = some '\n' := by
    show (scanner.cursor.advanceBy 4).last = _
    rw [Cursor.last_advanceBy (by decide) (by simp [hrest]), hrest]
    rfl
  have hbefore : Before.Alike ⟨none, none⟩
      ⟨some .frontmatterClose, (scanner.pass 4).cursor.last⟩ := by
    rw [hlast]
    exact ⟨rfl, rfl, rfl⟩
  have hleads : Leads [] (moved (.past source) (ofSource tail))
      { scanner.pass 4 with phase := .program, previous := some .frontmatterClose } :=
    leads_behind hrest' hlast hbefore (.inr rfl) hplaced' hstands' hmark
  exact ⟨scanner.tokenOf .frontmatterClose 4, rfl,
    .more hread (by simp [tokenOf]) (hleads.reads_moved htokens hopen)⟩

/-- The tokens of frontmatter with a source behind it: those of the source follow, further on. -/
theorem tokens?_frontmatter {body tail : List Char} (hplain : ¬ Frontmatter.HasDelimiter body)
    (hlines : Frontmatter.IsLines body) (htokens : (ofSource tail).tokens? = .ok tokens)
    (hopen : ∀ token ∈ tokens, token.kind ≠ .frontmatterOpen)
    (hmark : tail.head? ≠ some Cursor.byteOrderMark) :
    ∃ (opener closer : Token) (block : Option Token), opener.kind = .frontmatterOpen ∧
      (∀ token ∈ block, token.kind = .frontmatterBody) ∧ closer.kind = .frontmatterClose ∧
      (block.map (·.text)).getD "" = String.ofList body ∧
      (ofSource (Frontmatter.enclose body ++ '\n' :: tail)).tokens? = .ok (opener ::
        (block.toList ++ closer :: moved (.past (Frontmatter.enclose body)) tokens)) := by
  have hsource : Frontmatter.enclose body ++ '\n' :: tail =
      '-' :: '-' :: '-' :: '\n' :: (body ++ '-' :: '-' :: '-' :: '\n' :: tail) := by
    simp [Frontmatter.enclose]
  have hstart : ofSource (Frontmatter.enclose body ++ '\n' :: tail) =
      ⟨⟨'-' :: '-' :: '-' :: '\n' :: (body ++ '-' :: '-' :: '-' :: '\n' :: tail), 0, 1, 1, none⟩,
        .start, none, false⟩ := by
    rw [hsource]
    exact ofSource_of_head (by simp [Cursor.byteOrderMark])
  obtain ⟨opener, inner, hread, hopener, hphase, hrest⟩ : ∃ opener inner,
      (ofSource (Frontmatter.enclose body ++ '\n' :: tail)).read = (.ok opener, inner) ∧
        opener.kind = .frontmatterOpen ∧ inner.phase = .frontmatter ∧
        inner.cursor.rest = body ++ '-' :: '-' :: '-' :: '\n' :: tail := by
    rw [hstart]
    exact ⟨_, _, rfl, rfl, rfl, rfl⟩
  obtain ⟨hplaced, hstands⟩ := place_of_read hread (Cursor.isPlaced_ofSource _)
    (Cursor.standsIn_ofSource _)
  obtain ⟨block, close, hblock, htext, hphase, hrest, hplaced, hstands, hreads⟩ :=
    reads_body hphase hrest hplain hlines (by simp [Frontmatter.delimiter?]) hplaced hstands
  obtain ⟨closer, hcloser, hbehind⟩ :=
    reads_closing hphase hrest hplaced hstands htokens hopen hmark
  exact ⟨opener, closer, block, hopener, hblock, hcloser, htext,
    tokens?_of_reads rfl (.more hread (by simp [hopener]) (hreads _ hbehind))⟩

end Scanner

end PipelineLang
