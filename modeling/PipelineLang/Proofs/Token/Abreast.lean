import PipelineLang.Proofs.Token.Frontmatter
import PipelineLang.Proofs.Token.Recurring
import PipelineLang.Proofs.Token.Resumption

/-!
# Scanners that are abreast

Two sources that have a part in common are read alike in that part, whatever comes behind it, as
long as no token goes on there.

## Main definitions

- `Swap` — a text may be put in the place of another one behind a token
- `Scanner.Abreast` — two scanners that read the same characters next
- `Scanner.StartsAt` — the rest of a text from a token on
- `Scanner.ReadsAlike` — one scanner reads what leads the other one on

## Main results

- `Scanner.Abreast.read` — two such scanners read the same token
- `Scanner.Abreast.passes` — and the same tokens, up to where the texts differ
- `Scanner.Abreast.reads` — and up to the end, where they do not

## Design notes

What is compared of two tokens is their kind and their text. They may stand at different places,
and what is behind the common part may be of any length in either source.
-/

namespace PipelineLang

variable {front back back' : List Char}

/-! ### Texts that go on in different ways -/

namespace Gap

theorem continuation?_blanks {blanks : List Char} (h : ∀ c ∈ blanks, Ascii.isBlank c)
    (rest : List Char) : continuation? (blanks ++ '\n' :: rest) = some (blanks.length + 1) := by
  induction blanks with
  | nil => rfl
  | cons c blanks ih =>
    rw [List.forall_mem_cons] at h
    have hline : c ≠ '\n' := by
      rintro rfl
      exact absurd h.1 (by decide)
    rw [List.cons_append, continuation?, if_neg hline, if_pos h.1, ih h.2, Option.map_some,
      List.length_cons, Nat.add_comm]

/-- A gap goes on with a gap. -/
theorem length_append_of_isGap {gap : List Char} (h : IsGap gap) (rest : List Char) :
    length (gap ++ rest) = gap.length + length rest := by
  induction h with
  | nil => exact (Nat.zero_add _).symm
  | @blank c gap hc _ ih =>
    rw [List.cons_append, length, lengthFrom, if_pos hc, ← length, ih, List.length_cons]
    omega
  | @continuation blanks gap hblanks _ ih =>
    have hle : blanks.length + 1 ≤ (blanks ++ '\n' :: (gap ++ rest)).length := by simp
    have hdrop : (blanks ++ '\n' :: (gap ++ rest)).drop (blanks.length + 1) = gap ++ rest := by
      rw [← List.drop_drop, List.drop_left]
      rfl
    have hsplit : '\\' :: (blanks ++ '\n' :: gap) ++ rest =
        '\\' :: (blanks ++ '\n' :: (gap ++ rest)) := by simp
    rw [hsplit, length, lengthFrom, if_neg (by decide), if_pos rfl, continuation?_blanks hblanks]
    dsimp only
    rw [lengthFrom_of_le hle, hdrop, ih]
    simp only [List.length_cons, List.length_append]
    omega

/-- No gap starts with another character than a blank or a backslash. -/
theorem length_of_head {c : Char} (hc : c ∉ [' ', '\t', '\r', '\\']) (rest : List Char) :
    length (c :: rest) = 0 := by
  simp only [List.mem_cons, List.not_mem_nil, or_false, not_or] at hc
  rw [length, lengthFrom, if_neg (by simp [Ascii.isBlank, hc]), if_neg hc.2.2.2]

/-- A gap that ends before another character is the same one whatever is behind it. -/
theorem length_within {c : Char} {rest : List Char}
    (h : front.drop (length (front ++ back)) = c :: rest) (hc : c ∉ [' ', '\t', '\r', '\\']) :
    length (front ++ back') = length (front ++ back) := by
  have hgap := isGap_take_length (front ++ back)
  generalize length (front ++ back) = n at h hgap ⊢
  have hle : n ≤ front.length := by
    by_contra hlt
    rw [List.drop_of_length_le (Nat.le_of_not_le hlt)] at h
    simp at h
  rw [List.take_append_of_le_length hle] at hgap
  calc length (front ++ back')
      = length (front.take n ++ (c :: (rest ++ back'))) := by
        rw [← List.cons_append, ← h, ← List.append_assoc, List.take_append_drop]
    _ = n := by
        rw [length_append_of_isGap hgap, length_of_head hc, List.length_take,
          Nat.min_eq_left hle, Nat.add_zero]

end Gap

namespace Frontmatter

/-- A delimiter line with its end is one whatever is behind it. -/
theorem delimiter?_within {endsLine : Bool} {n : Nat}
    (h : delimiter? endsLine (front ++ back) = some n) (hle : n ≤ front.length)
    (hnil : back = [] → back' = []) : delimiter? endsLine (front ++ back') = some n := by
  by_cases hback : back = []
  · obtain rfl := hnil hback
    rwa [hback] at h
  rw [delimiter?_eq_some] at h ⊢
  obtain ⟨line, behind, hsplit, rfl, hline, hends⟩ := h
  -- The line lies within `front`. If it has no end, nothing is behind it.
  obtain ⟨more, rfl⟩ : line <+: front :=
    List.prefix_of_prefix_length_le ⟨behind, hsplit.symm⟩ (List.prefix_append _ _) hle
  rw [List.append_assoc, List.append_cancel_left_eq] at hsplit
  obtain ⟨-, -, -, hany⟩ | ⟨hnone, -⟩ := hline.cases
  · exact ⟨line, more ++ back', List.append_assoc _ _ _, rfl, hany _, hends⟩
  · rw [hnone] at hsplit
    exact absurd (List.append_eq_nil_iff.mp hsplit).2 hback

/-- The body of frontmatter goes on up to the delimiter line behind it, whatever is behind
that. -/
theorem bodyLength_within (back' : List Char)
    (hnone : delimiter? true (front ++ back) = none) (hne : front ++ back ≠ [])
    (hle : bodyLength (front ++ back) ≤ front.length) (hnil : back = [] → back' = [])
    (hclose : back ≠ [] →
      (delimiter? true (front.drop (bodyLength (front ++ back)) ++ back')).isSome) :
    front ++ back' ≠ [] ∧ delimiter? true (front ++ back') = none ∧
      bodyLength (front ++ back') = bodyLength (front ++ back) := by
  by_cases hback : back = []
  · obtain rfl := hnil hback
    rw [hback] at hne hnone ⊢
    exact ⟨hne, hnone, rfl⟩
  have hpos := Scanner.bodyLength_pos hne hnone
  obtain ⟨body, rest, hsplit, hlength, hgoes, hrest⟩ := exists_bodyLength (front ++ back)
  rw [hlength] at hle hclose hpos ⊢
  have hbody : front.take body.length = body := by
    rw [← List.take_append_of_le_length hle, hsplit, List.take_left]
  have hrest' : rest ≠ [] := by
    rintro rfl
    have hlengths := congrArg List.length hsplit
    rw [List.length_append, List.append_nil] at hlengths
    exact hback (List.eq_nil_of_length_eq_zero (by omega))
  have hlines := (hrest.resolve_left hrest').1
  have hplain := not_hasDelimiter_body hgoes (.inr hlines)
  have htext : front ++ back' = body ++ (front.drop body.length ++ back') := by
    calc front ++ back' = front.take body.length ++ front.drop body.length ++ back' := by
          rw [List.take_append_drop]
      _ = body ++ (front.drop body.length ++ back') := by rw [hbody, List.append_assoc]
  have hbody' : body ≠ [] := List.ne_nil_of_length_pos hpos
  rw [htext]
  refine ⟨by simp [hbody'], ?_, bodyLength_append hplain hlines (hclose hback)⟩
  exact delimiter?_append hplain hlines rfl isLines_nil hbody' _

end Frontmatter

/-! ### Paths that are addresses -/

namespace Lexeme

variable {before : Before} {text : List Char} {lexeme : Lexeme}

/-- Blanks do not tell of a pattern, and do not hide one. -/
theorem endsPattern_blanks {blanks : List Char} (h : ∀ c ∈ blanks, c = ' ' ∨ c = '\t')
    (rest : List Char) : endsPattern (blanks ++ rest) = endsPattern rest := by
  have hall : ∀ c ∈ blanks, (c == ' ' || c == '\t') = true := by simpa using h
  rw [endsPattern, endsPattern, List.dropWhile_append_of_pos hall]

/-- Behind blanks no address goes on, and nothing is called. -/
theorem goesOn_blanks {blanks : List Char} (h : ∀ c ∈ blanks, c = ' ' ∨ c = '\t')
    (hback : Stops back) : GoesOn (blanks ++ back) ∧ (blanks ++ back).head? ≠ some '(' := by
  cases blanks with
  | nil =>
    refine ⟨⟨hback.head (by decide), fun c tail heq => ?_, fun tail => ?_⟩, fun heq => ?_⟩
    · exact absurd (hback.mem ':' (congrArg List.head? heq)) (by decide)
    · exact hback.digit '/' tail (.inr rfl)
    · exact absurd (hback.mem '(' heq) (by decide)
  | cons c blanks =>
    have hc := h c List.mem_cons_self
    have hparted : Parted (c :: blanks ++ back) := by
      refine ⟨c, blanks ++ back, rfl, .inl ?_⟩
      obtain rfl | rfl := hc <;> decide
    refine ⟨hparted.goesOn, ?_⟩
    obtain rfl | rfl := hc <;> simp

/-- No reserved word has a digit. -/
theorem keyword?_of_digit {word : List Char} (h : word.any Char.isDigit) :
    TokenKind.keyword? (String.ofList word) = none := by
  rw [Option.eq_none_iff_forall_not_mem]
  intro kind hkind
  obtain ⟨front, back, hkeywords, -⟩ := List.lookup_eq_some_iff.mp hkind
  have hletters : ∀ entry ∈ TokenKind.keywords, entry.1.toList.any Char.isDigit = false := by decide
  have hnone := hletters (String.ofList word, kind) (by rw [hkeywords]; simp)
  rw [String.toList_ofList, h] at hnone
  cases hnone

/-- A path that would be an address in other places is read as a path where a statement starts,
unless it is a pattern there. -/
theorem kind_of_isPathAddress (h : recognize before (text ++ back) = .ok lexeme)
    (hpath : IsPathAddress text) (hback : Stops back) :
    lexeme.kind =
      if before.previous.all statementOpeners.contains && !endsPattern back then .identifier
      else .ip := by
  obtain ⟨first, second, blanks, rfl, hfirst, hsecond, hpair, hblanks⟩ := hpath
  have hsplit : first ++ ':' :: ':' :: (second ++ blanks) ++ back =
      first ++ ':' :: ':' :: (second ++ (blanks ++ back)) := by simp
  obtain ⟨hrest, hcall⟩ := goesOn_blanks hblanks hback
  have hnames : namesOperator before (blanks ++ back) =
      (before.previous.all statementOpeners.contains && !endsPattern back) := by
    rw [namesOperator_eq, endsPattern_blanks hblanks, beq_eq_false_iff_ne.mpr hcall,
      Bool.false_or]
  rw [hsplit] at h
  rw [← hnames]
  cases hoperator : namesOperator before (blanks ++ back) with
  | true =>
    have hread : recognize before _ = .ok _ :=
      recognizeWith_path hfirst hsecond hrest fun _ => hoperator
    obtain rfl := Except.ok.inj (hread.symm.trans h)
    rw [keyword?_of_digit hpair.2.2]
    rfl
  | false =>
    have hread : recognize before _ = .ok _ :=
      recognizeWith_pair hfirst hsecond hpair hrest hoperator
    rw [List.append_assoc, List.cons_append, List.cons_append] at hread
    obtain rfl := Except.ok.inj (hread.symm.trans h)
    rfl

end Lexeme

/-! ### What may be behind a token -/

/-- Behind a token, the text `back'` may be put in the place of `back`. No token goes on with
either of them, and `back` makes no pattern of a path. -/
structure Swap (back back' : List Char) : Prop where
  spares : ∀ before text, Spares before text back
  mem : ∀ c ∈ back'.head?, c ∈ breakers
  slash : back'.head? ≠ some '/'
  lines : ∀ line, (Lexeme.ofLineComment (line ++ back)).length ≤ line.length →
    Lexeme.ofLineComment (line ++ back') = Lexeme.ofLineComment (line ++ back)
  nil : back = [] → back' = []

theorem swap_nil : Swap [] [] where
  spares _ := lined_nil.breaks.spares
  mem := nofun
  slash := nofun
  lines _ _ := rfl
  nil h := h

/-- A token is the same one if what is behind it is swapped, unless that makes a pattern of a
path. -/
theorem Swap.recognize {before before' : Before} {lexeme : Lexeme} (h : Swap back back')
    (halike : before.Alike before') (hne : front ≠ [])
    (hlexeme : Lexeme.recognize before (front ++ back) = .ok lexeme)
    (hle : lexeme.length ≤ front.length)
    (hpattern : lexeme.kind = .identifier → IsPathAddress front →
      Lexeme.endsPattern back' = false) :
    Lexeme.recognize before' (front ++ back') = .ok lexeme := by
  have hspares := h.spares before front
  have hspares' : Spares before' front back' := by
    refine ⟨h.mem, fun tail heq => absurd (by rw [heq]; rfl) h.slash, fun hopens hpath => ?_⟩
    rw [← halike.opens] at hopens
    refine hpattern ?_ hpath
    rw [Lexeme.kind_of_isPathAddress hlexeme hpath hspares.stops, hopens,
      hspares.pattern hopens hpath]
    rfl
  exact Lexeme.recognizeWith_within (Lexeme.agrees_replacement (Nat.le_refl _)) halike hne hspares
    hspares' h.slash (h.lines front) hlexeme hle

/-- Columns are counted from one, and only lines start in the first one. -/
structure Cursor.CountsColumns (here : Cursor) : Prop where
  pos : 0 < here.column
  first : here.column = 1 ↔ here.atLineStart

namespace Cursor

theorem countsColumns_ofSource (source : List Char) : (ofSource source).CountsColumns := by
  cases source with
  | nil => exact ⟨Nat.one_pos, by decide⟩
  | cons c source =>
    rw [ofSource]
    split <;> exact ⟨Nat.one_pos, iff_of_true rfl rfl⟩

theorem CountsColumns.advanceBy {here : Cursor} (h : here.CountsColumns) (n : Nat) :
    (here.advanceBy n).CountsColumns := by
  induction n generalizing here with
  | zero => exact h
  | succ n ih =>
    refine ih ?_
    unfold advance
    split
    · exact h
    · split
      · next hline => exact ⟨Nat.one_pos, iff_of_true rfl (by simp [atLineStart, hline])⟩
      · next hline =>
        have hpos := h.pos
        exact ⟨Nat.succ_pos _, iff_of_false (by dsimp only; omega) (by simp [atLineStart, hline])⟩

end Cursor

/-! ### Scanners that are abreast -/

namespace Scanner

variable {one other behind : Scanner} {token : Token}

/-- Two scanners that have `front` before them, and behind them what reads alike. What comes
behind `front` may differ. -/
structure Abreast (front back back' : List Char) (one other : Scanner) : Prop where
  rest : one.cursor.rest = front ++ back
  rest' : other.cursor.rest = front ++ back'
  phase : other.phase = one.phase
  before : one.before.Alike other.before
  lineStart : one.cursor.atLineStart = other.cursor.atLineStart

/-- A token starts where `line` is left of the text `front` at a cursor. -/
def StartsAt (here : Cursor) (front line : List Char) (token : Token) : Prop :=
  ∃ skipped, front = skipped ++ line ∧ token.span.start = here.offset + byteCount skipped

/-- A scanner reads the kind and the text of `token`, which leads from `one` to `behind`, and is
abreast of `behind` then. -/
def ReadsAlike (front back back' : List Char) (one other : Scanner) (token : Token)
    (behind : Scanner) : Prop :=
  ∃ token' behind', other.read = (.ok token', behind') ∧ token'.word = token.word ∧
    ∃ n ≤ front.length, behind.cursor = one.cursor.advanceBy n ∧
      Abreast (front.drop n) back back' behind behind'

namespace Abreast

theorem take (h : Abreast front back back' one other) {n : Nat} (hle : n ≤ front.length) :
    other.cursor.rest.take n = one.cursor.rest.take n := by
  rw [h.rest, h.rest', List.take_append_of_le_length hle, List.take_append_of_le_length hle]

theorem drop (h : Abreast front back back' one other) {n : Nat} (hle : n ≤ front.length) :
    one.cursor.rest.drop n = front.drop n ++ back := by
  rw [h.rest, List.drop_append_of_le_length hle]

theorem word (h : Abreast front back back' one other) (kind : TokenKind) {n : Nat}
    (hle : n ≤ front.length) : (other.tokenOf kind n).word = (one.tokenOf kind n).word := by
  simp only [Token.word, tokenOf, h.take hle]

theorem pass (h : Abreast front back back' one other) {n : Nat} (hle : n ≤ front.length) :
    Abreast (front.drop n) back back' (one.pass n) (other.pass n) := by
  have hle₁ : n ≤ one.cursor.rest.length := by
    rw [h.rest, List.length_append]
    omega
  have hle₂ : n ≤ other.cursor.rest.length := by
    rw [h.rest', List.length_append]
    omega
  refine ⟨?_, ?_, h.phase, ?_, ?_⟩
  · rw [rest_pass, h.drop hle]
  · rw [rest_pass, h.rest', List.drop_append_of_le_length hle]
  · rw [before_pass hle₁, before_pass hle₂, h.rest, h.rest', Before.pass_append hle,
      Before.pass_append hle]
    exact h.before.pass _ _
  · obtain rfl | hpos := Nat.eq_zero_or_pos n
    · exact h.lineStart
    · refine Cursor.atLineStart_eq ?_
      show (one.cursor.advanceBy n).last = (other.cursor.advanceBy n).last
      have hlt : n - 1 < front.length := by omega
      rw [Cursor.last_advanceBy hpos hle₁, Cursor.last_advanceBy hpos hle₂, h.rest, h.rest',
        List.drop_append_of_le_length (Nat.le_of_lt hlt),
        List.drop_append_of_le_length (Nat.le_of_lt hlt), List.drop_eq_getElem_cons hlt]
      rfl

theorem passLexeme (h : Abreast front back back' one other) {lexeme : Lexeme}
    (hle : lexeme.length ≤ front.length) :
    Abreast (front.drop lexeme.length) back back' (one.passLexeme lexeme)
      (other.passLexeme lexeme) := by
  have hpass := h.pass hle
  have hle₁ : lexeme.length ≤ one.cursor.rest.length := by
    rw [h.rest, List.length_append]
    omega
  have hle₂ : lexeme.length ≤ other.cursor.rest.length := by
    rw [h.rest', List.length_append]
    omega
  refine ⟨hpass.rest, hpass.rest', ?_, ?_, hpass.lineStart⟩
  · show other.phaseBehind lexeme.kind = one.phaseBehind lexeme.kind
    rw [phaseBehind, phaseBehind, h.phase]
  · rw [before_passLexeme hle₁, before_passLexeme hle₂, h.rest, h.rest',
      Before.passToken_append hle, Before.passToken_append hle]
    exact h.before.passToken _ _

theorem offset_advanceBy (h : Abreast front back back' one other) {n : Nat}
    (hle : n ≤ front.length) :
    (one.cursor.advanceBy n).offset = one.cursor.offset + byteCount (front.take n) := by
  rw [Cursor.offset_advanceBy, h.rest, List.take_append_of_le_length hle]

theorem startsAt (h : Abreast front back back' one other) (kind : TokenKind) {gap : Nat}
    (length : Nat) (hle : gap ≤ front.length) :
    StartsAt one.cursor front (front.drop gap) ((one.pass gap).tokenOf kind length) :=
  ⟨_, (List.take_append_drop gap front).symm, h.offset_advanceBy hle⟩

/-- Where a token starts does not depend on how much of the text has been passed. -/
theorem startsAt_of_advanceBy (h : Abreast front back back' one other) {n : Nat}
    (hle : n ≤ front.length) {here : Cursor} (hhere : here = one.cursor.advanceBy n)
    {line : List Char} (hstarts : StartsAt here (front.drop n) line token) :
    StartsAt one.cursor front line token := by
  obtain ⟨skipped, hline, hstart⟩ := hstarts
  refine ⟨front.take n ++ skipped, ?_, ?_⟩
  · rw [List.append_assoc, ← hline, List.take_append_drop]
  · rw [hstart, hhere, h.offset_advanceBy hle, byteCount_append, Nat.add_assoc]

/-- A gap that ends before a character that `front` has is the same one for both. -/
theorem passGap (h : Abreast front back back' one other) {c : Char} {rest : List Char}
    (hdrop : front.drop (Gap.length one.cursor.rest) = c :: rest)
    (hc : c ∉ [' ', '\t', '\r', '\\']) :
    Abreast (c :: rest) back back' one.passGap other.passGap := by
  have hgap : Gap.length other.cursor.rest = Gap.length one.cursor.rest := by
    rw [h.rest] at hdrop ⊢
    rw [h.rest', Gap.length_within hdrop hc]
  have hle : Gap.length one.cursor.rest ≤ front.length := by
    by_contra hlt
    rw [List.drop_of_length_le (Nat.le_of_not_le hlt)] at hdrop
    simp at hdrop
  rw [Scanner.passGap, Scanner.passGap, hgap, ← hdrop]
  exact h.pass hle

/-- A part of the text that ends before `back` ends within `front`. -/
theorem le_length (h : Abreast front back back' one other) {n : Nat}
    (hn : n ≤ one.cursor.rest.length) (hle : back.length ≤ (one.cursor.rest.drop n).length) :
    n ≤ front.length := by
  rw [h.rest, List.length_append] at hn
  rw [h.rest, List.length_drop, List.length_append] at hle
  omega

/-- Where a token is behind the gap, and ends before `back`, the gap is the same one. -/
theorem behindGap (h : Abreast front back back' one other) {n : Nat} (hpos : 0 < n)
    (hn : n ≤ one.passGap.cursor.rest.length)
    (hle : back.length ≤ (one.passGap.pass n).cursor.rest.length)
    (hhead : ∀ c ∈ one.passGap.cursor.rest.head?, c ∉ [' ', '\t', '\r', '\\']) :
    Gap.length one.cursor.rest + n ≤ front.length ∧
      Abreast (front.drop (Gap.length one.cursor.rest)) back back' one.passGap other.passGap := by
  have hgap := Gap.length_le one.cursor.rest
  rw [rest_pass, rest_passGap, List.drop_drop] at hle
  rw [rest_passGap, List.length_drop] at hn
  have hwithin := h.le_length (by omega) hle
  have hlt : Gap.length one.cursor.rest < front.length := by omega
  have hdrop := List.drop_eq_getElem_cons hlt
  refine ⟨hwithin, ?_⟩
  rw [hdrop]
  refine h.passGap hdrop (hhead _ ?_)
  rw [rest_passGap, h.drop (Nat.le_of_lt hlt), hdrop]
  rfl

theorem behindGap_lexeme (h : Abreast front back back' one other) {lexeme : Lexeme}
    (hlexeme : Lexeme.recognize one.passGap.before one.passGap.cursor.rest = .ok lexeme)
    (hkind : lexeme.kind ≠ .eof)
    (hle : back.length ≤ (one.passGap.passLexeme lexeme).cursor.rest.length) :
    Gap.length one.cursor.rest + lexeme.length ≤ front.length ∧
      Abreast (front.drop (Gap.length one.cursor.rest)) back back' one.passGap other.passGap := by
  have hrecognized := Lexeme.recognized_of_ok hlexeme
  refine h.behindGap (hrecognized.length_pos hkind).2 hrecognized.length_le hle ?_
  intro c hc hmem
  obtain ⟨rest, hrest⟩ := List.head?_eq_some_iff.mp hc
  rw [hrest] at hlexeme
  exact Lexeme.recognizeWith_gap hmem hlexeme

theorem read_close (h : Abreast front back back' one other) (hphase : one.phase = .frontmatter)
    {length : Nat} (hlength : Frontmatter.delimiter? true one.cursor.rest = some length)
    (hnil : back = [] → back' = []) (hle : back.length ≤ (one.pass length).cursor.rest.length) :
    ReadsAlike front back back' one other (one.tokenOf .frontmatterClose length)
      { one.pass length with phase := .program, previous := some .frontmatterClose } := by
  have hwithin := h.le_length (Frontmatter.delimiter?_le hlength) (by rwa [← rest_pass])
  have hpass := h.pass hwithin
  have hlength' : Frontmatter.delimiter? true other.cursor.rest = some length := by
    rw [h.rest] at hlength
    rw [h.rest', Frontmatter.delimiter?_within hlength hwithin hnil]
  exact ⟨_, _, read_of_delimiter? (h.phase.trans hphase) hlength', h.word _ hwithin, length,
    hwithin, rfl, hpass.rest, hpass.rest', rfl, ⟨rfl, rfl, hpass.before.last⟩, hpass.lineStart⟩

/-- Both read the same body of frontmatter if it ends before a delimiter line for both. -/
theorem read_body (h : Abreast front back back' one other) (hphase : one.phase = .frontmatter)
    (hne : one.cursor.rest ≠ []) (hnone : Frontmatter.delimiter? true one.cursor.rest = none)
    (hnil : back = [] → back' = [])
    (hle : back.length ≤
      (one.pass (Frontmatter.bodyLength one.cursor.rest)).cursor.rest.length)
    (hclose : back ≠ [] → ∀ rest,
      (one.pass (Frontmatter.bodyLength one.cursor.rest)).cursor.rest = rest ++ back →
        (Frontmatter.delimiter? true (rest ++ back')).isSome) :
    ReadsAlike front back back' one other
      (one.tokenOf .frontmatterBody (Frontmatter.bodyLength one.cursor.rest))
      { one.pass (Frontmatter.bodyLength one.cursor.rest) with
        previous := some .frontmatterBody } := by
  have hwithin := h.le_length (Frontmatter.bodyLength_le _) (by rwa [← rest_pass])
  have hpass := h.pass hwithin
  -- Nothing but the delimiter line behind the body tells that the body ends there.
  have hclose' := fun hback => hclose hback _ hpass.rest
  rw [h.rest] at hne hnone
  obtain ⟨hne', hnone', hlength'⟩ := Frontmatter.bodyLength_within back' hnone hne
    (by rwa [← h.rest]) hnil (by rwa [← h.rest])
  rw [← h.rest'] at hne' hnone' hlength'
  rw [← h.rest] at hlength'
  have hread' := read_of_body (h.phase.trans hphase) hne' hnone'
  rw [hlength'] at hread'
  exact ⟨_, _, hread', h.word _ hwithin, _, hwithin, rfl, hpass.rest, hpass.rest', h.phase,
    ⟨rfl, rfl, hpass.before.last⟩, hpass.lineStart⟩

theorem read_open (h : Abreast front back back' one other) (hphase : one.phase ≠ .frontmatter)
    {length : Nat} (hlength : one.passGap.opening? = some length)
    (hnil : back = [] → back' = [])
    (hle : back.length ≤ (one.passGap.pass length).cursor.rest.length) :
    ReadsAlike front back back' one other (one.passGap.tokenOf .frontmatterOpen length)
      { one.passGap.pass length with phase := .frontmatter } := by
  obtain ⟨hopens, hdelimiter⟩ := Option.ite_none_right_eq_some.mp hlength
  obtain ⟨line, rest, hsplit, rfl, hline, -⟩ := Frontmatter.delimiter?_eq_some.mp hdelimiter
  have hpos := List.length_pos_iff.mpr hline.ne_nil
  obtain ⟨hwithin, habreast⟩ := h.behindGap hpos (by simp [hsplit]) hle fun c hc hmem => by
    obtain ⟨blanks, ending, rfl, -⟩ := hline
    obtain rfl : '-' = c := by simpa [hsplit] using hc
    simp at hmem
  have hle' : line.length ≤ (front.drop (Gap.length one.cursor.rest)).length := by
    rw [List.length_drop]
    omega
  have hopening' : other.passGap.opening? = some line.length := by
    rw [habreast.rest] at hdelimiter
    rw [opening?, habreast.phase, ← habreast.lineStart, hopens, habreast.rest']
    exact Frontmatter.delimiter?_within hdelimiter hle' hnil
  have hpass := habreast.pass hle'
  refine ⟨other.passGap.tokenOf .frontmatterOpen line.length,
    { other.passGap.pass line.length with phase := .frontmatter }, ?_, habreast.word _ hle', _,
    hwithin, (Cursor.advanceBy_add _ _ _).symm, ?_⟩
  · simp only [Scanner.read, if_neg (h.phase ▸ hphase), hopening']
  · rw [← List.drop_drop]
    exact ⟨hpass.rest, hpass.rest', rfl, hpass.before, hpass.lineStart⟩

theorem read_lexeme (h : Abreast front back back' one other) (hswap : Swap back back')
    {lexeme : Lexeme} (hphase : one.phase ≠ .frontmatter)
    (hlexeme : Lexeme.recognize one.passGap.before one.passGap.cursor.rest = .ok lexeme)
    (hkind : lexeme.kind ≠ .eof)
    (hle : back.length ≤ (one.passGap.passLexeme lexeme).cursor.rest.length)
    (hopening : other.passGap.opening? = none)
    (hpattern : lexeme.kind = .identifier → ∀ line,
      StartsAt one.cursor front line (one.passGap.tokenOf lexeme.kind lexeme.length) →
        IsPathAddress line → Lexeme.endsPattern back' = false) :
    ReadsAlike front back back' one other (one.passGap.tokenOf lexeme.kind lexeme.length)
      (one.passGap.passLexeme lexeme) := by
  obtain ⟨hwithin, habreast⟩ := h.behindGap_lexeme hlexeme hkind hle
  have hle' : lexeme.length ≤ (front.drop (Gap.length one.cursor.rest)).length := by
    rw [List.length_drop]
    omega
  have hpos := ((Lexeme.recognized_of_ok hlexeme).length_pos hkind).2
  have hne := List.ne_nil_of_length_pos (Nat.lt_of_lt_of_le hpos hle')
  have hstarts := h.startsAt lexeme.kind lexeme.length (Nat.le_of_add_right_le hwithin)
  have hlexeme' : Lexeme.recognize other.passGap.before other.passGap.cursor.rest = .ok lexeme := by
    rw [habreast.rest] at hlexeme
    rw [habreast.rest']
    exact hswap.recognize habreast.before hne hlexeme hle' fun hname => hpattern hname _ hstarts
  refine ⟨other.passGap.tokenOf lexeme.kind lexeme.length, other.passGap.passLexeme lexeme, ?_,
    habreast.word _ hle', _, hwithin, (Cursor.advanceBy_add _ _ _).symm, ?_⟩
  · rw [read_of_opening? (by rw [h.phase]; exact hphase) hopening,
      readProgram_of_lexeme hlexeme' hkind]
  · have hpass := habreast.passLexeme hle'
    rwa [List.drop_drop] at hpass

/-- Both read the same token, if it ends before `back`, if no frontmatter opens for one of them
only, if no path becomes a pattern, and if the body of frontmatter ends for both. -/
theorem read (h : Abreast front back back' one other) (hswap : Swap back back')
    (hread : ReadAs one token behind) (hkind : token.kind ≠ .eof)
    (hle : back.length ≤ behind.cursor.rest.length)
    (hopening : one.passGap.opening? = none → other.passGap.opening? = none)
    (hpattern : token.kind = .identifier → ∀ line, StartsAt one.cursor front line token →
      IsPathAddress line → Lexeme.endsPattern back' = false)
    (hclose : back ≠ [] → behind.phase = .frontmatter → token.kind = .frontmatterBody →
      ∀ rest, behind.cursor.rest = rest ++ back →
        (Frontmatter.delimiter? true (rest ++ back')).isSome) :
    ReadsAlike front back back' one other token behind := by
  cases hread with
  | frontmatterEnd | eof => exact absurd rfl hkind
  | frontmatterClose hphase hlength => exact h.read_close hphase hlength hswap.nil hle
  | frontmatterBody hphase hne hnone =>
    exact h.read_body hphase hne hnone hswap.nil hle fun hback => hclose hback hphase rfl
  | frontmatterOpen hphase hlength => exact h.read_open hphase hlength hswap.nil hle
  | lexeme hphase hnone hlexeme hkind =>
    exact h.read_lexeme hswap hphase hlexeme hkind hle (hopening hnone) hpattern

/-- No frontmatter opens for one of them only, unless a dash that is the first token, at the
start of its line, is the start of a delimiter line for the other one. -/
theorem opening?_eq_none (h : Abreast front back back' one other) (hread : ReadAs one token behind)
    (hkind : token.kind ≠ .eof) (hle : back.length ≤ behind.cursor.rest.length)
    (hcolumn : one.cursor.CountsColumns)
    (hdash : one.phase = .start → token.kind = .minus → token.span.column = 1 →
      ∀ line, StartsAt one.cursor front line token →
        Frontmatter.delimiter? false (line ++ back') = none)
    (hnone : one.passGap.opening? = none) : other.passGap.opening? = none := by
  by_cases hstart : one.phase = .start
  swap
  · exact opening?_of_phase (by show other.phase ≠ .start; rwa [h.phase])
  cases hread with
  | frontmatterEnd | eof => exact absurd rfl hkind
  | frontmatterClose hphase | frontmatterBody hphase =>
    rw [hstart] at hphase
    cases hphase
  | frontmatterOpen _ hlength =>
    rw [hnone] at hlength
    cases hlength
  | @lexeme lexeme hphase _ hlexeme hkind =>
    obtain ⟨hwithin, habreast⟩ := h.behindGap_lexeme hlexeme hkind hle
    by_cases hhead : other.passGap.cursor.rest.head? = some '-'
    swap
    · exact opening?_of_head hhead
    by_cases hline : one.passGap.cursor.atLineStart
    swap
    · rw [opening?, ← habreast.lineStart, if_neg (by simp [hline])]
    -- Both stand before a dash at the start of a line, and the first one reads it as a token.
    have hpos := ((Lexeme.recognized_of_ok hlexeme).length_pos hkind).2
    have hlt : Gap.length one.cursor.rest < front.length := by omega
    have hminus : lexeme.kind = .minus := by
      rw [habreast.rest, List.drop_eq_getElem_cons hlt, List.cons_append] at hlexeme
      rw [habreast.rest', List.drop_eq_getElem_cons hlt, List.cons_append, List.head?_cons,
        Option.some.injEq] at hhead
      rw [hhead] at hlexeme
      exact Lexeme.recognize_dash hlexeme
    have hdelimiter := hdash hstart hminus ((hcolumn.advanceBy _).first.mpr hline) _
      (h.startsAt _ _ (Nat.le_of_lt hlt))
    rw [← habreast.rest'] at hdelimiter
    rw [opening?, hdelimiter, ite_self]

end Abreast

/-! ### The tokens of scanners that are abreast -/

variable {last : Scanner} {tokens : List Token}

theorem Passes.length_le (h : Passes one tokens last) :
    last.cursor.rest.length ≤ one.cursor.rest.length := by
  obtain ⟨n, hn⟩ := h.cursor
  rw [hn, Cursor.rest_advanceBy, List.length_drop]
  exact Nat.sub_le _ _

/-- The body of frontmatter ends at the end of the source or at a delimiter line. -/
theorem ReadAs.closes (h : ReadAs one token behind) (hkind : token.kind = .frontmatterBody) :
    behind.cursor.rest = [] ∨ (Frontmatter.delimiter? true behind.cursor.rest).isSome := by
  cases h with
  | frontmatterEnd | frontmatterClose | frontmatterOpen | eof => cases hkind
  | @lexeme lexeme _ _ hlexeme =>
    have hbody : lexeme.kind = .frontmatterBody := hkind
    exact absurd (by rw [hbody]; decide) (kind_of_lexeme hlexeme)
  | frontmatterBody =>
    obtain ⟨body, rest, hsplit, hlength, -, hrest⟩ := Frontmatter.exists_bodyLength one.cursor.rest
    have hbehind : (one.pass (Frontmatter.bodyLength one.cursor.rest)).cursor.rest = rest := by
      rw [rest_pass, hlength, hsplit, List.drop_left]
    exact hrest.imp hbehind.trans fun h => hbehind ▸ h.2

/-- A delimiter line that closes frontmatter before `back` closes it whatever is there. -/
theorem Passes.closes (h : Passes one tokens last) (hphase : one.phase = .frontmatter)
    (hout : last.phase ≠ .frontmatter)
    (hdelimiter : (Frontmatter.delimiter? true one.cursor.rest).isSome)
    (hrest : one.cursor.rest = front ++ back) (hle : back.length ≤ last.cursor.rest.length)
    (hnil : back = [] → back' = []) : (Frontmatter.delimiter? true (front ++ back')).isSome := by
  cases h with
  | nil => exact absurd hphase hout
  | @cons _ mid _ token tokens hread _ htokens =>
    cases hread with
    | frontmatterEnd _ hend =>
      rw [hend] at hdelimiter
      cases hdelimiter
    | frontmatterBody _ _ hnone =>
      rw [hnone] at hdelimiter
      cases hdelimiter
    | frontmatterOpen hother | eof hother | lexeme hother => exact absurd hphase hother
    | @frontmatterClose length _ hlength =>
      have hlast := htokens.length_le
      change _ ≤ (one.pass length).cursor.rest.length at hlast
      rw [rest_pass, hrest, List.length_drop, List.length_append] at hlast
      rw [hrest] at hlength
      have hwithin := Frontmatter.delimiter?_le hlength
      rw [List.length_append] at hwithin
      rw [Frontmatter.delimiter?_within hlength (by omega) hnil]
      rfl

namespace Abreast

/-- Both read the same tokens up to a place before `back`. -/
theorem passes (h : Abreast front back back' one other) (hswap : Swap back back')
    (hpasses : Passes one tokens last) (hout : last.phase ≠ .frontmatter)
    (hle : back.length ≤ last.cursor.rest.length)
    (hcolumn : one.cursor.CountsColumns)
    (hdash : one.phase = .start → ∀ dash ∈ firstToken? tokens, dash.kind = .minus →
      dash.span.column = 1 → ∀ line, StartsAt one.cursor front line dash →
        Frontmatter.delimiter? false (line ++ back') = none)
    (hpattern : ∀ token ∈ tokens, token.kind = .identifier → ∀ line,
      StartsAt one.cursor front line token →
      IsPathAddress line → Lexeme.endsPattern back' = false) :
    ∃ tokens' last', tokens'.map Token.word = tokens.map Token.word ∧
      (∃ n ≤ front.length, Abreast (front.drop n) back back' last last') ∧
      ∀ others, last'.Reads others → other.Reads (tokens' ++ others) := by
  induction hpasses generalizing front other with
  | nil => exact ⟨[], other, rfl, ⟨0, Nat.zero_le _, h⟩, fun _ hothers => hothers⟩
  | @cons one mid last token tokens hread hkind htokens ih =>
    rw [List.forall_mem_cons] at hpattern
    have hmid : back.length ≤ mid.cursor.rest.length := Nat.le_trans hle htokens.length_le
    have hopening := h.opening?_eq_none hread hkind hmid hcolumn fun hstart hminus =>
      hdash hstart token (by simp [firstToken?, hminus]) hminus
    obtain ⟨token', other', hread', hword, n, hn, hcursor, habreast⟩ := h.read hswap hread hkind
      hmid hopening hpattern.1 fun hback hphase hbody rest hrest => by
        have hdelimiter := (hread.closes hbody).resolve_left (by simp [hrest, hback])
        exact htokens.closes hphase hout hdelimiter hrest hle hswap.nil
    obtain ⟨tokens', last', hwords, ⟨m, hm, hlast⟩, hothers⟩ := ih habreast hout hle
      (hcursor ▸ hcolumn.advanceBy n)
      (fun hstart dash hmem hminus hone line hstarts => by
        -- Frontmatter may still open, so the token has been a line end or a comment.
        obtain ⟨hstart', htrivial⟩ := hread.of_phase hkind hstart
        rw [← firstToken?_cons_of_trivial htrivial] at hmem
        exact hdash hstart' dash hmem hminus hone line (h.startsAt_of_advanceBy hn hcursor hstarts))
      (fun token hmem hname line hstarts =>
        hpattern.2 token hmem hname line (h.startsAt_of_advanceBy hn hcursor hstarts))
    refine ⟨token' :: tokens', last', by rw [List.map_cons, List.map_cons, hword, hwords],
      ⟨n + m, ?_, ?_⟩, fun others h => .more hread' ?_ (hothers others h)⟩
    · rw [List.length_drop] at hm
      omega
    · rwa [List.drop_drop] at hlast
    · rwa [show token'.kind = token.kind from congrArg Prod.fst hword]

theorem opening?_eq (h : Abreast front [] [] one other) : other.opening? = one.opening? := by
  rw [opening?, opening?, h.phase, h.lineStart, h.rest, h.rest']

/-- Both read the same tokens up to the end, if the same text is before them. -/
theorem reads (h : Abreast front [] [] one other) (hreads : one.Reads tokens) :
    ∃ tokens', other.Reads tokens' ∧ tokens'.map Token.word = tokens.map Token.word := by
  have hgap : ∀ {front : List Char} {one other : Scanner}, Abreast front [] [] one other →
      Abreast (front.drop (Gap.length one.cursor.rest)) [] [] one.passGap other.passGap := by
    intro front one other h
    have hrest : other.cursor.rest = one.cursor.rest := by rw [h.rest, h.rest']
    have hle := Gap.length_le one.cursor.rest
    rw [Scanner.passGap, Scanner.passGap, hrest]
    refine h.pass ?_
    rwa [h.rest, List.append_nil] at hle ⊢
  induction hreads generalizing front other with
  | @last one token behind hread hkind =>
    have hrest : other.cursor.rest = one.cursor.rest := by rw [h.rest, h.rest']
    cases readAs_of_read hread with
    | frontmatterEnd hphase hend =>
      exact ⟨_, .last (read_of_end (h.phase.trans hphase) (hrest.trans hend)) rfl, rfl⟩
    | eof hphase _ hlexeme =>
      have hend := (Lexeme.recognized_of_ok hlexeme).eq_nil rfl
      rw [rest_passGap, ← hrest, ← rest_passGap] at hend
      have hread' := read_of_opening? (h.phase ▸ hphase) (opening?_of_head (by simp [hend]))
      exact ⟨_, .last (hread'.trans (readProgram_of_nil hend)) rfl, rfl⟩
    | frontmatterClose | frontmatterBody | frontmatterOpen => cases hkind
    | lexeme _ _ _ hother => exact absurd hkind hother
  | @more one token behind tokens hread hkind _ ih =>
    obtain ⟨token', other', hread', hword, n, -, -, habreast⟩ :=
      h.read swap_nil (readAs_of_read hread) hkind (Nat.zero_le _)
        (fun hnone => (hgap h).opening?_eq.trans hnone) (fun _ _ _ _ => rfl)
        (fun hback => absurd rfl hback)
    obtain ⟨tokens', hreads', hwords⟩ := ih habreast
    refine ⟨token' :: tokens', .more hread' ?_ hreads', by
      rw [List.map_cons, List.map_cons, hword, hwords]⟩
    rwa [show token'.kind = token.kind from congrArg Prod.fst hword]

end Abreast

end Scanner

end PipelineLang
