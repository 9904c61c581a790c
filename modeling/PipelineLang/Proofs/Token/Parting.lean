import PipelineLang.Proofs.Token.Abreast

/-!
# Where scanners part

Two scanners that are abreast read the same tokens if no delimiter line and no pattern comes about
for one of them only. Here is the converse: where they have read the same tokens, neither did.

## Main definitions

- `Scanner.NoDash`, `Scanner.NoPattern` — neither of the two comes about at a token

## Main results

- `Scanner.Abreast.noPattern`, `Scanner.Abreast.noDash` — neither does at a token that both read
- `Scanner.Abreast.noneOf_words` — nor at any of the tokens up to where the texts differ
-/

namespace PipelineLang.Scanner

variable {front back back' : List Char} {here : Cursor} {one other behind behind' last : Scanner}
  {token token' : Token} {tokens others : List Token}

/-- What is left of a text where a token starts is one text. -/
theorem StartsAt.unique {line line' : List Char} (h : StartsAt here front line token)
    (h' : StartsAt here front line' token) : line = line' := by
  obtain ⟨skipped, hfront, hstart⟩ := h
  obtain ⟨skipped', hfront', hstart'⟩ := h'
  have hbytes : byteCount skipped = byteCount skipped' := by omega
  have hlength : skipped.length = skipped'.length := by
    rw [← Cursor.charactersBefore_byteCount skipped line,
      ← Cursor.charactersBefore_byteCount skipped' line', ← hfront, ← hfront', hbytes]
  exact (List.append_inj (hfront.symm.trans hfront') hlength).2

/-- A token that is a dash in the first column does not start a delimiter line with `back` behind
the text. -/
def NoDash (here : Cursor) (front back : List Char) (token : Token) : Prop :=
  token.kind = .minus → token.span.column = 1 →
    ∃ line, StartsAt here front line token ∧ Frontmatter.delimiter? false (line ++ back) = none

/-- A token that is a name does not start a path that is a pattern with `back` behind the text,
and would be an address. -/
def NoPattern (here : Cursor) (front back : List Char) (token : Token) : Prop :=
  token.kind = .identifier →
    ∃ line, StartsAt here front line token ∧ (IsPathAddress line → Lexeme.endsPattern back = false)

namespace Abreast

/-- Where both read a name, it starts no pattern for the other one: it would be an address. -/
theorem noPattern (h : Abreast front back back' one other) (hback : Stops back')
    (hread : ReadAs one token behind) (hle : back.length ≤ behind.cursor.rest.length)
    (hread' : ReadAs other token' behind') (hsame : token'.kind = token.kind) :
    NoPattern one.cursor front back' token := by
  intro hname
  rw [hname] at hsame
  cases hread with
  | frontmatterEnd | frontmatterClose | frontmatterBody | frontmatterOpen | eof => cases hname
  | lexeme _ _ hlexeme hkind =>
    obtain ⟨hwithin, habreast⟩ := h.behindGap_lexeme hlexeme hkind hle
    refine ⟨_, h.startsAt _ _ (Nat.le_of_add_right_le hwithin), fun hpath => ?_⟩
    cases hread' with
    | frontmatterEnd | frontmatterClose | frontmatterBody | frontmatterOpen | eof => cases hsame
    | @lexeme lexeme' _ _ hlexeme' =>
      rw [habreast.rest'] at hlexeme'
      have hkind' : lexeme'.kind = _ := Lexeme.kind_of_isPathAddress hlexeme' hpath hback
      rw [show lexeme'.kind = .identifier from hsame] at hkind'
      split at hkind'
      · next hoperator => simpa using (Bool.and_eq_true_iff.mp hoperator).2
      · cases hkind'

/-- Where both read a dash, it starts no delimiter line for the other one: frontmatter would
open. -/
theorem noDash (h : Abreast front back back' one other) (hstart : one.phase = .start)
    (hcolumn : one.cursor.CountsColumns) (hread : ReadAs one token behind)
    (hle : back.length ≤ behind.cursor.rest.length) (hread' : ReadAs other token' behind')
    (hsame : token'.kind = token.kind) : NoDash one.cursor front back' token := by
  intro hminus hfirst
  rw [hminus] at hsame
  cases hread with
  | frontmatterEnd | frontmatterClose | frontmatterBody | frontmatterOpen | eof => cases hminus
  | lexeme _ _ hlexeme hkind =>
    obtain ⟨hwithin, habreast⟩ := h.behindGap_lexeme hlexeme hkind hle
    refine ⟨_, h.startsAt _ _ (Nat.le_of_add_right_le hwithin), ?_⟩
    have hline : one.passGap.cursor.atLineStart := (hcolumn.advanceBy _).first.mp hfirst
    cases hread' with
    | frontmatterEnd | frontmatterClose | frontmatterBody | frontmatterOpen | eof => cases hsame
    | lexeme _ hopening =>
      have hphase : other.passGap.phase = .start := habreast.phase.trans hstart
      rwa [opening?, hphase, ← habreast.lineStart, hline, habreast.rest', if_pos (by decide)]
        at hopening

end Abreast

/-- Frontmatter may still open behind a line end or a comment. -/
theorem ReadAs.start (h : ReadAs one token behind) (hstart : one.phase = .start)
    (htrivial : token.kind ∈ [TokenKind.newline, .comment]) : behind.phase = .start := by
  cases h with
  | frontmatterEnd | frontmatterClose | frontmatterBody | frontmatterOpen | eof =>
    simp [tokenOf] at htrivial
  | @lexeme lexeme =>
    have hkind : lexeme.kind = .newline ∨ lexeme.kind = .comment := by
      simpa [tokenOf] using htrivial
    show one.passGap.phaseBehind lexeme.kind = .start
    rw [phaseBehind, if_pos (by simpa using hkind)]
    exact hstart

/-- Where two scanners that are abreast have read the same tokens, no delimiter line and no pattern
has come about for the other one only. -/
theorem Abreast.noneOf_words (h : Abreast front back back' one other) (hswap : Swap back back')
    (hback : Stops back') (hpasses : Passes one tokens last) (hout : last.phase ≠ .frontmatter)
    (hle : back.length ≤ last.cursor.rest.length) (hcolumn : one.cursor.CountsColumns)
    (hreads : other.Reads others) (hwords : tokens.map Token.word <+: others.map Token.word) :
    (one.phase = .start → ∀ dash ∈ firstToken? tokens, NoDash one.cursor front back' dash) ∧
      ∀ token ∈ tokens, NoPattern one.cursor front back' token := by
  induction hpasses generalizing front other others with
  | nil => exact ⟨nofun, nofun⟩
  | @cons one mid last token tokens hread hkind htokens ih =>
    obtain ⟨token', others, rfl⟩ : ∃ token' others', others = token' :: others' := by
      cases hreads with
      | last | more => exact ⟨_, _, rfl⟩
    rw [List.map_cons, List.map_cons, List.cons_prefix_cons] at hwords
    obtain ⟨hword, hwords⟩ := hwords
    have hsame : token'.kind = token.kind := (congrArg Prod.fst hword).symm
    obtain ⟨behind', hread', hothers⟩ : ∃ behind', other.read = (.ok token', behind') ∧
        behind'.Reads others := by
      cases hreads with
      | last _ heof => exact absurd (hsame.symm.trans heof) hkind
      | more hread' _ hothers => exact ⟨_, hread', hothers⟩
    have hmid : back.length ≤ mid.cursor.rest.length := Nat.le_trans hle htokens.length_le
    have hname := h.noPattern hback hread hmid (readAs_of_read hread') hsame
    have hdash := fun hstart => h.noDash hstart hcolumn hread hmid (readAs_of_read hread') hsame
    -- So both read this token, and are abreast behind it.
    have hopening :=
      h.opening?_eq_none hread hkind hmid hcolumn fun hstart hminus hfirst line hl => by
        obtain ⟨line', hl', hnone⟩ := hdash hstart hminus hfirst
        rwa [hl.unique hl']
    obtain ⟨_, other', hagain, -, n, hn, hcursor, habreast⟩ :=
      h.read hswap hread hkind hmid hopening
      (fun hidentifier line hl hpath => by
        obtain ⟨line', hl', hends⟩ := hname hidentifier
        exact hends (hl.unique hl' ▸ hpath))
      (fun hnil hphase hbody rest hrest => by
        have hdelimiter := (hread.closes hbody).resolve_left (by simp [hrest, hnil])
        exact htokens.closes hphase hout hdelimiter hrest hle hswap.nil)
    obtain ⟨-, rfl⟩ := Prod.mk.inj (hread'.symm.trans hagain)
    obtain ⟨hdashes, hnames⟩ := ih habreast hout hle (hcursor ▸ hcolumn.advanceBy n) hothers hwords
    refine ⟨fun hstart dash hmem => ?_,
      List.forall_mem_cons.mpr ⟨hname, fun later hmem hlater => ?_⟩⟩
    · by_cases htrivial : token.kind ∈ [TokenKind.newline, .comment]
      · rw [firstToken?_cons_of_trivial htrivial] at hmem
        intro hminus hfirst
        obtain ⟨line, hl, hnone⟩ := hdashes (hread.start hstart htrivial) dash hmem hminus hfirst
        exact ⟨line, h.startsAt_of_advanceBy hn hcursor hl, hnone⟩
      · obtain rfl : token = dash := by
          rw [firstToken?, List.find?_cons_of_pos (by simpa using htrivial)] at hmem
          exact Option.some.inj hmem
        exact hdash hstart
    · obtain ⟨line, hl, hends⟩ := hnames later hmem hlater
      exact ⟨line, h.startsAt_of_advanceBy hn hcursor hl, hends⟩

end PipelineLang.Scanner
