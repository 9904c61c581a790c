import PipelineLang.Proofs.Source.Cover
import PipelineLang.Proofs.Token.Spelling
import PipelineLang.Token.Scanner

/-!
# The tokens that a scanner reads

A scanner reads tokens until it comes to the end. The number of its turns is bounded by
the number of characters ahead; since each token but the end takes a character, the
bound is never met.

## Main definitions

- `Scanner.ReadAs` — how a token is read
- `Scanner.Reads` — the tokens from a scanner on, token by token

## Main results

- `Scanner.reads_of_tokens?`, `Scanner.tokens?_of_reads` — these are all tokens
-/

namespace PipelineLang

namespace Scanner

@[simp] theorem rest_pass (scanner : Scanner) (length : Nat) :
    (scanner.pass length).cursor.rest = scanner.cursor.rest.drop length :=
  Cursor.rest_advanceBy _ _

@[simp] theorem finished_pass (scanner : Scanner) (length : Nat) :
    (scanner.pass length).finished = scanner.finished := rfl

@[simp] theorem finished_passGap (scanner : Scanner) :
    scanner.passGap.finished = scanner.finished := rfl

theorem delimiter?_pos {endsLine : Bool} {text : List Char} {length : Nat}
    (h : Frontmatter.delimiter? endsLine text = some length) : text ≠ [] ∧ 0 < length := by
  unfold Frontmatter.delimiter? at h
  split at h
  · refine ⟨by simp, ?_⟩
    dsimp only at h
    repeat' split at h
    all_goals simp only [Option.some.injEq, reduceCtorEq] at h
    all_goals omega
  · simp at h

theorem bodyLength_pos {text : List Char} (htext : text ≠ [])
    (h : Frontmatter.delimiter? true text = none) : 0 < Frontmatter.bodyLength text := by
  have hle : ∀ (skip position : Nat) (lineStart : Bool) (rest : List Char),
      position ≤ walk Frontmatter.bodyLength.stop (fun position _ => position) skip position
        lineStart rest := by
    intro skip position lineStart rest
    induction rest generalizing skip position lineStart with
    | nil => exact Nat.le_refl position
    | cons c rest ih =>
      cases skip with
      | succ skip => exact Nat.le_trans (Nat.le_succ _) (ih skip (position + 1) lineStart)
      | zero =>
        rw [walk]
        unfold Frontmatter.bodyLength.stop
        split
        · next hstop =>
          split at hstop
          · obtain rfl := Stride.done.inj hstop
            exact Nat.le_refl _
          · simp at hstop
        · exact Nat.le_trans (Nat.le_succ _) (ih _ (position + 1) _)
  cases text with
  | nil => exact absurd rfl htext
  | cons c rest =>
    rw [Frontmatter.bodyLength, walk, Frontmatter.bodyLength.stop, h]
    exact hle _ 1 _ rest

/-- How a token is read. -/
inductive ReadAs (scanner : Scanner) : Token → Scanner → Prop
  | frontmatterEnd (hphase : scanner.phase = .frontmatter) (hrest : scanner.cursor.rest = []) :
    ReadAs scanner (scanner.tokenOf .eof 0) { scanner with phase := .program }
  | frontmatterClose {length} (hphase : scanner.phase = .frontmatter)
    (h : Frontmatter.delimiter? true scanner.cursor.rest = some length) :
    ReadAs scanner (scanner.tokenOf .frontmatterClose length)
      { scanner.pass length with phase := .program, previous := some .frontmatterClose }
  | frontmatterBody (hphase : scanner.phase = .frontmatter) (hrest : scanner.cursor.rest ≠ [])
    (h : Frontmatter.delimiter? true scanner.cursor.rest = none) :
    ReadAs scanner
      (scanner.tokenOf .frontmatterBody (Frontmatter.bodyLength scanner.cursor.rest))
      { scanner.pass (Frontmatter.bodyLength scanner.cursor.rest) with
        previous := some .frontmatterBody }
  | frontmatterOpen {length} (hphase : scanner.phase ≠ .frontmatter)
    (h : scanner.passGap.opening? = some length) :
    ReadAs scanner (scanner.passGap.tokenOf .frontmatterOpen length)
      { scanner.passGap.pass length with phase := .frontmatter }
  | eof {length} (hphase : scanner.phase ≠ .frontmatter)
    (hopening : scanner.passGap.opening? = none)
    (h : Lexeme.recognize scanner.passGap.before scanner.passGap.cursor.rest = .ok ⟨.eof, length⟩) :
    ReadAs scanner (scanner.passGap.tokenOf .eof 0) scanner.passGap
  | lexeme {lexeme} (hphase : scanner.phase ≠ .frontmatter)
    (hopening : scanner.passGap.opening? = none)
    (h : Lexeme.recognize scanner.passGap.before scanner.passGap.cursor.rest = .ok lexeme)
    (hkind : lexeme.kind ≠ .eof) :
    ReadAs scanner (scanner.passGap.tokenOf lexeme.kind lexeme.length)
      { scanner.passGap.pass lexeme.length with
        phase := scanner.passGap.phaseBehind lexeme.kind
        previous := (scanner.passGap.before.passToken lexeme scanner.passGap.cursor.rest).previous }

theorem readAs_of_readFrontmatter {scanner : Scanner} (hphase : scanner.phase = .frontmatter) :
    ReadAs scanner scanner.readFrontmatter.1 scanner.readFrontmatter.2 := by
  unfold readFrontmatter
  split
  · next hrest => exact .frontmatterEnd hphase hrest
  · next hrest =>
    split
    · next hlength => exact .frontmatterClose hphase hlength
    · next hnone => exact .frontmatterBody hphase hrest hnone

theorem readAs_of_read {scanner behind : Scanner} {token : Token}
    (h : scanner.read = (.ok token, behind)) : ReadAs scanner token behind := by
  unfold read at h
  split at h
  · next hphase =>
    have hread := readAs_of_readFrontmatter hphase
    rw [Prod.mk.injEq, Except.ok.injEq] at h
    rwa [h.1, h.2] at hread
  · next hphase =>
    dsimp only at h
    split at h
    · next length hlength =>
      rw [Prod.mk.injEq, Except.ok.injEq] at h
      obtain ⟨rfl, rfl⟩ := h
      exact .frontmatterOpen hphase hlength
    · next hnone =>
      unfold readProgram at h
      split at h
      · next length heof =>
        rw [Prod.mk.injEq, Except.ok.injEq] at h
        obtain ⟨rfl, rfl⟩ := h
        exact .eof hphase hnone heof
      · next lexeme hother hlexeme =>
        rw [Prod.mk.injEq, Except.ok.injEq] at h
        obtain ⟨rfl, rfl⟩ := h
        refine .lexeme hphase hnone hlexeme fun hkind => ?_
        obtain ⟨kind, length⟩ := lexeme
        exact hother length (by rw [← hkind])
      · rw [Prod.mk.injEq] at h
        simp at h

/-- Reading a token other than the end passes a character. -/
theorem ReadAs.progress {scanner behind : Scanner} {token : Token}
    (h : ReadAs scanner token behind) (hkind : token.kind ≠ .eof) :
    behind.cursor.rest.length < scanner.cursor.rest.length := by
  have hpass : ∀ {text : List Char} {length : Nat}, text ≠ [] → 0 < length →
      (text.drop length).length < text.length := by
    intro text length htext hlength
    have := List.length_pos_iff.mpr htext
    rw [List.length_drop]
    omega
  have hgap : scanner.passGap.cursor.rest.length ≤ scanner.cursor.rest.length := by
    rw [passGap, rest_pass, List.length_drop]
    omega
  cases h with
  | frontmatterEnd | eof => exact absurd rfl hkind
  | frontmatterClose hphase hlength =>
    obtain ⟨hne, hpos⟩ := delimiter?_pos hlength
    rw [rest_pass]
    exact hpass hne hpos
  | frontmatterBody hphase hrest hnone =>
    rw [rest_pass]
    exact hpass hrest (bodyLength_pos hrest hnone)
  | frontmatterOpen hphase hlength =>
    unfold opening? at hlength
    split at hlength
    · obtain ⟨hne, hpos⟩ := delimiter?_pos hlength
      rw [rest_pass]
      exact Nat.lt_of_lt_of_le (hpass hne hpos) hgap
    · simp at hlength
  | lexeme hphase hopening hlexeme hkind =>
    obtain ⟨hne, hpos⟩ := (Lexeme.recognized_of_ok hlexeme).length_pos hkind
    rw [rest_pass]
    exact Nat.lt_of_lt_of_le (hpass hne hpos) hgap

theorem ReadAs.finished {scanner behind : Scanner} {token : Token}
    (h : ReadAs scanner token behind) : behind.finished = scanner.finished := by
  cases h <;> rfl

/-- The tokens from a scanner on, up to the end. -/
inductive Reads : Scanner → List Token → Prop
  | last {scanner token behind} (h : scanner.read = (.ok token, behind))
    (hkind : token.kind = .eof) : Reads scanner [token]
  | more {scanner token behind tokens} (h : scanner.read = (.ok token, behind))
    (hkind : token.kind ≠ .eof) (htokens : Reads behind tokens) : Reads scanner (token :: tokens)

/-- What holds of every token that is read holds of all tokens from a scanner on. -/
theorem Reads.forall_of_readAs {T : Token → Prop}
    (hread : ∀ {scanner behind : Scanner} {token : Token}, ReadAs scanner token behind → T token)
    {scanner : Scanner} {tokens : List Token} (h : scanner.Reads tokens) :
    ∀ token ∈ tokens, T token := by
  induction h with
  | last h _ => exact List.forall_mem_singleton.mpr (hread (readAs_of_read h))
  | more h _ _ ih => exact List.forall_mem_cons.mpr ⟨hread (readAs_of_read h), ih⟩

/-- The token at the end of a source has no text. -/
theorem Reads.text_of_eof {scanner : Scanner} {tokens : List Token} (h : scanner.Reads tokens) :
    ∀ token ∈ tokens, token.kind = .eof → token.text = "" := by
  refine h.forall_of_readAs fun {scanner behind token} h heof => ?_
  cases h with
  | frontmatterEnd | eof => rfl
  | frontmatterClose | frontmatterBody | frontmatterOpen => simp [tokenOf] at heof
  | lexeme _ _ _ hkind => exact absurd heof hkind

/-- What is read behind a token that is known. -/
theorem reads_iff_of_read {scanner behind : Scanner} {token : Token} {tokens : List Token}
    (h : scanner.read = (.ok token, behind)) (hkind : token.kind ≠ .eof) :
    scanner.Reads tokens ↔ ∃ others, tokens = token :: others ∧ behind.Reads others := by
  constructor
  · intro hreads
    cases hreads with
    | last hread heof =>
      obtain rfl := Except.ok.inj (Prod.mk.inj (hread.symm.trans h)).1
      exact absurd heof hkind
    | more hread _ hreads =>
      obtain ⟨hsame, rfl⟩ := Prod.mk.inj (hread.symm.trans h)
      obtain rfl := Except.ok.inj hsame
      exact ⟨_, rfl, hreads⟩
  · rintro ⟨others, rfl, hreads⟩
    exact .more h hkind hreads

theorem next?_of_read {scanner behind : Scanner} {token : Token}
    (hfinished : scanner.finished = false)
    (h : scanner.read = (.ok token, behind)) :
    scanner.next? = (some (.ok token), { behind with finished := token.kind == .eof }) := by
  rw [next?, hfinished, if_neg (by simp), h]
  rfl

theorem reads_of_tokensUpTo {fuel : Nat} {scanner : Scanner} {tokens : List Token}
    (hfinished : scanner.finished = false) (hfuel : scanner.cursor.rest.length < fuel)
    (h : tokensUpTo fuel scanner = (tokens, none)) : Reads scanner tokens := by
  induction fuel generalizing scanner tokens with
  | zero => omega
  | succ fuel ih =>
    rw [tokensUpTo] at h
    cases hread : scanner.read with
    | mk found behind =>
      cases found with
      | error error => simp [next?, hfinished, hread] at h
      | ok token =>
        rw [next?_of_read hfinished hread] at h
        dsimp only at h
        by_cases hkind : token.kind = .eof
        · have hend : tokensUpTo fuel { behind with finished := token.kind == .eof } =
              ([], none) := by
            cases fuel with
            | zero => rfl
            | succ fuel => simp [tokensUpTo, next?, hkind]
          rw [hend] at h
          obtain ⟨rfl, -⟩ := Prod.mk.inj h
          exact .last hread hkind
        · have hfalse := (readAs_of_read hread).finished.trans hfinished
          have hless := (readAs_of_read hread).progress hkind
          have hbehind : { behind with finished := token.kind == .eof } = behind := by
            rw [beq_eq_false_iff_ne.mpr hkind, ← hfalse]
          rw [hbehind] at h
          cases hrest : tokensUpTo fuel behind with
          | mk others error =>
            rw [hrest] at h
            obtain ⟨rfl, rfl⟩ := Prod.mk.inj h
            exact .more hread hkind (ih hfalse (by omega) hrest)

/-- The tokens of a scanner are those that it reads. -/
theorem reads_of_tokens? {scanner : Scanner} {tokens : List Token}
    (hfinished : scanner.finished = false) (h : scanner.tokens? = .ok tokens) :
    Reads scanner tokens := by
  rw [tokens?, Scanner.tokens] at h
  split at h
  · next found hfound =>
    cases h
    exact reads_of_tokensUpTo hfinished (Nat.lt_succ_self _) hfound
  · simp at h

theorem tokensUpTo_of_reads {fuel : Nat} {scanner : Scanner} {tokens : List Token}
    (hfinished : scanner.finished = false) (hfuel : scanner.cursor.rest.length < fuel)
    (h : Reads scanner tokens) : tokensUpTo fuel scanner = (tokens, none) := by
  induction h generalizing fuel with
  | @last scanner token behind hread hkind =>
    obtain ⟨fuel, rfl⟩ := Nat.exists_eq_add_one_of_ne_zero (Nat.ne_zero_of_lt hfuel)
    rw [tokensUpTo, next?_of_read hfinished hread]
    have hend : tokensUpTo fuel { behind with finished := token.kind == .eof } = ([], none) := by
      cases fuel with
      | zero => rfl
      | succ fuel => simp [tokensUpTo, next?, hkind]
    simp only [hend]
  | @more scanner token behind tokens hread hkind _ ih =>
    obtain ⟨fuel, rfl⟩ := Nat.exists_eq_add_one_of_ne_zero (Nat.ne_zero_of_lt hfuel)
    have hfalse := (readAs_of_read hread).finished.trans hfinished
    have hless := (readAs_of_read hread).progress hkind
    have hbehind : { behind with finished := token.kind == .eof } = behind := by
      rw [beq_eq_false_iff_ne.mpr hkind, ← hfalse]
    rw [tokensUpTo, next?_of_read hfinished hread, hbehind]
    simp only [ih hfalse (by omega : behind.cursor.rest.length < fuel)]

/-- What a scanner reads are all of its tokens. -/
theorem tokens?_of_reads {scanner : Scanner} {tokens : List Token}
    (hfinished : scanner.finished = false) (h : Reads scanner tokens) :
    scanner.tokens? = .ok tokens := by
  rw [tokens?, Scanner.tokens, tokensUpTo_of_reads hfinished (Nat.lt_succ_self _) h]

end Scanner

/-- A source has the tokens that are read from its start. -/
theorem tokenize_eq_ok_iff {source : String} {tokens : List Token} :
    tokenize source = .ok tokens ↔ (Scanner.ofSource source.toList).Reads tokens :=
  ⟨Scanner.reads_of_tokens? rfl, Scanner.tokens?_of_reads rfl⟩

end PipelineLang
