import PipelineLang.Proofs.Token.Counting
import PipelineLang.Proofs.Token.Frontmatter
import PipelineLang.Proofs.Token.Progress
import PipelineLang.Proofs.Token.Resumption

/-!
# Scanners that are asked again and again

A scanner can be asked for its next token in two ways: up to the end or the first error, or
behind any of them as well. However the two are mixed, each call that reads something passes
characters of the source until it comes to the end, and then stays there.

## Main definitions

- `Scanner.Call`, `Scanner.run` — a sequence of calls, with their answers
- `Scanner.stride` — how many characters a call passes
- `Scanner.endOf` — the token of the end of a source
- `Scanner.Reached` — what holds of a scanner behind some calls

## Main results

- `Scanner.stride_le` — a call passes no more characters than there are
- `Scanner.end_or_advance` — a call answers with the end, or passes a character
- `Scanner.Reached.call`, `Scanner.Reached.run` — one call, and any number of them
- `Scanner.run_safe` — all of it, from the start of a source or from one of its bytes
-/

namespace PipelineLang

namespace Scanner

/-- A way to ask for the next token. -/
inductive Call where
  /-- Up to the end, or up to the first error. -/
  | next
  /-- Whatever has been handed out. -/
  | nextToken
deriving Repr, DecidableEq

/-- The answer to a call, and the scanner behind it. -/
def call (scanner : Scanner) : Call → Option (Except LexicalError Token) × Scanner
  | .next => scanner.next?
  | .nextToken => (some scanner.read.1, scanner.read.2)

/-- The answers to some calls, and the scanner behind them. -/
def run : List Call → Scanner → List (Call × Option (Except LexicalError Token)) × Scanner
  | [], scanner => ([], scanner)
  | call :: calls, scanner =>
    let (answer, behind) := scanner.call call
    let (answers, last) := run calls behind
    ((call, answer) :: answers, last)

end Scanner

namespace CountingScanner

/-- The answer to a call, and the scanner behind it. -/
def call (here : CountingScanner) :
    Scanner.Call → Option (Except LexicalError Token) × CountingScanner
  | .next => here.next?
  | .nextToken => (some here.read.1, here.read.2)

/-- The answers to some calls, and the scanner behind them. -/
def run : List Scanner.Call → CountingScanner →
    List (Scanner.Call × Option (Except LexicalError Token)) × CountingScanner
  | [], here => ([], here)
  | call :: calls, here =>
    let (answer, behind) := here.call call
    let (answers, last) := run calls behind
    ((call, answer) :: answers, last)

theorem call_eq (scanner : Scanner) (call : Scanner.Call) :
    CountingScanner.call ⟨scanner, 0⟩ call =
      ((scanner.call call).1, ⟨(scanner.call call).2, 0⟩) := by
  cases call with
  | next => exact next?_eq scanner
  | nextToken =>
    rw [CountingScanner.call, read_eq]
    rfl

/-- A scanner that counts open replacements gives the same answers, and none is open behind any
of them. -/
theorem run_eq (scanner : Scanner) (calls : List Scanner.Call) :
    run calls ⟨scanner, 0⟩ = ((scanner.run calls).1, ⟨(scanner.run calls).2, 0⟩) := by
  induction calls generalizing scanner with
  | nil => rfl
  | cons call calls ih =>
    simp only [run, Scanner.run, call_eq, ih]

end CountingScanner

namespace Scanner

variable {source : List Char} {scanner : Scanner}

/-! ### How far a call goes -/

/-- How many characters a token or a fault takes from the head of a text. -/
def extent : Except LexicalFault Lexeme → Nat
  | .ok lexeme => lexeme.length
  | .error fault => fault.stop

/-- How many characters are passed when the next token is read. -/
def stride (scanner : Scanner) : Nat :=
  if scanner.phase = .frontmatter then
    (Frontmatter.delimiter? true scanner.cursor.rest).getD
      (Frontmatter.bodyLength scanner.cursor.rest)
  else
    let here := scanner.passGap
    Gap.length scanner.cursor.rest +
      (here.opening?).getD (extent (Lexeme.recognize here.before here.cursor.rest))

theorem extent_recognize_le (before : Before) (text : List Char) :
    extent (Lexeme.recognize before text) ≤ text.length := by
  cases h : Lexeme.recognize before text with
  | ok lexeme => exact (Lexeme.recognized_of_ok h).length_le
  | error fault => exact (Lexeme.endsWithin_recognize before text fault h).2

theorem opening?_le {length : Nat} (h : scanner.opening? = some length) :
    length ≤ scanner.cursor.rest.length := by
  unfold opening? at h
  split at h
  · exact Frontmatter.delimiter?_le h
  · cases h

/-- No more characters are passed than there are. -/
theorem stride_le (scanner : Scanner) : scanner.stride ≤ scanner.cursor.rest.length := by
  rw [stride]
  split
  · cases h : Frontmatter.delimiter? true scanner.cursor.rest with
    | some length => exact Frontmatter.delimiter?_le h
    | none => exact Frontmatter.bodyLength_le _
  · have hgap := Gap.length_le scanner.cursor.rest
    have hrest : scanner.passGap.cursor.rest.length =
        scanner.cursor.rest.length - Gap.length scanner.cursor.rest := by
      rw [rest_passGap, List.length_drop]
    dsimp only
    cases h : scanner.passGap.opening? with
    | some length =>
      have := opening?_le h
      rw [Option.getD_some]
      omega
    | none =>
      have := extent_recognize_le scanner.passGap.before scanner.passGap.cursor.rest
      rw [Option.getD_none]
      omega

theorem cursor_readFrontmatter (hphase : scanner.phase = .frontmatter) :
    scanner.readFrontmatter.2.cursor = scanner.cursor.advanceBy scanner.stride := by
  rw [stride, if_pos hphase, readFrontmatter]
  split
  · next hrest =>
    rw [hrest]
    rfl
  · cases Frontmatter.delimiter? true scanner.cursor.rest with
    | some length => rfl
    | none => rfl

theorem cursor_readProgram (here : Scanner) : here.readProgram.2.cursor =
    here.cursor.advanceBy (extent (Lexeme.recognize here.before here.cursor.rest)) := by
  cases h : Lexeme.recognize here.before here.cursor.rest with
  | error fault =>
    rw [readProgram_of_fault h]
    rfl
  | ok lexeme =>
    by_cases hkind : lexeme.kind = .eof
    · have hrest := (Lexeme.recognized_of_ok h).eq_nil hkind
      rw [readProgram_of_nil hrest, Cursor.advanceBy_of_rest_eq_nil hrest]
    · rw [readProgram_of_lexeme h hkind]
      rfl

/-- So many characters are passed when the next token is read. -/
theorem cursor_read (scanner : Scanner) :
    scanner.read.2.cursor = scanner.cursor.advanceBy scanner.stride := by
  by_cases hphase : scanner.phase = .frontmatter
  · rw [read, if_pos hphase]
    exact cursor_readFrontmatter hphase
  · have hgap : ∀ n, scanner.passGap.cursor.advanceBy n =
        scanner.cursor.advanceBy (Gap.length scanner.cursor.rest + n) :=
      fun n => (Cursor.advanceBy_add _ _ _).symm
    rw [read, if_neg hphase, stride, if_neg hphase]
    dsimp only
    cases h : scanner.passGap.opening? with
    | some length => exact hgap length
    | none =>
      rw [Option.getD_none, ← hgap]
      exact cursor_readProgram scanner.passGap

/-! ### The end of a source -/

/-- The token of the end of a source. -/
def endOf (source : List Char) : Token :=
  ⟨.eof, "", ⟨byteCount source, byteCount source, 1 + source.count '\n',
    1 + lastLineLength (withoutMark source)⟩⟩

/-- Where nothing is left of a source, its end is the next token. -/
theorem tokenOf_eof (hplaced : scanner.cursor.IsPlaced source)
    (hstands : scanner.cursor.StandsIn source) (hrest : scanner.cursor.rest = []) :
    scanner.tokenOf .eof 0 = endOf source := by
  have hoffset := hstands.offset_of_rest hrest
  obtain ⟨passed, beyond, hsource, hplace, -⟩ := hplaced
  -- All bytes have been passed, so nothing can be beyond the text of the cursor.
  have hbeyond : beyond = [] := by
    by_contra hne
    have hbytes := congrArg byteCount hsource
    have hpos := Cursor.byteCount_pos hne
    rw [hrest, List.nil_append, byteCount_append, ← hplace.offset_eq, hoffset] at hbytes
    omega
  rw [hrest, hbeyond, List.append_nil, List.append_nil] at hsource
  rw [hsource] at hoffset ⊢
  have hspan : scanner.cursor.spanBetween 0 0 = (endOf passed).span :=
    congrArg₂ (fun offset place : Nat × Nat => (⟨offset.1, offset.2, place.1, place.2⟩ : Span))
      (congrArg₂ Prod.mk hoffset hoffset) (congrArg₂ Prod.mk hplace.line_eq hplace.column_eq)
  rw [tokenOf, hrest, hspan]
  rfl

/-- Where nothing is left, the end is read, and nothing is left behind it. -/
theorem read_of_rest (hrest : scanner.cursor.rest = []) :
    scanner.read.1 = .ok (scanner.tokenOf .eof 0) ∧ scanner.read.2.cursor.rest = [] := by
  refine ⟨?_, by rw [cursor_read, Cursor.rest_advanceBy, hrest, List.drop_nil]⟩
  by_cases hphase : scanner.phase = .frontmatter
  · rw [read, if_pos hphase, readFrontmatter, hrest]
  · have hgap : scanner.passGap = scanner := by
      rw [passGap, hrest]
      rfl
    have hopening : scanner.opening? = none := opening?_of_head (by simp [hrest])
    rw [read_of_opening? hphase (by rw [hgap, hopening]), hgap, readProgram_of_nil hrest]

/-- Where something is left, something is passed, whether a token is read or not. -/
theorem stride_pos (hrest : scanner.cursor.rest ≠ []) : 0 < scanner.stride := by
  rw [stride]
  split
  · cases h : Frontmatter.delimiter? true scanner.cursor.rest with
    | some length => exact (delimiter?_pos h).2
    | none => exact bodyLength_pos hrest h
  · -- Unless a gap is passed, what is next stands right here.
    by_cases hgap : Gap.length scanner.cursor.rest = 0
    · have hhere : scanner.passGap = scanner := by
        rw [passGap, hgap]
        rfl
      rw [hgap, hhere, Nat.zero_add]
      cases hopening : scanner.opening? with
      | some length =>
        unfold opening? at hopening
        split at hopening
        · exact (delimiter?_pos hopening).2
        · cases hopening
      | none =>
        cases h : Lexeme.recognize scanner.before scanner.cursor.rest with
        | ok lexeme =>
          have hrecognized := Lexeme.recognized_of_ok h
          exact (hrecognized.length_pos fun hkind => hrest (hrecognized.eq_nil hkind)).2
        | error fault => exact (Lexeme.endsWithin_recognize _ _ fault h).1
    · exact Nat.add_pos_left (Nat.pos_of_ne_zero hgap) _

theorem offset_lt_of_rest (hrest : scanner.cursor.rest ≠ []) :
    scanner.cursor.offset < scanner.read.2.cursor.offset := by
  have htaken : scanner.cursor.rest.take scanner.stride ≠ [] := by
    rw [ne_eq, List.take_eq_nil_iff, not_or]
    exact ⟨Nat.ne_of_gt (stride_pos hrest), hrest⟩
  have hpos := Cursor.byteCount_pos htaken
  rw [cursor_read, Cursor.offset_advanceBy]
  omega

/-- What is read is the end of the source, or characters have been passed. -/
theorem end_or_advance (hplaced : scanner.cursor.IsPlaced source)
    (hstands : scanner.cursor.StandsIn source) :
    scanner.read.1 = .ok (endOf source) ∨
      scanner.cursor.offset < scanner.read.2.cursor.offset := by
  by_cases hrest : scanner.cursor.rest = []
  · rw [(read_of_rest hrest).1, tokenOf_eof hplaced hstands hrest]
    exact .inl rfl
  · exact .inr (offset_lt_of_rest hrest)

/-- The end is only read where all of the source has been passed. -/
theorem eq_endOf_of_read {token : Token} (hplaced : scanner.cursor.IsPlaced source)
    (hstands : scanner.cursor.StandsIn source) (hread : scanner.read.1 = .ok token)
    (hkind : token.kind = .eof) : token = endOf source := by
  have has : ReadAs scanner token scanner.read.2 :=
    readAs_of_read (show scanner.read = (.ok token, scanner.read.2) by rw [← hread])
  generalize scanner.read.2 = behind at has
  have hgap : scanner.passGap.cursor.IsPlaced source := hplaced.advanceBy _
  have hgap' : scanner.passGap.cursor.StandsIn source := hstands.advanceBy _
  cases has with
  | frontmatterEnd _ hrest => exact tokenOf_eof hplaced hstands hrest
  | eof _ _ heof => exact tokenOf_eof hgap hgap' ((Lexeme.recognized_of_ok heof).eq_nil rfl)
  | frontmatterClose | frontmatterBody | frontmatterOpen => cases hkind
  | lexeme _ _ _ hother => exact absurd hkind hother

/-! ### Calls -/

/-- The answers to calls that have read something. -/
def readings (answered : List (Call × Option (Except LexicalError Token))) :
    List (Except LexicalError Token) := answered.filterMap (·.2)

/-- A call up to the end or the first error has been answered with one of these. -/
def HandedOut (answered : List (Call × Option (Except LexicalError Token))) : Prop :=
  ∃ found, (Call.next, some found) ∈ answered ∧ isLast found = true

section

variable {answered : List (Call × Option (Except LexicalError Token))}

theorem handedOut_concat {call : Call} {answer : Option (Except LexicalError Token)} :
    HandedOut (answered ++ [(call, answer)]) ↔
      HandedOut answered ∨ call = .next ∧ ∃ found ∈ answer, isLast found = true := by
  constructor
  · rintro ⟨found, hmem, hlast⟩
    obtain hmem | hmem := List.mem_append.mp hmem
    · exact .inl ⟨found, hmem, hlast⟩
    · obtain ⟨rfl, rfl⟩ := Prod.mk.inj (List.mem_singleton.mp hmem)
      exact .inr ⟨rfl, found, rfl, hlast⟩
  · rintro (⟨found, hmem, hlast⟩ | ⟨rfl, found, rfl, hlast⟩)
    · exact ⟨found, List.mem_append_left _ hmem, hlast⟩
    · exact ⟨found, List.mem_append_right _ (List.mem_singleton.mpr rfl), hlast⟩

/-- Reading alone hands nothing out. -/
theorem finished_read (scanner : Scanner) : scanner.read.2.finished = scanner.finished := by
  by_cases hphase : scanner.phase = .frontmatter
  · have hsame : scanner.readFrontmatter.2.finished = scanner.finished :=
      (readAs_of_readFrontmatter hphase).finished
    rw [read, if_pos hphase]
    exact hsame
  · rw [read, if_neg hphase]
    dsimp only
    split
    · rfl
    · unfold readProgram
      split <;> rfl

end

/-- What holds of a scanner behind some calls with their answers. -/
structure Reached (source : List Char)
    (answered : List (Call × Option (Except LexicalError Token))) (scanner : Scanner) : Prop where
  placed : scanner.cursor.IsPlaced source
  stands : scanner.cursor.StandsIn source
  /-- Each call that has read something has passed a byte, up to the end of the source. -/
  advanced : scanner.cursor.rest = [] ∨ (readings answered).length ≤ scanner.cursor.offset
  finished : scanner.finished = true ↔ HandedOut answered

/-- What is promised of a call that reads something. -/
structure Advances (source : List Char) (scanner behind : Scanner)
    (found : Except LexicalError Token) : Prop where
  /-- It is told where the token or the error is. -/
  tells : Tells source found
  /-- No more characters are passed than there are. -/
  within : scanner.stride ≤ scanner.cursor.rest.length
  passes : behind.cursor = scanner.cursor.advanceBy scanner.stride
  /-- It is the end, or something is passed. -/
  advances : found = .ok (endOf source) ∨ scanner.cursor.offset < behind.cursor.offset
  eof : ∀ token, found = .ok token → token.kind = .eof → token = endOf source

namespace Reached

variable {answered : List (Call × Option (Except LexicalError Token))}
  (h : Reached source answered scanner)

include h

theorem advances : Advances source scanner scanner.read.2 scanner.read.1 :=
  ⟨(isPlaced_read h.placed).1, stride_le scanner, cursor_read scanner,
    end_or_advance h.placed h.stands, fun _ => eq_endOf_of_read h.placed h.stands⟩

/-- Behind as many calls as there are bytes, nothing is left. -/
theorem rest_eq_nil (hbytes : byteCount source ≤ (readings answered).length) :
    scanner.cursor.rest = [] := by
  obtain hrest | hle := h.advanced
  · exact hrest
  · by_contra hne
    obtain ⟨passed, hsource, hoffset⟩ := h.stands
    have hpos := Cursor.byteCount_pos hne
    have hsum := congrArg byteCount hsource
    rw [byteCount_append] at hsum
    omega

/-- Behind a call that reads something, all of this holds again. -/
theorem read (call : Call) (last : Bool)
    (hlast : last = true ↔ HandedOut (answered ++ [(call, some scanner.read.1)])) :
    Reached source (answered ++ [(call, some scanner.read.1)])
      { scanner.read.2 with finished := last } := by
  refine ⟨(isPlaced_read h.placed).2, ?_, ?_, hlast⟩
  · show scanner.read.2.cursor.StandsIn source
    rw [cursor_read]
    exact h.stands.advanceBy _
  · show scanner.read.2.cursor.rest = [] ∨ _ ≤ scanner.read.2.cursor.offset
    by_cases hrest : scanner.cursor.rest = []
    · exact .inl (read_of_rest hrest).2
    · have hless := offset_lt_of_rest hrest
      have hle := h.advanced.resolve_left hrest
      refine .inr ?_
      rw [readings, List.filterMap_append, List.length_append]
      show (readings answered).length + 1 ≤ _
      omega

/-- One call keeps all of this. -/
theorem call (call : Call) :
    Reached source (answered ++ [(call, (scanner.call call).1)]) (scanner.call call).2 := by
  cases call with
  | nextToken =>
    have hlast : scanner.finished = true ↔
        HandedOut (answered ++ [(.nextToken, some scanner.read.1)]) := by
      rw [handedOut_concat, h.finished]
      simp
    have hread := h.read .nextToken scanner.finished hlast
    rwa [← finished_read scanner] at hread
  | next =>
    rw [Scanner.call, next?]
    split
    · next hfinished =>
      -- Nothing is read any more.
      refine ⟨h.placed, h.stands, ?_, ?_⟩
      · rw [readings, List.filterMap_append]
        simpa [readings] using h.advanced
      · rw [handedOut_concat, h.finished]
        simp
    · next hfinished =>
      refine h.read .next (isLast scanner.read.1) ?_
      have hnot : ¬ HandedOut answered := fun hout => hfinished (h.finished.mpr hout)
      rw [handedOut_concat]
      simp [hnot]

end Reached

/-- Any number of calls keeps all of this. -/
theorem Reached.run {answered : List (Call × Option (Except LexicalError Token))}
    (h : Reached source answered scanner) (calls : List Call) :
    Reached source (answered ++ (scanner.run calls).1) (scanner.run calls).2 := by
  induction calls generalizing answered scanner with
  | nil => simpa [Scanner.run] using h
  | cons call calls ih =>
    have hrun := ih (h.call call)
    rw [List.append_assoc, List.singleton_append] at hrun
    exact hrun

theorem reached_ofSource (source : List Char) : Reached source [] (ofSource source) := by
  refine ⟨isPlaced_ofSource source, Cursor.standsIn_ofSource source, .inr (Nat.zero_le _), ?_⟩
  simp [ofSource, HandedOut]

theorem reached_ofOffset (source : List Char) (offset : Nat) :
    Reached source [] (ofOffset source offset) := by
  unfold ofOffset
  split
  · exact reached_ofSource source
  · refine ⟨Cursor.isPlaced_ofOffset source offset, (Cursor.standsIn_ofSource source).advanceBy _,
      .inr (Nat.zero_le _), ?_⟩
    simp [HandedOut]

/-- From the start of a source or from any of its bytes, behind any calls in any order: the
scanner stands between two characters, no replacement is still counted as open, and each call
that reads something passes no more than there is, and something unless it answers with the
end. Behind as many of these as the source has bytes, there is nothing but the end; and a call
up to the end or the first error is left without an answer if and only if an earlier one has
been answered with one of these. -/
theorem run_safe (source : List Char) (start : Scanner)
    (hstart : start = ofSource source ∨ ∃ offset, start = ofOffset source offset)
    (calls : List Call) :
    CountingScanner.run calls ⟨start, 0⟩ = ((start.run calls).1, ⟨(start.run calls).2, 0⟩) ∧
      (start.run calls).2.cursor.StandsIn source ∧
      (∀ call found, ((start.run calls).2.call call).1 = some found →
        Advances source (start.run calls).2 ((start.run calls).2.call call).2 found) ∧
      (byteCount source ≤ (readings (start.run calls).1).length →
        ((start.run calls).2.call .nextToken).1 = some (.ok (endOf source))) ∧
      (((start.run calls).2.call .next).1 = none ↔ HandedOut (start.run calls).1) := by
  have hreached : Reached source [] start := by
    obtain rfl | ⟨offset, rfl⟩ := hstart
    · exact reached_ofSource source
    · exact reached_ofOffset source offset
  have hrun := hreached.run calls
  rw [List.nil_append] at hrun
  refine ⟨CountingScanner.run_eq start calls, hrun.stands, ?_, ?_, ?_⟩
  · intro call found hfound
    cases call with
    | nextToken =>
      obtain rfl := Option.some.inj hfound
      exact hrun.advances
    | next =>
      obtain ⟨htells, hwithin, hpasses, hadvances, heof⟩ := hrun.advances
      rw [Scanner.call, next?] at hfound ⊢
      split at hfound
      · cases hfound
      · next hopen =>
        obtain rfl := Option.some.inj hfound
        rw [if_neg hopen]
        exact ⟨htells, hwithin, hpasses, hadvances, heof⟩
  · intro hbytes
    have hrest := hrun.rest_eq_nil hbytes
    rw [Scanner.call, (read_of_rest hrest).1, tokenOf_eof hrun.placed hrun.stands hrest]
  · rw [← hrun.finished, Scanner.call, next?]
    split
    · next hfinished => simp [hfinished]
    · next hopen => simpa using hopen

/-- Behind the character `$`, which starts no token, there is nothing but the end. -/
theorem run_safe_fault :
    byteCount ['$'] ≤ (readings ((ofSource ['$']).run [.next]).1).length ∧
      (((ofSource ['$']).run [.next]).2.call .nextToken).1 = some (.ok (endOf ['$'])) := by
  have hbytes : byteCount ['$'] ≤ (readings ((ofSource ['$']).run [.next]).1).length := by
    decide +kernel
  exact ⟨hbytes, (run_safe ['$'] _ (.inl rfl) [.next]).2.2.2.1 hbytes⟩

end Scanner

end PipelineLang
