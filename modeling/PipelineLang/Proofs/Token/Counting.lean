import PipelineLang.Proofs.Token.Format
import PipelineLang.Token.Scanner

/-!
# Counting open replacements

Recognition is told how many levels replacements may still be nested. A scanner may as well
count the replacements that are open, with one counter that it keeps from token to token, and
refuse one where too many are open. Here it does, and nothing else comes of it: the counter
is back where it was behind each token and behind each fault.

## Main definitions

- `Counted` — what is found while open replacements are counted
- `Lexeme.countedReplacement`, `Lexeme.countedRecognize` — recognition with a counter
- `CountingScanner` — a scanner with a counter

## Main results

- `Lexeme.countedRecognize_eq` — a token leaves the counter as it was, and so does a fault
- `CountingScanner.read_eq` — a scanner reads the same if it counts

## Design notes

The counter is one for the whole of a scanner, so each reader hands on what the readers that
it asks have left of it. Were it not taken back behind a fault, what is read behind the fault
would be refused too early.
-/

namespace PipelineLang

/-- What is found while the open replacements are counted, and their number behind it. -/
abbrev Counted (α : Type) := (count : Nat) → Except LexicalFault α × Nat

namespace Replacement

/-- What is decided before a token of a replacement, with the count behind the token. -/
def countedStop (token : Before → List Char → Counted Lexeme) (position : Nat)
    (state : State × Nat) (ahead : List Char) :
    Stride (State × Nat) (Except LexicalFault Replacement × Nat) :=
  let gap := Gap.length ahead
  let behind := (token (state.1.before.pass gap ahead) (ahead.drop gap) state.2).2
  match read.stop (fun before text => (token before text state.2).1) position state.1 ahead with
  | .done found => .done (found, behind)
  | .go extra next => .go extra (next, behind)

/-- The place of the closing brace of a replacement, counting what is open in it. -/
def countedRead (token : Before → List Char → Counted Lexeme) (text : List Char) :
    Counted Replacement := fun count =>
  walk (countedStop token) (fun position state => (read.finish position state.1, state.2)) 0 1
    (.opening text, count) (text.drop 1)

theorem countedRead_eq {token : Before → List Char → Except LexicalFault Lexeme}
    {counted : Before → List Char → Counted Lexeme} {count : Nat}
    (h : ∀ before text, counted before text count = (token before text, count))
    (text : List Char) : countedRead counted text count = (read token text, count) := by
  refine walk_alike (R := fun state state' => state = (state', count))
    (S := fun found found' => found = (found', count)) ?_ ?_ 0 1 _ rfl
  · rintro position _ state rfl
    rfl
  · rintro position _ state ahead rfl
    simp only [countedStop, h]
    cases read.stop token position state ahead with
    | done found => exact .done rfl
    | go extra next => exact .go rfl

end Replacement

namespace FormatBody

/-- Whether a replacement is at the head of a text, and not a doubled brace. -/
def opensReplacement : List Char → Bool
  | '\x7b' :: rest => rest.head? != some '\x7b'
  | _ => false

/-- What is decided at a character of a format string, with the count behind the replacement
that may start there. -/
def countedStop (replacement : Option TokenKind → List Char → Counted Replacement)
    (position : Nat) (state : State × Nat) (ahead : List Char) :
    Stride (State × Nat) (Except LexicalFault FormatBody × Nat) :=
  let behind :=
    if opensReplacement ahead then (replacement state.1.previous ahead state.2).2 else state.2
  match read.stop (fun previous text => (replacement previous text state.2).1) position state.1
    ahead with
  | .done found => .done (found, behind)
  | .go extra next => .go extra (next, behind)

/-- The pieces of a format string, counting what is open in it. -/
def countedRead (replacement : Option TokenKind → List Char → Counted Replacement)
    (before : Before) (text : List Char) : Counted FormatBody := fun count =>
  let opening := Cursor.charactersBefore openingBytes text
  walk (countedStop replacement) (fun position state => (read.finish position state.1, state.2)) 0
    opening (⟨[], none, before.previous⟩, count) (text.drop opening)

theorem countedRead_eq
    {replacement : Option TokenKind → List Char → Except LexicalFault Replacement}
    {counted : Option TokenKind → List Char → Counted Replacement} {count : Nat}
    (h : ∀ previous text, counted previous text count = (replacement previous text, count))
    (before : Before) (text : List Char) :
    countedRead counted before text count = (read replacement before text, count) := by
  refine walk_alike (R := fun state state' => state = (state', count))
    (S := fun found found' => found = (found', count)) ?_ ?_ 0 _ _ rfl
  · rintro position _ state rfl
    rfl
  · rintro position _ state ahead rfl
    simp only [countedStop, h, ite_self]
    cases read.stop replacement position state ahead with
    | done found => exact .done rfl
    | go extra next => exact .go rfl

end FormatBody

namespace Lexeme

/-- The token at the head of a text. Only a format string has replacements to be counted. -/
def countedToken (replacement : Option TokenKind → List Char → Counted Replacement)
    (before : Before) (text : List Char) : Counted Lexeme := fun count =>
  if ['f', '\x22'].isPrefixOf text then
    let (found, behind) := FormatBody.countedRead replacement before text count
    (found.map fun body => ⟨.formatString, body.length⟩, behind)
  else (recognizeWith (fun previous text => (replacement previous text count).1) before text, count)

/-- The extent of a replacement, which is counted while it is open. With too many open already,
its brace is at fault. No more than `mostLevels` are ever opened, so `fuel` of one more than
what may still be opened does not run out. -/
def countedReplacement : (fuel : Nat) → Option TokenKind → List Char → Counted Replacement
  | 0, previous, _, count => (.error ⟨.nestingTooDeep mostLevels, 0, 1, previous⟩, count)
  | fuel + 1, previous, text, count =>
    if mostLevels ≤ count then (.error ⟨.nestingTooDeep mostLevels, 0, 1, previous⟩, count)
    else
      let (found, behind) :=
        Replacement.countedRead (countedToken (countedReplacement fuel)) text (count + 1)
      (found, behind - 1)

/-- The token at the head of a text, where no gap is. -/
def countedRecognize : Before → List Char → Counted Lexeme :=
  countedToken (countedReplacement (mostLevels + 1))

theorem countedToken_eq
    {replacement : Option TokenKind → List Char → Except LexicalFault Replacement}
    {counted : Option TokenKind → List Char → Counted Replacement} {count : Nat}
    (h : ∀ previous text, counted previous text count = (replacement previous text, count))
    (before : Before) (text : List Char) :
    countedToken counted before text count = (recognizeWith replacement before text, count) := by
  rw [countedToken]
  split
  · next hformat =>
    obtain ⟨rest, rfl⟩ := List.isPrefixOf_iff_prefix.mp hformat
    rw [FormatBody.countedRead_eq h]
    rfl
  · simp only [h]

/-- With as many levels left as the counter leaves, the same is found, and the counter is back
where it was. -/
theorem countedReplacement_eq {levels count : Nat} (hcount : count + levels = mostLevels)
    (previous : Option TokenKind) (text : List Char) :
    countedReplacement (levels + 1) previous text count =
      (replacement levels previous text, count) := by
  induction levels generalizing count previous text with
  | zero =>
    rw [countedReplacement, if_pos (by omega)]
    rfl
  | succ levels ih =>
    have hinner : ∀ before text, countedToken (countedReplacement (levels + 1)) before text
        (count + 1) = (recognizeWith (replacement levels) before text, count + 1) :=
      countedToken_eq fun previous text => ih (by omega) previous text
    rw [countedReplacement, if_neg (by omega), Replacement.countedRead_eq hinner]
    rfl

/-- A token leaves the counter as it was, and so does a fault. -/
theorem countedRecognize_eq (before : Before) (text : List Char) :
    countedRecognize before text 0 = (recognize before text, 0) :=
  countedToken_eq (fun previous text => countedReplacement_eq (Nat.zero_add _) previous text) before
    text

end Lexeme

/-- What a scanner tells of the lexeme or the fault at its place, and the scanner behind it. -/
def Scanner.tell (scanner : Scanner) :
    Except LexicalFault Lexeme → Except LexicalError Token × Scanner
  | .ok ⟨.eof, _⟩ => (.ok (scanner.tokenOf .eof 0), scanner)
  | .ok lexeme =>
    let behind := scanner.before.passToken lexeme scanner.cursor.rest
    (.ok (scanner.tokenOf lexeme.kind lexeme.length),
      { scanner.pass lexeme.length with
        phase := scanner.phaseBehind lexeme.kind, previous := behind.previous })
  | .error fault =>
    (.error ⟨fault.cause, scanner.cursor.spanBetween fault.start fault.stop⟩,
      { scanner.pass fault.stop with
        phase := scanner.phaseBehindFault, previous := fault.previous })

/-- A scanner with a counter of the replacements that are open. -/
structure CountingScanner where
  scanner : Scanner
  count : Nat
deriving Repr, DecidableEq

namespace CountingScanner

/-- The next token, or why there is none, and the scanner behind it. -/
def read (here : CountingScanner) : Except LexicalError Token × CountingScanner :=
  if here.scanner.phase = .frontmatter then
    let (token, behind) := here.scanner.readFrontmatter
    (.ok token, ⟨behind, here.count⟩)
  else
    let scanner := here.scanner.passGap
    match scanner.opening? with
    | some length =>
      (.ok (scanner.tokenOf .frontmatterOpen length),
        ⟨{ scanner.pass length with phase := .frontmatter }, here.count⟩)
    | none =>
      let (found, count) :=
        Lexeme.countedRecognize scanner.before scanner.cursor.rest here.count
      let (answer, behind) := scanner.tell found
      (answer, ⟨behind, count⟩)

/-- The next token or error, unless the end or an error has been handed out. -/
def next? (here : CountingScanner) : Option (Except LexicalError Token) × CountingScanner :=
  if here.scanner.finished then (none, here)
  else
    let (found, behind) := here.read
    (some found, ⟨{ behind.scanner with finished := Scanner.isLast found }, behind.count⟩)

/-- A scanner with no replacement open reads the same if it counts them, and none is open
behind what it has read. -/
theorem read_eq (scanner : Scanner) :
    read ⟨scanner, 0⟩ = (scanner.read.1, ⟨scanner.read.2, 0⟩) := by
  rw [read, Scanner.read]
  dsimp only
  split
  · rfl
  · cases scanner.passGap.opening? with
    | some length => rfl
    | none =>
      simp only [Lexeme.countedRecognize_eq]
      rfl

theorem next?_eq (scanner : Scanner) :
    next? ⟨scanner, 0⟩ = (scanner.next?.1, ⟨scanner.next?.2, 0⟩) := by
  rw [next?, Scanner.next?]
  dsimp only
  split
  · rfl
  · rw [read_eq]

end CountingScanner

end PipelineLang
