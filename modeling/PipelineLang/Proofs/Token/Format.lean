import PipelineLang.Proofs.Text.Walking
import PipelineLang.Proofs.Token.Skimming
import PipelineLang.Proofs.Token.Spelling

/-!
# What format strings consist of

## Main definitions

- `Replacement.Sees` — the tokens that lie between the braces of a replacement
- `FormatBody.Parts` — pieces of a format string, one behind another

## Main results

- `Replacement.sees_of_read`, `Replacement.read_of_sees` — a replacement is read token by
  token
- `FormatBody.parts_of_read` — a format string is read piece by piece

## Design notes

Both relations leave out where a walk stops and say what has been passed, so they can be
carried over from one text to another one that starts in the same way.
-/

namespace PipelineLang

namespace Replacement

/-- The state behind the gap and the token that are next. -/
def State.behind (state : State) (lexeme : Lexeme) (ahead : List Char) : State :=
  let depth := match lexeme.kind with
    | .lBrace => state.depth + 1
    | .rBrace => state.depth - 1
    | _ => state.depth
  ⟨depth, (state.before.pass (Gap.length ahead) ahead).passToken lexeme
    (ahead.drop (Gap.length ahead))⟩

/-- The tokens of `text` from a position on, up to the brace that closes the replacement,
which is at `innerStop`; each with its position. -/
inductive Sees (token : Before → List Char → Except LexicalFault Lexeme) (text : List Char) :
    (position : Nat) → State → List (Nat × Lexeme) → (innerStop : Nat) → Prop
  | close {position state length}
    (htoken : token (state.before.pass (Gap.length (text.drop position)) (text.drop position))
      (text.drop (position + Gap.length (text.drop position))) = .ok ⟨.rBrace, length⟩)
    (hdepth : state.depth = 0) :
    Sees token text position state [] (position + Gap.length (text.drop position))
  | token {position state lexeme seen innerStop}
    (htoken : token (state.before.pass (Gap.length (text.drop position)) (text.drop position))
      (text.drop (position + Gap.length (text.drop position))) = .ok lexeme)
    (hkind : lexeme.kind ≠ .eof) (hopen : lexeme.kind = .rBrace → state.depth ≠ 0)
    (hrest : Sees token text (position + Gap.length (text.drop position) + lexeme.length)
      (state.behind lexeme (text.drop position)) seen innerStop) :
    Sees token text position state
      ((position + Gap.length (text.drop position), lexeme) :: seen) innerStop

/-- What is seen before the first token of a replacement. -/
def State.opening (text : List Char) : State := ⟨0, ⟨some .lParen, text.head?⟩⟩

/-- Each token but the end takes a character. -/
def Progresses (token : Before → List Char → Except LexicalFault Lexeme) : Prop :=
  ∀ ⦃before text lexeme⦄, token before text = .ok lexeme → lexeme.kind ≠ .eof →
    text ≠ [] ∧ 0 < lexeme.length

variable {token : Before → List Char → Except LexicalFault Lexeme} {text : List Char}

/-- What is decided before a token that can be read. -/
theorem stop_eq {position : Nat} {state : State} {lexeme : Lexeme} {ahead : List Char}
    (htoken : token (state.before.pass (Gap.length ahead) ahead)
      (ahead.drop (Gap.length ahead)) = .ok lexeme) (hkind : lexeme.kind ≠ .eof) :
    read.stop token position state ahead =
      if lexeme.kind = .rBrace ∧ state.depth = 0 then .done (.ok ⟨position + Gap.length ahead⟩)
      else .go (Gap.length ahead + lexeme.length - 1) (state.behind lexeme ahead) := by
  simp only [read.stop, htoken, State.behind]
  obtain ⟨depth, before⟩ := state
  cases hk : lexeme.kind <;> first | exact absurd hk hkind | cases depth <;> simp

theorem stop_eof {position : Nat} {state : State} {length : Nat} {ahead : List Char}
    (htoken : token (state.before.pass (Gap.length ahead) ahead)
      (ahead.drop (Gap.length ahead)) = .ok ⟨.eof, length⟩) :
    read.stop token position state ahead =
      .done (read.finish (position + Gap.length ahead) state) := by
  simp only [read.stop, htoken]

theorem stop_error {position : Nat} {state : State} {fault : LexicalFault} {ahead : List Char}
    (htoken : token (state.before.pass (Gap.length ahead) ahead)
      (ahead.drop (Gap.length ahead)) = .error fault) :
    read.stop token position state ahead =
      .done (.error (fault.shift (position + Gap.length ahead))) := by
  simp only [read.stop, htoken]

/-- A replacement ends with a brace that closes none of its own. -/
theorem exists_of_done {position : Nat} {state : State} {ahead : List Char} {found : Replacement}
    (h : read.stop token position state ahead = .done (.ok found)) :
    ∃ length, token (state.before.pass (Gap.length ahead) ahead) (ahead.drop (Gap.length ahead)) =
      .ok ⟨.rBrace, length⟩ ∧ state.depth = 0 ∧ found = ⟨position + Gap.length ahead⟩ := by
  cases htoken : token (state.before.pass (Gap.length ahead) ahead)
      (ahead.drop (Gap.length ahead)) with
  | error fault =>
    rw [stop_error htoken] at h
    simp at h
  | ok lexeme =>
    obtain ⟨kind, length⟩ := lexeme
    by_cases hkind : kind = .eof
    · subst hkind
      rw [stop_eof htoken] at h
      simp [read.finish] at h
    · rw [stop_eq htoken hkind] at h
      split at h
      · next hclose =>
        obtain ⟨rfl, hdepth⟩ : kind = .rBrace ∧ state.depth = 0 := hclose
        exact ⟨length, rfl, hdepth, (Except.ok.inj (Stride.done.inj h)).symm⟩
      · simp at h

/-- What a replacement goes on behind is a token other than that brace. -/
theorem exists_of_go {position extra : Nat} {state state' : State} {ahead : List Char}
    (h : read.stop token position state ahead = .go extra state') :
    ∃ lexeme, token (state.before.pass (Gap.length ahead) ahead) (ahead.drop (Gap.length ahead)) =
      .ok lexeme ∧ lexeme.kind ≠ .eof ∧ (lexeme.kind = .rBrace → state.depth ≠ 0) ∧
      extra = Gap.length ahead + lexeme.length - 1 ∧ state' = state.behind lexeme ahead := by
  cases htoken : token (state.before.pass (Gap.length ahead) ahead)
      (ahead.drop (Gap.length ahead)) with
  | error fault =>
    rw [stop_error htoken] at h
    simp at h
  | ok lexeme =>
    by_cases hkind : lexeme.kind = .eof
    · obtain ⟨kind, length⟩ := lexeme
      obtain rfl : kind = .eof := hkind
      rw [stop_eof htoken] at h
      simp at h
    · rw [stop_eq htoken hkind] at h
      split at h
      · simp at h
      · next hopen =>
        obtain ⟨hextra, hstate⟩ := Stride.go.inj h
        exact ⟨lexeme, rfl, hkind, fun hk hdepth => hopen ⟨hk, hdepth⟩, hextra.symm, hstate.symm⟩

theorem sees_of_walks (hprogress : Progresses token) {position : Nat} {state : State}
    {result : Except LexicalFault Replacement}
    (h : Walks (read.stop token) read.finish text position state result) {found : Replacement}
    (hfound : result = .ok found) :
    ∃ seen, Sees token text position state seen found.innerStop := by
  induction h with
  | finish => simp [read.finish] at hfound
  | @done position state result hlt hstop =>
    subst hfound
    obtain ⟨length, htoken, hdepth, rfl⟩ := exists_of_done hstop
    rw [List.drop_drop] at htoken
    exact ⟨[], .close htoken hdepth⟩
  | @go position state extra state' result hlt hstop hrest ih =>
    obtain ⟨seen, hseen⟩ := ih hfound
    obtain ⟨lexeme, htoken, hkind, hopen, rfl, rfl⟩ := exists_of_go hstop
    have hpos := (hprogress htoken hkind).2
    have hposition : position + 1 + (Gap.length (text.drop position) + lexeme.length - 1) =
        position + Gap.length (text.drop position) + lexeme.length := by omega
    rw [hposition] at hseen
    rw [List.drop_drop] at htoken
    exact ⟨_, .token htoken hkind hopen hseen⟩

/-- A replacement is read token by token, up to its closing brace. -/
theorem sees_of_read (hprogress : Progresses token) {found : Replacement}
    (h : read token text = .ok found) :
    ∃ seen, Sees token text 1 (.opening text) seen found.innerStop := by
  cases text with
  | nil => simp [read, walk, read.finish] at h
  | cons c rest =>
    have hle : 1 ≤ (c :: rest).length := Nat.succ_pos _
    have hwalks : Walks (read.stop token) read.finish (c :: rest) 1 (State.opening (c :: rest))
        (read token (c :: rest)) := walks_walk (State.opening (c :: rest)) hle
    exact sees_of_walks hprogress hwalks h

theorem Sees.lt {position : Nat} {state : State} {seen : List (Nat × Lexeme)} {innerStop : Nat}
    (hprogress : Progresses token) (h : Sees token text position state seen innerStop) :
    position ≤ innerStop ∧ innerStop < text.length := by
  induction h with
  | @close position state length htoken hdepth =>
    have hne := (hprogress htoken (by simp)).1
    rw [ne_eq, List.drop_eq_nil_iff] at hne
    omega
  | token htoken hkind hopen hrest ih => omega

theorem walks_of_sees (hprogress : Progresses token) {position : Nat} {state : State}
    {seen : List (Nat × Lexeme)} {innerStop : Nat}
    (h : Sees token text position state seen innerStop) :
    Walks (read.stop token) read.finish text position state (.ok ⟨innerStop⟩) := by
  induction h with
  | @close position state length htoken hdepth =>
    have hlt := (Sees.close htoken hdepth).lt hprogress
    rw [← List.drop_drop] at htoken
    refine .done (by omega) ?_
    rw [stop_eq htoken (by simp), if_pos ⟨rfl, hdepth⟩]
  | @token position state lexeme seen innerStop htoken hkind hopen hrest ih =>
    have hlt := hrest.lt hprogress
    have hpos := (hprogress htoken hkind).2
    rw [← List.drop_drop] at htoken
    have hstride : read.stop token position state (text.drop position) =
        .go (Gap.length (text.drop position) + lexeme.length - 1)
          (state.behind lexeme (text.drop position)) := by
      rw [stop_eq htoken hkind, if_neg (fun h => hopen h.1 h.2)]
    refine .go (by omega) hstride ?_
    have hposition : position + 1 + (Gap.length (text.drop position) + lexeme.length - 1) =
        position + Gap.length (text.drop position) + lexeme.length := by omega
    rwa [hposition]

/-- Tokens up to a closing brace make a replacement. -/
theorem read_of_sees (hprogress : Progresses token) {seen : List (Nat × Lexeme)} {innerStop : Nat}
    (h : Sees token text 1 (.opening text) seen innerStop) : read token text = .ok ⟨innerStop⟩ := by
  have hlt := h.lt hprogress
  exact (walks_of_sees hprogress h).walk_eq (by omega)

theorem progresses_recognizeWith
    (replacement : Option TokenKind → List Char → Except LexicalFault Replacement) :
    Progresses (Lexeme.recognizeWith replacement) :=
  fun _ _ _ h hkind => (Lexeme.recognized_of_ok h).length_pos hkind

/-- A replacement ends within the text. -/
theorem innerStop_lt (hprogress : Progresses token) {found : Replacement}
    (h : read token text = .ok found) : 1 ≤ found.innerStop ∧ found.innerStop < text.length := by
  obtain ⟨seen, hseen⟩ := sees_of_read hprogress h
  exact hseen.lt hprogress

end Replacement

theorem Lexeme.replacement_bounds {levels : Nat} {previous : Option TokenKind} {text : List Char}
    {found : Replacement} (h : Lexeme.replacement levels previous text = .ok found) :
    1 ≤ found.innerStop ∧ found.innerStop < text.length := by
  cases levels with
  | zero => simp [Lexeme.replacement] at h
  | succ levels =>
    exact Replacement.innerStop_lt (Replacement.progresses_recognizeWith _) h

namespace FormatBody

/-- Whether a part is text. -/
def IsText : FormatPart → Prop
  | .text _ _ => True
  | .replacement _ _ _ => False

/-- Pieces of the format string at the head of `text`, the last one first, up to a position
that comes behind a token of the kind `previous`. No text is behind other text. -/
inductive Parts (replacement : Option TokenKind → List Char → Except LexicalFault Replacement)
    (text : List Char) (before : Option TokenKind) :
    List FormatPart → (previous : Option TokenKind) → (position : Nat) → Prop
  | nil : Parts replacement text before [] before (Cursor.charactersBefore openingBytes text)
  | text {parts previous start stop} (hparts : Parts replacement text before parts previous start)
    (hlt : start < stop) (hskims : Skims (text.drop start) (stop - start))
    (hapart : ∀ part ∈ parts.head?, ¬ IsText part) :
    Parts replacement text before (.text start stop :: parts) previous stop
  | replacement {parts previous start found}
    (hparts : Parts replacement text before parts previous start)
    (hopening : (text.drop start).head? = some '\x7b')
    (hfound : replacement previous (text.drop start) = .ok found) :
    Parts replacement text before
      (.replacement start (start + found.innerStop) (start + found.length) :: parts)
      (some .rBrace) (start + found.length)

variable {replacement : Option TokenKind → List Char → Except LexicalFault Replacement}
  {text : List Char} {before : Option TokenKind}

/-- What has been read at a stop: pieces up to where the text that is being read has
started, and strides of text from there on. -/
def Invariant (replacement : Option TokenKind → List Char → Except LexicalFault Replacement)
    (text : List Char) (before : Option TokenKind) (position : Nat) (state : State) : Prop :=
  ∃ start, Parts replacement text before state.parts state.previous start ∧
    (∀ part ∈ state.parts.head?, ¬ IsText part) ∧
    ((state.textStart = none ∧ start = position) ∨
      (state.textStart = some start ∧ start < position ∧
        Skims (text.drop start) (position - start)))

theorem Invariant.partsUpTo {position : Nat} {state : State}
    (h : Invariant replacement text before position state) :
    Parts replacement text before (state.partsUpTo position) state.previous position := by
  obtain ⟨start, hparts, hapart, ⟨hnone, rfl⟩ | ⟨hsome, hlt, hskims⟩⟩ := h
  · rwa [State.partsUpTo, hnone]
  · rw [State.partsUpTo, hsome]
    exact .text hparts hlt hskims hapart

theorem Invariant.inText {position n : Nat} {state : State}
    (h : Invariant replacement text before position state)
    (hstride : textStride? (text.drop position) = some n) :
    Invariant replacement text before (position + n) (state.inText position) := by
  have hpos := textStride?_pos hstride
  obtain ⟨start, hparts, hapart, ⟨hnone, rfl⟩ | ⟨hsome, hlt, hskims⟩⟩ := h
  · refine ⟨start, hparts, hapart,
      .inr ⟨by rw [State.inText, hnone, Option.getD_none], by omega, ?_⟩⟩
    rw [Nat.add_sub_cancel_left]
    exact .cons hstride .nil
  · refine ⟨start, hparts, hapart,
      .inr ⟨by rw [State.inText, hsome, Option.getD_some], by omega, ?_⟩⟩
    rw [Nat.sub_add_comm (Nat.le_of_lt hlt)]
    refine hskims.snoc ?_
    rwa [List.drop_drop, Nat.add_sub_cancel' (Nat.le_of_lt hlt)]

/-- What has been read of a format string when its walk ends. -/
structure Ends (replacement : Option TokenKind → List Char → Except LexicalFault Replacement)
    (text : List Char) (before : Option TokenKind) (body : FormatBody) : Prop where
  length_pos : 0 < body.length
  parts : ∃ previous, Parts replacement text before body.parts.reverse previous (body.length - 1)
  closing : (text.drop (body.length - 1)).head? = some '\x22'

theorem ends_of_walks {position : Nat} {state : State} {result : Except LexicalFault FormatBody}
    (h : Walks (read.stop replacement) read.finish text position state result)
    (hinvariant : Invariant replacement text before position state) {body : FormatBody}
    (hbody : result = .ok body) : Ends replacement text before body := by
  induction h with
  | finish => simp [read.finish] at hbody
  | @done position state result hlt hstop =>
    subst hbody
    rw [List.drop_eq_getElem_cons hlt] at hstop
    unfold read.stop at hstop
    dsimp only at hstop
    split at hstop
    · next hquote =>
      obtain rfl := Except.ok.inj (Stride.done.inj hstop)
      refine ⟨Nat.succ_pos _, ⟨state.previous, ?_⟩, ?_⟩
      · rw [List.reverse_reverse]
        exact hinvariant.partsUpTo
      · rw [Nat.add_sub_cancel, List.drop_eq_getElem_cons hlt, List.head?_cons, hquote]
    · repeat' split at hstop
      all_goals simp at hstop
  | @go position state extra state' result hlt hstop hrest ih =>
    refine ih ?_ hbody
    obtain ⟨hstride, rfl⟩ | ⟨found, hopening, hfound, rfl, rfl⟩ := exists_of_go hstop
    · rw [Nat.add_assoc, Nat.add_comm 1]
      exact hinvariant.inText hstride
    · have hposition : position + 1 + (found.length - 1) = position + found.length := by
        rw [Replacement.length]
        omega
      rw [hposition]
      exact ⟨_, .replacement hinvariant.partsUpTo hopening hfound, by rintro _ ⟨⟩; exact id,
        .inl ⟨rfl, rfl⟩⟩

/-- A format string is read piece by piece, up to its closing quote. -/
theorem parts_of_read {before : Before} {body : FormatBody}
    (h : read replacement before text = .ok body) :
    Ends replacement text before.previous body := by
  have hle : Cursor.charactersBefore openingBytes text ≤ text.length := by
    have hcount : ∀ (offset : Nat) (text : List Char),
        Cursor.charactersBefore offset text ≤ text.length := by
      intro offset text
      induction text generalizing offset with
      | nil => exact Nat.le_refl 0
      | cons c rest ih =>
        rw [Cursor.charactersBefore, List.length_cons]
        split
        · have := ih (offset - c.utf8Size)
          omega
        · exact Nat.zero_le _
    exact hcount _ _
  exact ends_of_walks (walks_walk _ hle) ⟨_, .nil, by simp, .inl ⟨rfl, rfl⟩⟩ h

theorem Ends.length_le {body : FormatBody} (h : Ends replacement text before body) :
    body.length ≤ text.length := by
  have hclosing := h.closing
  have hlt : body.length - 1 < text.length := by
    by_contra hge
    rw [List.drop_of_length_le (by omega)] at hclosing
    simp at hclosing
  have := h.length_pos
  omega

end FormatBody

end PipelineLang
