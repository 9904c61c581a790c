import PipelineLang.Token.Recognition

/-!
# The text of format strings

Between its replacements, the text of a format string is passed a character, an escape or a
doubled brace at a time.

## Main definitions

- `FormatBody.textStride?` — how much text is passed at once
- `FormatBody.Skims` — how much text is passed in some strides

## Main results

- `FormatBody.stop_of_textStride?`, `FormatBody.exists_of_go` — the strides of a format string
-/

namespace PipelineLang

theorem Escape.length?_pos {inFormat : Bool} {c : Char} {rest : List Char} {n : Nat}
    (h : length? inFormat (c :: rest) = some n) : 0 < n := by
  unfold length? at h
  split at h
  · next heq => simp at heq
  · split at h
    · rw [← Option.some.inj h]
      decide
    · simp at h
  · dsimp only at h
    split at h
    · rw [← Option.some.inj h]
      omega
    · simp at h
  · split at h
    · rw [← Option.some.inj h]
      decide
    · simp at h

namespace FormatBody

/-- The number of characters that are passed as text at once; none where the format string
ends, a replacement starts, or an escape is not well-formed. -/
def textStride? : List Char → Option Nat
  | [] => none
  | c :: rest =>
    let doubled := rest.head? == some c
    if c = '\x22' then none
    else if c = '\x7b' && !doubled then none
    else if c = Escape.backslash then (Escape.length? true rest).map (1 + ·)
    else if c = '\x7b' || (c = '\x7d' && doubled) then some 2
    else some 1

/-- Some characters are passed as text, stride by stride. -/
inductive Skims : List Char → Nat → Prop
  | nil {ahead} : Skims ahead 0
  | cons {ahead n m} (h : textStride? ahead = some n) (hrest : Skims (ahead.drop n) m) :
    Skims ahead (n + m)

variable {replacement : Option TokenKind → List Char → Except LexicalFault Replacement}
  {position extra n m : Nat} {state state' : State} {ahead : List Char}

theorem textStride?_pos (h : textStride? ahead = some n) : 0 < n := by
  cases ahead with
  | nil => simp [textStride?] at h
  | cons c rest =>
    simp only [textStride?] at h
    repeat' split at h
    · simp at h
    · simp at h
    · obtain ⟨k, -, rfl⟩ := Option.map_eq_some_iff.mp h
      omega
    · exact Option.some.inj h ▸ Nat.two_pos
    · exact Option.some.inj h ▸ Nat.one_pos

/-- Text is passed, and it goes on or starts. -/
theorem stop_of_textStride? (h : textStride? ahead = some n) :
    read.stop replacement position state ahead = .go (n - 1) (state.inText position) := by
  cases ahead with
  | nil => simp [textStride?] at h
  | cons c rest =>
    simp only [textStride?] at h
    simp only [read.stop]
    split at h
    · simp at h
    next hquote =>
    rw [if_neg hquote]
    split at h
    · simp at h
    next hbrace =>
    rw [if_neg hbrace]
    split at h
    · next hescape =>
      obtain ⟨k, hk, rfl⟩ := Option.map_eq_some_iff.mp h
      rw [if_pos hescape, hk, Nat.add_sub_cancel_left]
    next hescape =>
    rw [if_neg hescape]
    split at h
    all_goals
      next hdoubled =>
      obtain rfl := Option.some.inj h
      simp only [hdoubled]
      rfl

/-- What a format string goes on behind is text or a replacement. -/
theorem exists_of_go (h : read.stop replacement position state ahead = .go extra state') :
    (textStride? ahead = some (extra + 1) ∧ state' = state.inText position) ∨
      ∃ found, ahead.head? = some '\x7b' ∧ replacement state.previous ahead = .ok found ∧
        extra = found.length - 1 ∧
        state' = ⟨.replacement position (position + found.innerStop) (position + found.length) ::
          state.partsUpTo position, none, some .rBrace⟩ := by
  cases ahead with
  | nil => simp [read.stop] at h
  | cons c rest =>
    by_cases htext : ∃ n, textStride? (c :: rest) = some n
    · obtain ⟨n, hn⟩ := htext
      rw [stop_of_textStride? hn] at h
      obtain ⟨rfl, rfl⟩ := Stride.go.inj h
      rw [Nat.sub_add_cancel (textStride?_pos hn)]
      exact .inl ⟨hn, rfl⟩
    · right
      simp only [textStride?] at htext
      simp only [read.stop] at h
      split at h
      · simp at h
      next hquote =>
      rw [if_neg hquote] at htext
      split at h
      · next hbrace =>
        simp only [Bool.and_eq_true, decide_eq_true_eq] at hbrace
        split at h
        · simp at h
        · next found hfound =>
          obtain ⟨rfl, rfl⟩ := Stride.go.inj h
          exact ⟨found, congrArg some hbrace.1, hfound, rfl, rfl⟩
      next hbrace =>
      rw [if_neg hbrace] at htext
      split at h
      · next hescape =>
        rw [if_pos hescape] at htext
        split at h
        · next k hk => exact absurd ⟨_, by rw [hk]; rfl⟩ htext
        · simp at h
      next hescape =>
      rw [if_neg hescape] at htext
      split at htext <;> simp at htext

theorem Skims.snoc (h : Skims ahead m) (hn : textStride? (ahead.drop m) = some n) :
    Skims ahead (m + n) := by
  induction h with
  | nil =>
    rw [Nat.zero_add]
    exact .cons hn .nil
  | cons hstride _ ih =>
    rw [List.drop_drop] at ih
    rw [Nat.add_assoc]
    exact .cons hstride (ih hn)

end FormatBody

end PipelineLang
