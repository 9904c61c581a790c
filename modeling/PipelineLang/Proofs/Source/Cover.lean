import PipelineLang.Source.Cursor

/-!
# The text of a span

## Main definitions

- `byteCount` — the number of bytes of a text
- `Span.textIn` — the text between the bytes of a span
- `Span.Covers` — a text lies in a source where a span says
- `Cursor.StandsIn` — a cursor stands at a place of a source

## Main results

- `Span.Covers.textIn` — the text that a span covers is the text between its bytes
- `Span.Covers.through` — two spans next to each other cover their texts together
- `Cursor.StandsIn.covers` — a cursor tells the spans of what is ahead
-/

namespace PipelineLang

/-- The number of bytes of a text. -/
def byteCount : List Char → Nat
  | [] => 0
  | c :: text => c.utf8Size + byteCount text

@[simp] theorem byteCount_nil : byteCount [] = 0 := rfl

@[simp] theorem byteCount_cons (c : Char) (text : List Char) :
    byteCount (c :: text) = c.utf8Size + byteCount text := rfl

@[simp] theorem byteCount_append (text other : List Char) :
    byteCount (text ++ other) = byteCount text + byteCount other := by
  induction text with
  | nil => simp
  | cons c text ih => simp [ih, Nat.add_assoc]

theorem Cursor.charactersBefore_byteCount (text behind : List Char) :
    charactersBefore (byteCount text) (text ++ behind) = text.length := by
  induction text with
  | nil =>
    cases behind with
    | nil => rfl
    | cons c behind =>
      have := Char.utf8Size_pos c
      rw [byteCount_nil, List.nil_append, charactersBefore, if_neg (by omega)]
      rfl
  | cons c text ih =>
    rw [byteCount_cons, List.cons_append, charactersBefore, if_pos (by omega),
      Nat.add_sub_cancel_left, ih, List.length_cons, Nat.add_comm]

namespace Span

/-- The text between the bytes of a span. -/
def textIn (source : List Char) (span : Span) : List Char :=
  (source.take (Cursor.charactersBefore span.stop source)).drop
    (Cursor.charactersBefore span.start source)

/-- Whether a text lies in a source where a span says. -/
def Covers (source : List Char) (span : Span) (text : List Char) : Prop :=
  ∃ front back, source = front ++ (text ++ back) ∧ span.start = byteCount front ∧
    span.stop = byteCount (front ++ text)

theorem Covers.textIn {source : List Char} {span : Span} {text : List Char}
    (h : span.Covers source text) : span.textIn source = text := by
  obtain ⟨front, back, rfl, hstart, hstop⟩ := h
  rw [Span.textIn, hstart, hstop, Cursor.charactersBefore_byteCount, ← List.append_assoc,
    Cursor.charactersBefore_byteCount, List.take_left, List.drop_left]

/-- Where two spans are next to each other, the span through both covers both texts. -/
theorem Covers.through {source : List Char} {first second : Span} {text other : List Char}
    (h : first.Covers source text) (hother : second.Covers source other)
    (hnext : second.start = first.stop) : (first.through second).Covers source (text ++ other) := by
  obtain ⟨front, back, hsource, hstart, hstop⟩ := h
  obtain ⟨front', back', hsource', hstart', hstop'⟩ := hother
  have hlength : front'.length = (front ++ text).length := by
    rw [← Cursor.charactersBefore_byteCount front' (other ++ back'), ← hsource', ← hstart', hnext,
      hstop, hsource, ← List.append_assoc, Cursor.charactersBefore_byteCount]
  have hfront : front ++ text = front' := by
    rw [← List.append_assoc] at hsource
    exact (List.append_inj (hsource.symm.trans hsource') hlength.symm).1
  subst hfront
  refine ⟨front, back', by simpa using hsource', hstart, ?_⟩
  rw [← List.append_assoc]
  exact hstop'

end Span

namespace Cursor

theorem rest_advance (here : Cursor) : here.advance.rest = here.rest.drop 1 := by
  unfold advance
  split
  · next h => rw [h]; rfl
  · next h => split <;> simp [h]

theorem rest_advanceBy (here : Cursor) (n : Nat) : (here.advanceBy n).rest = here.rest.drop n := by
  induction n generalizing here with
  | zero => rfl
  | succ n ih => rw [advanceBy, ih, rest_advance, List.drop_drop, Nat.add_comm]

theorem offset_advance (here : Cursor) :
    here.advance.offset = here.offset + byteCount (here.rest.take 1) := by
  unfold advance
  split
  · next h => rw [h]; rfl
  · next h => split <;> simp [h]

theorem offset_advanceBy (here : Cursor) (n : Nat) :
    (here.advanceBy n).offset = here.offset + byteCount (here.rest.take n) := by
  induction n generalizing here with
  | zero => simp [advanceBy]
  | succ n ih =>
    rw [advanceBy, ih, offset_advance, rest_advance, Nat.add_assoc, ← byteCount_append,
      ← List.take_add, Nat.add_comm 1 n]

/-- Whether a cursor stands at a place of a source. -/
def StandsIn (source : List Char) (here : Cursor) : Prop :=
  ∃ passed, source = passed ++ here.rest ∧ here.offset = byteCount passed

theorem standsIn_ofSource (source : List Char) : (ofSource source).StandsIn source := by
  cases source with
  | nil => exact ⟨[], rfl, rfl⟩
  | cons c source =>
    rw [ofSource]
    split
    · exact ⟨[c], rfl, by simp⟩
    · exact ⟨[], rfl, rfl⟩

theorem StandsIn.advanceBy {source : List Char} {here : Cursor} (h : here.StandsIn source)
    (n : Nat) : (here.advanceBy n).StandsIn source := by
  obtain ⟨passed, hsource, hoffset⟩ := h
  refine ⟨passed ++ here.rest.take n, ?_, ?_⟩
  · rw [rest_advanceBy, List.append_assoc, List.take_append_drop, hsource]
  · rw [offset_advanceBy, hoffset, byteCount_append]

/-- The span of what is next covers it. -/
theorem StandsIn.covers {source : List Char} {here : Cursor} (h : here.StandsIn source)
    (n : Nat) : (here.spanBetween 0 n).Covers source (here.rest.take n) := by
  obtain ⟨passed, hsource, hoffset⟩ := h
  refine ⟨passed, here.rest.drop n, ?_, hoffset, ?_⟩
  · rw [List.take_append_drop, hsource]
  · rw [byteCount_append, ← hoffset]
    exact offset_advanceBy here n

end Cursor

end PipelineLang
