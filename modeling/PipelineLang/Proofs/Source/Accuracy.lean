import Mathlib.Data.List.TakeWhile
import PipelineLang.Proofs.Source.Cover

/-!
# Lines and columns

A cursor counts lines and columns while it passes characters. Here they are counted from
the text that lies before a place, however a cursor has come there.

## Main definitions

- `LeadsTo` — the offset, the line and the column of the place behind a text
- `Span.IsAccurate` — a span says where some text of a source is
- `Cursor.IsPlaced` — a cursor knows its place in a source

## Main results

- `Cursor.IsPlaced.advance` — passing a character keeps a cursor's place right
- `Cursor.IsPlaced.spanBetween` — the spans that a cursor tells are accurate
- `Cursor.isPlaced_within` — so are those of a cursor in a part of the source
- `Span.IsAccurate.through` — from one accurate span to another

## Design notes

A cursor in a part of a source does not see what is behind that part, so its place says
which text is out of its sight.
-/

namespace PipelineLang

/-- A text without the byte order mark at its head, if it has one. -/
def withoutMark (text : List Char) : List Char :=
  if text.head? = some Cursor.byteOrderMark then text.drop 1 else text

/-- The number of characters behind the last line feed of a text. -/
def lastLineLength (text : List Char) : Nat := (text.reverse.takeWhile (· != '\n')).length

/-- Behind the text `passed` at the head of a source are this offset, line and column. A
byte order mark counts in offsets but not in columns. -/
structure LeadsTo (passed : List Char) (offset line column : Nat) : Prop where
  offset_eq : offset = byteCount passed
  line_eq : line = 1 + passed.count '\n'
  column_eq : column = 1 + lastLineLength (withoutMark passed)

/-- A span says from which byte to which byte some text of a source is, and on which line
and column it starts. -/
def Span.IsAccurate (source : List Char) (span : Span) : Prop :=
  ∃ passed text beyond, source = passed ++ (text ++ beyond) ∧
    LeadsTo passed span.start span.line span.column ∧ span.stop = byteCount (passed ++ text)

namespace Span

theorem IsAccurate.le {source : List Char} {span : Span} (h : span.IsAccurate source) :
    span.start ≤ span.stop ∧ span.stop ≤ byteCount source := by
  obtain ⟨passed, text, beyond, rfl, hstart, hstop⟩ := h
  have hstart := hstart.offset_eq
  simp only [byteCount_append] at hstop ⊢
  omega

/-- Of two accurate spans, the one through both is accurate if the second one does not
end before the first one starts. -/
theorem IsAccurate.through {source : List Char} {first last : Span}
    (hfirst : first.IsAccurate source) (hlast : last.IsAccurate source)
    (hle : first.start ≤ last.stop) : (first.through last).IsAccurate source := by
  obtain ⟨passed, text, beyond, hsource, hstart, -⟩ := hfirst
  obtain ⟨passed', text', beyond', hsource', -, hstop'⟩ := hlast
  have hoffset := hstart.offset_eq
  have hbegin : passed <+: source := ⟨_, hsource.symm⟩
  have hend : passed' ++ text' <+: source := ⟨beyond', by rw [hsource', List.append_assoc]⟩
  -- Both spans cut the source at a character, so the first cut lies before the second one.
  have hlength : passed.length ≤ (passed' ++ text').length := by
    by_contra hlt
    rw [not_le] at hlt
    have hcut : passed = passed' ++ text' ++ (passed.drop (passed' ++ text').length) := by
      obtain ⟨more, rfl⟩ := List.prefix_of_prefix_length_le hend hbegin (Nat.le_of_lt hlt)
      rw [List.drop_left]
    have hmore : passed.drop (passed' ++ text').length ≠ [] := by
      rw [ne_eq, List.drop_eq_nil_iff]
      omega
    have hbytes := congrArg byteCount hcut
    have hpos : 0 < byteCount (passed.drop (passed' ++ text').length) := by
      cases hdrop : passed.drop (passed' ++ text').length with
      | nil => exact absurd hdrop hmore
      | cons c rest =>
        have := Char.utf8Size_pos c
        rw [byteCount_cons]
        omega
    rw [byteCount_append, ← hstop', ← hoffset] at hbytes
    omega
  obtain ⟨middle, hmiddle⟩ := List.prefix_of_prefix_length_le hbegin hend hlength
  refine ⟨passed, middle, beyond', ?_, hstart, ?_⟩
  · rw [← List.append_assoc, hmiddle, List.append_assoc, hsource']
  · rw [hmiddle]
    exact hstop'

end Span

/-! ### The place behind one more character -/

theorem withoutMark_append {passed : List Char} (h : passed ≠ []) (c : Char) :
    withoutMark (passed ++ [c]) = withoutMark passed ++ [c] := by
  cases passed with
  | nil => exact absurd rfl h
  | cons d passed =>
    by_cases hd : d = Cursor.byteOrderMark <;> simp [withoutMark, hd]

theorem lastLineLength_append (text : List Char) (c : Char) :
    lastLineLength (text ++ [c]) = if c = '\n' then 0 else lastLineLength text + 1 := by
  simp only [lastLineLength, List.reverse_append, List.reverse_singleton, List.singleton_append]
  by_cases hc : c = '\n'
  · rw [if_pos hc, List.takeWhile_cons_of_neg (by simp [hc]), List.length_nil]
  · rw [if_neg hc, List.takeWhile_cons_of_pos (by simpa using hc), List.length_cons]

namespace LeadsTo

theorem nil : LeadsTo [] 0 1 1 := ⟨rfl, rfl, rfl⟩

/-- A byte order mark is on no column. -/
theorem mark : LeadsTo [Cursor.byteOrderMark] Cursor.byteOrderMark.utf8Size 1 1 :=
  ⟨by simp, rfl, rfl⟩

variable {passed : List Char} {offset line column : Nat}

theorem withoutMark_concat (c : Char) (hmark : passed = [] → c ≠ Cursor.byteOrderMark) :
    withoutMark (passed ++ [c]) = withoutMark passed ++ [c] := by
  cases passed with
  | nil =>
    have hc : c ≠ Cursor.byteOrderMark := hmark rfl
    simp [withoutMark, hc]
  | cons d passed => exact withoutMark_append (by simp) c

/-- A line feed leads to the start of the next line. -/
theorem lineFeed (h : LeadsTo passed offset line column) :
    LeadsTo (passed ++ ['\n']) (offset + '\n'.utf8Size) (line + 1) 1 := by
  refine ⟨?_, ?_, ?_⟩
  · rw [byteCount_append, h.offset_eq, byteCount_cons, byteCount_nil, Nat.add_zero]
  · rw [List.count_append, h.line_eq, List.count_singleton_self, Nat.add_assoc]
  · rw [withoutMark_concat _ (fun _ => by decide), lastLineLength_append, if_pos rfl]

/-- Any other character leads to the next column, unless it is a byte order mark. -/
theorem other (h : LeadsTo passed offset line column) {c : Char} (hc : c ≠ '\n')
    (hmark : passed = [] → c ≠ Cursor.byteOrderMark) :
    LeadsTo (passed ++ [c]) (offset + c.utf8Size) line (column + 1) := by
  refine ⟨?_, ?_, ?_⟩
  · rw [byteCount_append, h.offset_eq, byteCount_cons, byteCount_nil, Nat.add_zero]
  · rw [List.count_append, h.line_eq, List.count_singleton, if_neg (by simpa using hc),
      Nat.add_zero]
  · rw [withoutMark_concat _ hmark, lastLineLength_append, if_neg hc, h.column_eq, Nat.add_assoc]

end LeadsTo

namespace Cursor

/-- A cursor knows its place in a source: the text that it has passed leads there, the
text ahead is next, and nothing of it is a byte order mark at the head of the source. -/
def IsPlaced (source : List Char) (here : Cursor) : Prop :=
  ∃ passed beyond, source = passed ++ (here.rest ++ beyond) ∧
    LeadsTo passed here.offset here.line here.column ∧
    (passed = [] → source.head? ≠ some byteOrderMark)

variable {source : List Char} {here : Cursor}

theorem isPlaced_ofSource (source : List Char) : (ofSource source).IsPlaced source := by
  cases source with
  | nil => exact ⟨[], [], rfl, .nil, by simp⟩
  | cons c source =>
    rw [ofSource]
    by_cases hc : c = byteOrderMark
    · subst hc
      rw [if_pos rfl]
      exact ⟨[byteOrderMark], [], by simp, .mark, by simp⟩
    · rw [if_neg hc]
      exact ⟨[], [], by simp, .nil, by simpa using hc⟩

theorem IsPlaced.advance (h : here.IsPlaced source) : here.advance.IsPlaced source := by
  obtain ⟨passed, beyond, hsource, hplace, hmark⟩ := h
  unfold Cursor.advance
  split
  · exact ⟨passed, beyond, hsource, hplace, hmark⟩
  · next c rest hrest =>
    rw [hrest] at hsource
    have hsplit : source = (passed ++ [c]) ++ (rest ++ beyond) := by
      rw [hsource, List.append_assoc]
      rfl
    by_cases hc : c = '\n'
    · subst hc
      rw [if_pos rfl]
      exact ⟨passed ++ ['\n'], beyond, hsplit, hplace.lineFeed, by simp⟩
    · rw [if_neg hc]
      refine ⟨passed ++ [c], beyond, hsplit, hplace.other hc ?_, by simp⟩
      rintro rfl hbom
      refine hmark rfl ?_
      rw [hsource, hbom]
      rfl

theorem IsPlaced.advanceBy (h : here.IsPlaced source) (n : Nat) :
    (here.advanceBy n).IsPlaced source := by
  induction n generalizing here with
  | zero => exact h
  | succ n ih => exact ih h.advance

theorem isPlaced_ofOffset (source : List Char) (offset : Nat) :
    (ofOffset source offset).IsPlaced source := (isPlaced_ofSource source).advanceBy _

/-- The span of some of the characters ahead is accurate, and the text between is what is
ahead. -/
theorem IsPlaced.exists_between (h : here.IsPlaced source) {first last : Nat}
    (hle : first ≤ last) :
    ∃ passed beyond, source = passed ++ ((here.rest.take last).drop first ++ beyond) ∧
      LeadsTo passed (here.advanceBy first).offset (here.advanceBy first).line
        (here.advanceBy first).column ∧
      (here.advanceBy last).offset = byteCount (passed ++ (here.rest.take last).drop first) ∧
      (passed = [] → source.head? ≠ some byteOrderMark) := by
  obtain ⟨passed, beyond, hsource, hplace, hmark⟩ := h.advanceBy first
  have htext : (here.rest.take last).drop first = (here.rest.drop first).take (last - first) := by
    rw [List.drop_take]
  rw [rest_advanceBy] at hsource
  refine ⟨passed, (here.rest.drop first).drop (last - first) ++ beyond, ?_, hplace, ?_, hmark⟩
  · rw [htext, ← List.append_assoc (List.take _ _), List.take_append_drop, hsource]
  · have hoffset := hplace.offset_eq
    rw [offset_advanceBy] at hoffset ⊢
    rw [byteCount_append, ← hoffset, htext, Nat.add_assoc, ← byteCount_append, ← List.take_add,
      Nat.add_sub_cancel' hle]

/-- A cursor tells accurate spans. -/
theorem IsPlaced.spanBetween (h : here.IsPlaced source) {first last : Nat} (hle : first ≤ last) :
    (here.spanBetween first last).IsAccurate source := by
  obtain ⟨passed, beyond, hsource, hplace, hstop, -⟩ := h.exists_between hle
  exact ⟨passed, _, beyond, hsource, hplace, hstop⟩

/-- The cursor in a part of what is ahead of another cursor knows its place too. -/
theorem isPlaced_within (h : here.IsPlaced source) {first last : Nat} (hle : first ≤ last) :
    (within ((here.rest.take last).drop first) (here.spanBetween first last)).IsPlaced source := by
  obtain ⟨passed, beyond, hsource, hplace, -, hmark⟩ := h.exists_between hle
  exact ⟨passed, beyond, hsource, hplace, hmark⟩

end Cursor

end PipelineLang
