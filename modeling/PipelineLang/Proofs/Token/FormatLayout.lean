import Mathlib.Data.List.Chain
import PipelineLang.Proofs.Grammar.Legible
import PipelineLang.Proofs.Token.Locality
import PipelineLang.Syntax.Layout

/-!
# Format strings that are laid out

A format string that is laid out is read piece by piece: its text is passed stride by stride,
and between the texts its replacements are found.

## Main definitions

- `Segment.Kept` — text that is read again as it is
- `Segment.Apart` — two pieces that are not both text
- `Layout.inside` — what is laid out between the braces of a replacement
- `Segment.parts` — the places of pieces that are laid out

## Main results

- `FormatBody.Skims.behind` — text is passed in the same way whatever is behind it
- `FormatBody.walks_layouts` — the pieces of a format string that is laid out
- `FormatBody.parts_kept` — the pieces of one that has been read
- `Segment.forall₂_pieceOf` — they are read as its segments
-/

namespace PipelineLang

namespace FormatBody

variable {n : Nat} {raw after after' : List Char}

/-- What may stand behind text: something that does not double its last brace. -/
def BehindText (after : List Char) : Prop := ∃ c tail, after = c :: tail ∧ c ≠ '\x7d'

theorem textStride?_behind (hafter : BehindText after) (hafter' : BehindText after')
    (h : textStride? (raw ++ after) = some n) (hle : n ≤ raw.length) :
    textStride? (raw ++ after') = some n := by
  have hpos := textStride?_pos h
  obtain ⟨c, raw, rfl⟩ := List.exists_cons_of_length_pos (l := raw) (by omega)
  rw [List.cons_append] at h ⊢
  rw [textStride?] at h ⊢
  cases raw with
  | cons d raw =>
    by_cases hslash : c = Escape.backslash
    · subst hslash
      obtain ⟨k, hk, rfl⟩ := Option.map_eq_some_iff.mp h
      have hagain : Escape.length? true (d :: raw ++ after') = some k :=
        Escape.length?_within hk (by simp) (by simp only [List.length_cons] at hle ⊢; omega)
      exact congrArg (Option.map _) hagain
    · simp only [if_neg hslash] at h ⊢
      exact h
  | nil =>
    -- The character is passed alone, so it is neither an escape nor a doubled brace.
    obtain rfl : n = 1 := Nat.le_antisymm hle hpos
    obtain ⟨d, tail, rfl, hd⟩ := hafter
    obtain ⟨d', tail', rfl, hd'⟩ := hafter'
    have hplain : c ≠ '\x22' ∧ c ≠ '\x7b' ∧ c ≠ Escape.backslash := by
      refine ⟨?_, ?_, ?_⟩
      · rintro rfl
        simp at h
      · rintro rfl
        simp [Escape.backslash] at h
      · rintro rfl
        obtain ⟨k, hk, hsum⟩ := Option.map_eq_some_iff.mp h
        have := Escape.length?_pos hk
        omega
    have hclose : (c = '\x7d' && (d' :: tail').head? == some c) = false := by
      by_cases hc : c = '\x7d'
      · subst hc
        simpa using hd'
      · simp [hc]
    simp only [hplain, decide_false, Bool.false_and, Bool.false_or, Bool.false_eq_true, if_false,
      List.nil_append, hclose]

/-- Text is passed in the same way, whatever is behind it. -/
theorem Skims.behind (h : Skims (raw ++ after) raw.length) (hafter : BehindText after)
    (hafter' : BehindText after') : Skims (raw ++ after') raw.length := by
  generalize hahead : raw ++ after = ahead at h
  generalize hlength : raw.length = n at h
  induction h generalizing raw with
  | nil => exact .nil
  | @cons ahead n m hstride _ ih =>
    subst hahead
    have hle : n ≤ raw.length := by omega
    have hdrop : ∀ behind : List Char, raw.drop n ++ behind = (raw ++ behind).drop n :=
      fun behind => (List.drop_append_of_le_length hle).symm
    refine .cons (textStride?_behind hafter hafter' hstride hle) ?_
    rw [← hdrop]
    exact ih (hdrop after) (by rw [List.length_drop]; omega)

end FormatBody

/-! ### Pieces and their places -/

namespace Segment

/-- Whether text is passed as such, and stands for what it is read as. -/
def Kept : Segment → Prop
  | .text raw value _ =>
    raw.toList ≠ [] ∧ FormatBody.Skims (raw.toList ++ ['\x22']) raw.toList.length ∧
      value = String.ofList (Utf8.decode (Escape.decodeFormat raw.toList))
  | .replacement _ _ => True

/-- Whether one of two pieces is a replacement. -/
def Apart (segment other : Segment) : Prop := segment.value? = none → other.value? ≠ none

end Segment

namespace Layout

/-- What is between the braces of a replacement. -/
def inside (inner : List Char) : List Char :=
  if inner.head? = some '\x7b' then ' ' :: (inner ++ [' ']) else inner

theorem toList_replacement (inner : String) :
    (replacement inner).toList = '\x7b' :: (inside inner.toList ++ ['\x7d']) := by
  rw [replacement, inside]
  split <;> simp

/-- The text of a format string. -/
def format (segments : List Segment) : List Char :=
  'f' :: '\x22' :: ((Segment.layouts segments).toList ++ ['\x22'])

theorem head?_inside (inner : List Char) : (inside inner).head? ≠ some '\x7b' := by
  rw [inside]
  split
  · simp
  · assumption

end Layout

/-- The places of pieces that are laid out from a position on. -/
def Segment.parts : (start : Nat) → List Segment → List FormatPart
  | _, [] => []
  | start, .text raw _ _ :: rest =>
    .text start (start + raw.toList.length) :: Segment.parts (start + raw.toList.length) rest
  | start, .replacement value _ :: rest =>
    let length := (Layout.inside value.layout.toList).length
    .replacement start (start + (length + 1)) (start + (length + 2)) ::
      Segment.parts (start + (length + 2)) rest

namespace FormatBody

variable {replacement : Option TokenKind → List Char → Except LexicalFault Replacement}
  {text : List Char} {position n : Nat} {state : State} {result : Except LexicalFault FormatBody}

theorem State.inText_of_textStart {start : Nat} (h : state.textStart = some start) :
    state.inText position = state := by
  rw [State.inText, h, Option.getD_some, ← h]

theorem lt_length_of_textStride? (h : textStride? (text.drop position) = some n) :
    position < text.length := by
  by_contra hge
  rw [List.drop_of_length_le (by omega)] at h
  simp [textStride?] at h

/-- Strides within text that has started before. -/
theorem walks_of_skims {start : Nat} (hstate : state.textStart = some start)
    (h : Skims (text.drop position) n)
    (hrest : Walks (read.stop replacement) read.finish text (position + n) state result) :
    Walks (read.stop replacement) read.finish text position state result := by
  generalize hahead : text.drop position = ahead at h
  induction h generalizing position with
  | nil => exact hrest
  | @cons ahead n m hstride _ ih =>
    subst hahead
    have hpos := textStride?_pos hstride
    have hnext : position + 1 + (n - 1) = position + n := by omega
    refine .go (lt_length_of_textStride? hstride) (stop_of_textStride? hstride) ?_
    rw [State.inText_of_textStart hstate, hnext]
    refine ih ?_ List.drop_drop.symm
    rwa [Nat.add_assoc]

/-- Strides of text, from its start on. -/
theorem walks_of_skims_pos (hpos : 0 < n) (h : Skims (text.drop position) n)
    (hrest : Walks (read.stop replacement) read.finish text (position + n)
      (state.inText position) result) :
    Walks (read.stop replacement) read.finish text position state result := by
  cases h with
  | nil => exact absurd hpos (Nat.lt_irrefl 0)
  | @cons _ n m hstride hskims =>
    have hpos := textStride?_pos hstride
    have hnext : position + 1 + (n - 1) = position + n := by omega
    refine .go (lt_length_of_textStride? hstride) (stop_of_textStride? hstride) ?_
    rw [hnext]
    rw [List.drop_drop] at hskims
    refine walks_of_skims rfl hskims ?_
    rwa [Nat.add_assoc]

/-- A replacement and its braces. -/
theorem walks_of_replacement {inner rest : List Char}
    (htext : text.drop position = '\x7b' :: (inner ++ '\x7d' :: rest))
    (hinner : inner.head? ≠ some '\x7b')
    (hfound : replacement state.previous ('\x7b' :: (inner ++ '\x7d' :: rest)) =
      .ok ⟨inner.length + 1⟩)
    (hrest : Walks (read.stop replacement) read.finish text (position + (inner.length + 2))
      ⟨.replacement position (position + (inner.length + 1)) (position + (inner.length + 2)) ::
        state.partsUpTo position, none, some .rBrace⟩ result) :
    Walks (read.stop replacement) read.finish text position state result := by
  have hlt : position < text.length := by
    by_contra hge
    rw [List.drop_of_length_le (by omega)] at htext
    simp at htext
  have hdoubled : ((inner ++ '\x7d' :: rest).head? == some '\x7b') = false := by
    cases inner with
    | nil => rfl
    | cons c inner => simpa using hinner
  have hnext : position + 1 + (inner.length + 1) = position + (inner.length + 2) := by omega
  have hstop : read.stop replacement position state (text.drop position) = .go (inner.length + 1)
      ⟨.replacement position (position + (inner.length + 1)) (position + (inner.length + 2)) ::
        state.partsUpTo position, none, some .rBrace⟩ := by
    rw [htext, read.stop]
    simp only [hdoubled, hfound]
    rfl
  refine .go hlt hstop ?_
  rw [hnext]
  exact hrest

/-- Whether a replacement that is laid out ends where its closing brace is. -/
def IsFound (replacement : Option TokenKind → List Char → Except LexicalFault Replacement) :
    Segment → Prop
  | .text _ _ _ => True
  | .replacement value _ => ∀ previous rest,
    replacement previous ('\x7b' :: (Layout.inside value.layout.toList ++ '\x7d' :: rest)) =
      .ok ⟨(Layout.inside value.layout.toList).length + 1⟩

theorem behindText_layouts {segments : List Segment}
    (h : ∀ segment ∈ segments.head?, segment.value? ≠ none) :
    BehindText ((Segment.layouts segments).toList ++ ['\x22']) := by
  cases segments with
  | nil => exact ⟨'\x22', [], rfl, by decide⟩
  | cons segment segments =>
    cases segment with
    | text => exact absurd rfl (h _ rfl)
    | replacement value span =>
      rw [Segment.layouts, Segment.layout, String.toList_append, Layout.toList_replacement]
      exact ⟨'\x7b', _, rfl, by decide⟩

/-- The pieces of a format string that is laid out, up to its closing quote. -/
theorem walks_layouts {segments : List Segment} (hkept : ∀ segment ∈ segments, segment.Kept)
    (hapart : segments.IsChain Segment.Apart)
    (hfound : ∀ segment ∈ segments, IsFound replacement segment)
    (htext : text.drop position = (Segment.layouts segments).toList ++ ['\x22'])
    (hstate : ∀ segment ∈ segments.head?, segment.value? = none → state.textStart = none) :
    Walks (read.stop replacement) read.finish text position state
      (.ok ⟨(state.partsUpTo position).reverse ++ Segment.parts position segments,
        text.length⟩) := by
  induction segments generalizing position state with
  | nil =>
    have hlength := congrArg List.length htext
    simp only [Segment.layouts, String.toList_empty, List.nil_append, List.length_drop,
      List.length_singleton] at hlength
    rw [Segment.parts, List.append_nil, show text.length = position + 1 by omega]
    refine .done (by omega) ?_
    rw [htext]
    rfl
  | cons segment segments ih =>
    rw [List.forall_mem_cons] at hkept hfound
    rw [List.isChain_cons] at hapart
    obtain ⟨hhere, hkept⟩ := hkept
    obtain ⟨hread, hfound⟩ := hfound
    obtain ⟨hnext, hapart⟩ := hapart
    cases segment with
    | text raw value span =>
      obtain ⟨hne, hskims, -⟩ := hhere
      have hhead : ∀ segment ∈ segments.head?, segment.value? ≠ none :=
        fun other hother => hnext other hother rfl
      have hstart : state.textStart = none := hstate _ rfl rfl
      have hparts : (state.inText position).partsUpTo (position + raw.toList.length) =
          .text position (position + raw.toList.length) :: state.parts := by
        rw [State.inText, hstart, Option.getD_none, State.partsUpTo]
      have hnow : state.partsUpTo position = state.parts := by rw [State.partsUpTo, hstart]
      rw [Segment.layouts, Segment.layout, String.toList_append, List.append_assoc] at htext
      have hbehind : text.drop (position + raw.toList.length) =
          (Segment.layouts segments).toList ++ ['\x22'] := by
        rw [← List.drop_drop, htext, List.drop_left]
      have hwalks : Walks (read.stop replacement) read.finish text
          (position + raw.toList.length) (state.inText position) _ :=
        ih hkept hapart hfound hbehind fun other hother hnone => absurd hnone (hhead other hother)
      rw [hparts, List.reverse_cons, List.append_assoc] at hwalks
      rw [hnow]
      refine walks_of_skims_pos (List.length_pos_iff.mpr hne) ?_ hwalks
      rw [htext]
      exact hskims.behind ⟨'\x22', [], rfl, by decide⟩ (behindText_layouts hhead)
    | replacement value span =>
      rw [Segment.layouts, Segment.layout, String.toList_append, Layout.toList_replacement] at htext
      have htext' : text.drop position = '\x7b' :: (Layout.inside value.layout.toList ++
          '\x7d' :: ((Segment.layouts segments).toList ++ ['\x22'])) := by
        rw [htext]
        simp
      refine walks_of_replacement htext' (Layout.head?_inside _) (hread _ _) ?_
      have hbehind : text.drop (position + ((Layout.inside value.layout.toList).length + 2)) =
          (Segment.layouts segments).toList ++ ['\x22'] := by
        rw [← List.drop_drop, htext']
        simp [← List.drop_drop]
      have hwalks : Walks (read.stop replacement) read.finish text
          (position + ((Layout.inside value.layout.toList).length + 2))
          ⟨.replacement position (position + ((Layout.inside value.layout.toList).length + 1))
            (position + ((Layout.inside value.layout.toList).length + 2)) ::
            state.partsUpTo position, none, some .rBrace⟩ _ :=
        ih hkept hapart hfound hbehind fun _ _ _ => rfl
      rw [show ∀ parts previous place, (⟨parts, none, previous⟩ : State).partsUpTo place = parts
        from fun _ _ _ => rfl, List.reverse_cons, List.append_assoc] at hwalks
      exact hwalks

/-- A format string that is laid out is read as its pieces. -/
theorem read_layouts {segments : List Segment} (hkept : ∀ segment ∈ segments, segment.Kept)
    (hapart : segments.IsChain Segment.Apart)
    (hfound : ∀ segment ∈ segments, IsFound replacement segment) (before : Before) :
    read replacement before (Layout.format segments) =
      .ok ⟨Segment.parts 2 segments, (Layout.format segments).length⟩ := by
  have hwalks : Walks (read.stop replacement) read.finish (Layout.format segments) 2
      ⟨[], none, before.previous⟩ _ :=
    walks_layouts hkept hapart hfound rfl fun _ _ _ => rfl
  have hle : 2 ≤ (Layout.format segments).length :=
    Nat.succ_le_succ (Nat.succ_le_succ (Nat.zero_le _))
  have hopening : Cursor.charactersBefore openingBytes (Layout.format segments) = 2 := by
    have hnone : ∀ text : List Char, Cursor.charactersBefore 0 text = 0 := by
      intro text
      cases text with
      | nil => rfl
      | cons c text => rw [Cursor.charactersBefore, if_neg (Nat.not_le.mpr c.utf8Size_pos)]
    simp [Layout.format, Cursor.charactersBefore, openingBytes, Char.utf8Size, hnone]
  rw [read, hopening]
  exact hwalks.walk_eq hle

end FormatBody

/-! ### The pieces of a format string that has been read -/

namespace FormatBody

variable {replacement : Option TokenKind → List Char → Except LexicalFault Replacement}
  {text : List Char} {position : Nat}

/-- Whether a piece, if it is text, is passed as such before a closing quote. -/
def PartKept (text : List Char) : FormatPart → Prop
  | .text start stop => (text.take stop).drop start ≠ [] ∧
    Skims ((text.take stop).drop start ++ ['\x22']) ((text.take stop).drop start).length
  | .replacement _ _ _ => True

/-- Whether one of two pieces is a replacement. -/
def PartsApart (part other : FormatPart) : Prop := ¬ (IsText part ∧ IsText other)

theorem behindText_of_head {after : List Char} {c : Char} (h : after.head? = some c)
    (hc : c ≠ '\x7d') : BehindText after := by
  cases after with
  | nil => simp at h
  | cons d tail =>
    obtain rfl := Option.some.inj h
    exact ⟨d, tail, rfl, hc⟩

theorem Parts.kept {before previous : Option TokenKind} {parts : List FormatPart}
    (h : Parts replacement text before parts previous position)
    (hbehind : ∀ part ∈ parts.head?, IsText part → BehindText (text.drop position)) :
    (∀ part ∈ parts, PartKept text part) ∧ parts.IsChain PartsApart := by
  induction h with
  | nil => exact ⟨by simp, .nil⟩
  | @text parts previous start stop hparts hlt hskims hapart ih =>
    obtain ⟨hkept, hchain⟩ := ih fun part hmem htext => absurd htext (hapart part hmem)
    refine ⟨List.forall_mem_cons.mpr ⟨?_, hkept⟩,
      List.isChain_cons.mpr ⟨fun part hmem htexts => hapart part hmem htexts.2, hchain⟩⟩
    obtain ⟨c, tail, hafter, hc⟩ := hbehind _ rfl trivial
    have hstop : stop < text.length := by
      by_contra hge
      rw [List.drop_of_length_le (by omega)] at hafter
      simp at hafter
    have hlength : ((text.take stop).drop start).length = stop - start := by
      rw [List.length_drop, List.length_take]
      omega
    have hsplit : text.drop start = (text.take stop).drop start ++ c :: tail := by
      have hcut := List.take_append_drop (stop - start) (text.drop start)
      rw [List.drop_drop, Nat.add_sub_cancel' (Nat.le_of_lt hlt), hafter] at hcut
      rw [List.drop_take, hcut]
    rw [hsplit, ← hlength] at hskims
    refine ⟨List.ne_nil_of_length_pos (by omega), ?_⟩
    exact hskims.behind ⟨c, tail, rfl, hc⟩ ⟨'\x22', [], rfl, by decide⟩
  | @replacement parts previous start found hparts hopening hfound ih =>
    obtain ⟨hkept, hchain⟩ := ih fun _ _ _ => behindText_of_head hopening (by decide)
    exact ⟨List.forall_mem_cons.mpr ⟨trivial, hkept⟩,
      List.isChain_cons.mpr ⟨fun _ _ htexts => htexts.1, hchain⟩⟩

/-- The text of a format string that has been read is passed again as it is. -/
theorem parts_kept {before : Before} {body : FormatBody}
    (h : read replacement before text = .ok body) :
    (∀ part ∈ body.parts, PartKept text part) ∧ body.parts.IsChain PartsApart := by
  have hends := parts_of_read h
  obtain ⟨previous, hparts⟩ := hends.parts
  obtain ⟨hkept, hchain⟩ := hparts.kept fun _ _ _ => behindText_of_head hends.closing (by decide)
  refine ⟨fun part hmem => hkept part (List.mem_reverse.mpr hmem), ?_⟩
  rw [List.isChain_reverse] at hchain
  exact hchain.imp fun _ _ hapart htexts => hapart htexts.symm

end FormatBody

/-! ### The pieces again -/

namespace Segment

/-- Whether the words between the braces of a replacement are those of its expression. -/
def IsWorded : Segment → Prop
  | .text _ _ _ => True
  | .replacement value _ => ∀ span, ∃ tokens,
    (Scanner.within (Layout.inside value.layout.toList) span).tokens? = .ok tokens ∧
      (TokenStream.ofTokens tokens).rest.map Token.word = value.words .layout

/-- The pieces of a format string that is laid out are read as its segments. -/
theorem forall₂_pieceOf {segments : List Segment} (hkept : ∀ segment ∈ segments, segment.Kept)
    (hworded : ∀ segment ∈ segments, segment.IsWorded) {cursor : Cursor} {position : Nat}
    {back : List Char} (htext : cursor.rest.drop position = (layouts segments).toList ++ back) :
    List.Forall₂ PieceOf ((parts position segments).map (·.piece cursor)) segments := by
  induction segments generalizing position with
  | nil => exact .nil
  | cons segment segments ih =>
    rw [List.forall_mem_cons] at hkept hworded
    obtain ⟨hhere, hkept⟩ := hkept
    obtain ⟨hword, hworded⟩ := hworded
    cases segment with
    | text raw value span =>
      obtain ⟨-, -, hvalue⟩ := hhere
      rw [layouts, layout, String.toList_append, List.append_assoc] at htext
      rw [parts, List.map_cons, FormatPart.piece, List.drop_take, htext, Nat.add_sub_cancel_left,
        List.take_left]
      refine .cons ?_ (ih hkept hworded (by rw [← List.drop_drop, htext, List.drop_left]))
      have hpiece : PieceOf
          (.text raw.toList (cursor.spanBetween position (position + raw.toList.length)))
          (.text (String.ofList raw.toList) value span) := .text hvalue
      rwa [String.ofList_toList] at hpiece
    | replacement value span =>
      rw [layouts, layout, String.toList_append, Layout.toList_replacement] at htext
      have hinner : (cursor.rest.take (position +
          ((Layout.inside value.layout.toList).length + 1))).drop (position + 1) =
            Layout.inside value.layout.toList := by
        rw [List.drop_take, ← List.drop_drop, htext, Nat.add_comm _ 1, ← Nat.add_assoc,
          Nat.add_sub_cancel_left]
        simp
      rw [parts, List.map_cons, FormatPart.piece, hinner]
      refine .cons ?_ (ih hkept hworded (by rw [← List.drop_drop, htext]; simp [← List.drop_drop]))
      obtain ⟨tokens, htokens, hwords⟩ := hword
        (cursor.spanBetween (position + 1)
          (position + ((Layout.inside value.layout.toList).length + 1)))
      exact .replacement htokens hwords

end Segment

/-- A format string that is laid out can be read again as its segments. -/
theorem formatLegible_of_found {segments : List Segment}
    (hkept : ∀ segment ∈ segments, segment.Kept) (hapart : segments.IsChain Segment.Apart)
    (hfound : ∀ segment ∈ segments,
      FormatBody.IsFound (Lexeme.replacement Lexeme.mostLevels) segment)
    (hworded : ∀ segment ∈ segments, segment.IsWorded) : FormatLegible segments := by
  intro token htext
  have hread := FormatBody.read_layouts hkept hapart hfound
    (Scanner.within token.text.toList token.span).before
  have hcursor : (Scanner.within token.text.toList token.span).cursor.rest =
      Layout.format segments := by
    show token.text.toList = _
    rw [htext, Layout.format]
    simp
  refine ⟨(Segment.parts 2 segments).map
    (·.piece (Scanner.within token.text.toList token.span).cursor), ?_, ?_⟩
  · unfold Token.formatPieces
    dsimp only
    rw [hcursor, hread]
  · have hplace : (Scanner.within token.text.toList token.span).cursor.rest.drop 2 =
        (Segment.layouts segments).toList ++ ['\x22'] := by
      rw [hcursor]
      rfl
    exact Segment.forall₂_pieceOf hkept hworded hplace

end PipelineLang
