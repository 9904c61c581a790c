import PipelineLang.Proofs.Token.Accuracy
import PipelineLang.Proofs.Token.Extent

/-!
# Faults lie within the text

Where a text has no token at its head, the fault ends behind its first character and within
the text. So a scanner that goes on behind a fault passes something, and no more than there is.

## Main definitions

- `EndsWithin` — the faults of a result end within a text, and not at its start

## Main results

- `Lexeme.endsWithin_recognize` — the faults of a text end within it

## Design notes

A scanner stays at the end of its source if it is told to pass more than is left. These bounds
say that it is never told to.
-/

namespace PipelineLang

/-- The faults of a result end within a text, behind one of its characters. -/
def EndsWithin {α : Type} (text : List Char) (result : Except LexicalFault α) : Prop :=
  ∀ fault, result = .error fault → 0 < fault.stop ∧ fault.stop ≤ text.length

section

variable {α β : Type} {text : List Char}

theorem endsWithin_error {fault : LexicalFault} (hpos : 0 < fault.stop)
    (hle : fault.stop ≤ text.length) : EndsWithin text (.error fault : Except LexicalFault α) := by
  rintro _ ⟨⟩
  exact ⟨hpos, hle⟩

theorem endsWithin_ok (a : α) : EndsWithin text (.ok a) := nofun

theorem EndsWithin.map {result : Except LexicalFault α} (h : EndsWithin text result) (f : α → β) :
    EndsWithin text (result.map f) := by
  cases result with
  | error fault => exact endsWithin_error (h fault rfl).1 (h fault rfl).2
  | ok a => exact endsWithin_ok _

end

/-- A character that makes no escape is not the end of the text. -/
theorem Escape.ne_nil_of_length?_eq_none {inFormat : Bool} {text : List Char}
    (h : length? inFormat text = none) : text ≠ [] := by
  rintro rfl
  cases h

namespace Lexeme

/-- A string that does not end takes the rest of the text; an escape that is none lies in it. -/
theorem endsWithin_ofQuoted {before : Before} {lead : Nat} {text : List Char}
    (hlead : lead < text.length) : EndsWithin text (ofQuoted before lead text) := by
  obtain ⟨quote, body, hdrop, -⟩ := exists_drop hlead
  have hlength : 0 < text.length := by omega
  rw [ofQuoted_eq hdrop]
  refine walk_induction_from hlead (fun _ => endsWithin_error hlength (Nat.le_refl _)) ?_ _
  intro position state result hstart hlt h
  obtain ⟨c, rest, hcut, hrest⟩ := exists_drop hlt
  rw [hcut] at h
  simp only [ofQuoted.stop] at h
  split at h
  · split at h
    · simp at h
    · next hnone =>
      obtain rfl := Stride.done.inj h
      have hpos := List.length_pos_iff.mpr (Escape.ne_nil_of_length?_eq_none hnone)
      exact endsWithin_error (by dsimp only; omega) (by dsimp only; omega)
  split at h
  · obtain rfl := Stride.done.inj h
    exact endsWithin_ok _
  · simp at h

theorem endsWithin_ofRaw {before : Before} {lead : Nat} {text : List Char} (hlead : 0 < lead)
    (hopens : opensRaw (text.drop lead)) : EndsWithin text (ofRaw before lead text) := by
  -- A quote stands behind the fences, so the string starts within the text.
  have hquote : lead + fenceCount (text.drop lead) < text.length := by
    rw [opensRaw, beq_iff_eq, List.drop_drop] at hopens
    by_contra hge
    rw [List.drop_of_length_le (by omega)] at hopens
    simp at hopens
  rw [ofRaw]
  generalize fenceCount (text.drop lead) = fences at hquote
  have hlength : 0 < text.length := by omega
  split
  · exact endsWithin_error (by dsimp only; omega) (Nat.le_of_lt hquote)
  · refine walk_induction_from hquote (fun _ => endsWithin_error hlength (Nat.le_refl _)) ?_ _
    intro position state result _ hlt h
    obtain ⟨c, rest, hcut, -⟩ := exists_drop hlt
    rw [hcut] at h
    simp only [ofRaw.stop] at h
    split at h
    · obtain rfl := Stride.done.inj h
      exact endsWithin_ok _
    · simp at h

theorem endsWithin_ofBlockComment {before : Before} {text : List Char} (hopens : 2 ≤ text.length) :
    EndsWithin text (ofBlockComment before text) := by
  refine walk_induction_from hopens
    (fun _ => endsWithin_error (Nat.lt_of_lt_of_le Nat.two_pos hopens) (Nat.le_refl _)) ?_ _
  intro position state result _ _ h
  unfold ofBlockComment.stop at h
  split at h
  · obtain rfl := Stride.done.inj h
    exact endsWithin_ok _
  · simp at h

end Lexeme

theorem Cursor.charactersBefore_le (offset : Nat) (text : List Char) :
    charactersBefore offset text ≤ text.length := by
  induction text generalizing offset with
  | nil => exact Nat.le_refl 0
  | cons c text ih =>
    rw [charactersBefore, List.length_cons]
    split
    · have := ih (offset - c.utf8Size)
      omega
    · exact Nat.zero_le _

/-- The faults of a format string end within it, as those of its replacements do. -/
theorem FormatBody.endsWithin_read
    {replacement : Option TokenKind → List Char → Except LexicalFault Replacement}
    (hreplacement : ∀ previous text, text ≠ [] → EndsWithin text (replacement previous text))
    (before : Before) {text : List Char} (htext : text ≠ []) :
    EndsWithin text (FormatBody.read replacement before text) := by
  have hlength := List.length_pos_iff.mpr htext
  refine walk_induction_from (Cursor.charactersBefore_le _ _)
    (fun _ => endsWithin_error hlength (Nat.le_refl _)) ?_ _
  intro position state result _ hlt h
  obtain ⟨c, rest, hcut, hrest⟩ := Lexeme.exists_drop hlt
  rw [hcut] at h
  simp only [FormatBody.read.stop] at h
  split at h
  · obtain rfl := Stride.done.inj h
    exact endsWithin_ok _
  split at h
  · split at h
    · next fault hfault =>
      obtain rfl := Stride.done.inj h
      obtain ⟨hpos, hle⟩ := hreplacement state.previous (c :: rest) (by simp) fault hfault
      rw [List.length_cons] at hle
      exact endsWithin_error (by rw [LexicalFault.shift]; dsimp only; omega)
        (by rw [LexicalFault.shift]; dsimp only; omega)
    · simp at h
  split at h
  · split at h
    · simp at h
    · next hnone =>
      obtain rfl := Stride.done.inj h
      have hpos := List.length_pos_iff.mpr (Escape.ne_nil_of_length?_eq_none hnone)
      exact endsWithin_error (by dsimp only; omega) (by dsimp only; omega)
  split at h
  all_goals simp at h

/-- The faults of a replacement end within it, as those of its tokens do. -/
theorem Replacement.endsWithin_read {token : Before → List Char → Except LexicalFault Lexeme}
    (htoken : ∀ before text, EndsWithin text (token before text)) {text : List Char}
    (htext : text ≠ []) : EndsWithin text (Replacement.read token text) := by
  have hlength := List.length_pos_iff.mpr htext
  have hfinish : ∀ {position} (state : State), 0 < position → position ≤ text.length →
      EndsWithin text (read.finish position state) :=
    fun _ hpos hle => endsWithin_error hpos hle
  refine walk_induction_from hlength (fun state => hfinish state hlength (Nat.le_refl _)) ?_ _
  intro position state result hstart hlt h
  have hgap : Gap.length (text.drop position) ≤ text.length - position := by
    rw [← List.length_drop]
    exact Gap.length_le _
  cases hresult : token (state.before.pass (Gap.length (text.drop position)) (text.drop position))
      ((text.drop position).drop (Gap.length (text.drop position))) with
  | error fault =>
    rw [stop_error hresult] at h
    obtain rfl := Stride.done.inj h
    obtain ⟨hpos, hle⟩ := htoken _ _ fault hresult
    rw [List.length_drop, List.length_drop] at hle
    exact endsWithin_error (by rw [LexicalFault.shift]; dsimp only; omega)
      (by rw [LexicalFault.shift]; dsimp only; omega)
  | ok lexeme =>
    obtain ⟨kind, length⟩ := lexeme
    by_cases hkind : kind = .eof
    · subst hkind
      rw [stop_eof hresult] at h
      obtain rfl := Stride.done.inj h
      exact hfinish state (by omega) (by omega)
    · rw [stop_eq hresult hkind] at h
      split at h
      · obtain rfl := Stride.done.inj h
        exact endsWithin_ok _
      · simp at h

namespace Lexeme

theorem endsWithin_recognizeWith
    {replacement : Option TokenKind → List Char → Except LexicalFault Replacement}
    (hreplacement : ∀ previous text, text ≠ [] → EndsWithin text (replacement previous text))
    (before : Before) (text : List Char) :
    EndsWithin text (recognizeWith replacement before text) := by
  have hone : ∀ (c : Char) (rest : List Char), 1 ≤ (c :: rest).length :=
    fun _ _ => Nat.succ_le_succ (Nat.zero_le _)
  unfold recognizeWith
  split
  · exact endsWithin_ok _
  · exact endsWithin_ok _
  · exact endsWithin_ok _
  · exact endsWithin_ofBlockComment (by simp)
  · exact endsWithin_ofQuoted (by simp)
  · exact endsWithin_ofQuoted (by simp)
  · next c rest _ _ _ _ _ =>
    dsimp only
    split
    · next hquote =>
      -- Behind the letter there is a quote.
      refine endsWithin_ofQuoted ?_
      cases rest with
      | nil => simp at hquote
      | cons d rest => simp
    split
    · next hraw =>
      refine endsWithin_ofRaw Nat.two_pos ?_
      cases rest with
      | nil => simp at hraw
      | cons d rest => simpa using (Bool.and_eq_true_iff.mp hraw).2
    split
    · next hraw =>
      refine endsWithin_ofRaw Nat.one_pos ?_
      simpa using (Bool.and_eq_true_iff.mp hraw).2
    split
    · exact (FormatBody.endsWithin_read hreplacement _ (by simp)).map _
    split
    · split
      · exact endsWithin_error Nat.one_pos (hone c rest)
      · exact endsWithin_ok _
    split
    · exact endsWithin_ok _
    split
    · exact endsWithin_ok _
    split
    · exact endsWithin_ok _
    split
    · exact endsWithin_ok _
    · exact endsWithin_error Nat.one_pos (hone c rest)

theorem endsWithin_replacement (levels : Nat) (previous : Option TokenKind) {text : List Char}
    (htext : text ≠ []) : EndsWithin text (replacement levels previous text) := by
  induction levels generalizing previous text with
  | zero => exact endsWithin_error Nat.one_pos (List.length_pos_iff.mpr htext)
  | succ levels ih =>
    refine Replacement.endsWithin_read (fun before text => ?_) htext
    exact endsWithin_recognizeWith (fun _ _ htext => ih _ htext) before text

/-- Where there is no token, something of the text is at fault. -/
theorem endsWithin_recognize (before : Before) (text : List Char) :
    EndsWithin text (recognize before text) :=
  endsWithin_recognizeWith (fun _ _ htext => endsWithin_replacement mostLevels _ htext) before text

end Lexeme

end PipelineLang
