import PipelineLang.Proofs.Literal.Longest
import PipelineLang.Proofs.Token.Nesting

/-!
# How much text tokens take

A token takes no more than there is, and it ends before the line end that comes behind the
text it has been read from: it is read again where a text goes on with another line.

## Main results

- `Lexeme.Recognized.length_le` — a token lies within its text
- `Lexeme.recognize_lined` — a token is the same one if another line is behind its text
- `Gap.length_lined` — so is a gap
-/

namespace PipelineLang

/-- A text that another line may start with: nothing, or a line end first. -/
def Lined (rest : List Char) : Prop := ∀ c ∈ rest.head?, c = '\n'

theorem lined_nil : Lined [] := nofun

theorem lined_cons (tail : List Char) : Lined ('\n' :: tail) := by
  rintro _ ⟨⟩
  rfl

theorem Lined.breaks {rest : List Char} (h : Lined rest) : Breaks rest := by
  intro c hc
  rw [h c hc]
  decide

namespace Lexeme

variable {replacement : Option TokenKind → List Char → Except LexicalFault Replacement}
  {text back : List Char} {before before' : Before} {lexeme : Lexeme}

/-! ### Lengths -/

theorem length_ofQuoted_le {lead : Nat} (h : ofQuoted before lead text = .ok lexeme) :
    lexeme.length ≤ text.length := by
  cases hdrop : text.drop lead with
  | nil => simp [ofQuoted, hdrop] at h
  | cons quote body =>
    rw [ofQuoted_eq hdrop] at h
    obtain ⟨last, _, -, hlt, hstop⟩ := exists_stop_of_walk h (by simp [ofQuoted.finish])
    unfold ofQuoted.stop at hstop
    repeat' split at hstop
    all_goals simp only [ofQuoted.finish, Stride.done.injEq, reduceCtorEq, Except.ok.injEq] at hstop
    subst hstop
    exact hlt

theorem length_ofRaw_le {lead : Nat} (h : ofRaw before lead text = .ok lexeme) :
    lexeme.length ≤ text.length := by
  rw [ofRaw] at h
  generalize fenceCount (text.drop lead) = fences at h
  split at h
  · simp at h
  obtain ⟨last, _, -, hlt, hstop⟩ := exists_stop_of_walk h (by simp [ofRaw.finish])
  obtain ⟨c, rest, hdrop, hrest⟩ := exists_drop hlt
  rw [hdrop] at hstop
  simp only [ofRaw.stop] at hstop
  split at hstop
  · next hclose =>
    obtain rfl := Except.ok.inj (Stride.done.inj hstop)
    rw [Bool.and_eq_true] at hclose
    have hfences := (List.isPrefixOf_iff_prefix.mp hclose.2).length_le
    rw [List.length_replicate] at hfences
    show last + 1 + fences ≤ text.length
    omega
  · simp at hstop

theorem length_ofBlockComment_le (h : ofBlockComment before text = .ok lexeme) :
    lexeme.length ≤ text.length := by
  obtain ⟨last, _, -, hlt, hstop⟩ := exists_stop_of_walk h (by simp [ofBlockComment.finish])
  unfold ofBlockComment.stop at hstop
  split at hstop
  · next hclose =>
    obtain rfl := Except.ok.inj (Stride.done.inj hstop)
    have hle := (List.isPrefixOf_iff_prefix.mp hclose).length_le
    rw [List.length_drop] at hle
    show last + 2 ≤ text.length
    simp only [List.length_cons, List.length_nil] at hle
    omega
  · simp at hstop

theorem length_ofDigit_le {c : Char} {rest : List Char} :
    (ofDigit (c :: rest)).length ≤ (c :: rest).length := by
  rw [ofDigit]
  cases hfound : literal? (c :: rest) with
  | none => exact Nat.succ_le_succ (Nat.zero_le _)
  | some found =>
    rw [literal?_eq_longest] at hfound
    obtain hnone | ⟨entry, hmem, -, htaken⟩ := (longest_some hfound).1
    · simp at hnone
    · exact bounded_literals entry hmem htaken

theorem length_ofColon_le {rest : List Char} :
    (ofColon before (':' :: rest)).length ≤ (':' :: rest).length := by
  have hone : 1 ≤ (':' :: rest).length := Nat.succ_le_succ (Nat.zero_le _)
  rw [ofColon]
  split
  · exact hone
  next hcolon =>
  have htwo : 2 ≤ (':' :: rest).length := by
    cases rest with
    | nil => simp at hcolon
    | cons c rest => exact Nat.succ_le_succ (Nat.succ_le_succ (Nat.zero_le _))
  have hgroups : (Address.groupsMatcher (':' :: rest)).getD 2 ≤ (':' :: rest).length := by
    cases hfound : Address.groupsMatcher (':' :: rest) with
    | none => exact htwo
    | some n => exact Address.bounded_groupsMatcher hfound
  dsimp only
  split
  · exact htwo
  split
  · cases hfound : Address.subnetMatcher (':' :: rest) with
    | none => exact Nat.zero_le _
    | some n => exact Address.bounded_subnetMatcher hfound
  · exact hgroups

theorem length_ofWord_le : (ofWord before text).length ≤ text.length := by
  rw [ofWord]
  cases hfound : address? before text with
  | none => exact Matcher.length_takeWhile_le _ text
  | some found =>
    obtain ⟨ip, hip, -, -, -, rfl⟩ := address?_eq_some.mp hfound
    exact length_addressOr_le (Address.bounded_groupsMatcher hip)

theorem length_ofPunctuation?_le (h : ofPunctuation? text = some lexeme) :
    lexeme.length ≤ text.length := by
  obtain ⟨⟨spelling, kind⟩, hfind, rfl⟩ := Option.map_eq_some_iff.mp h
  have hpre : spelling.isPrefixOf text := by simpa using List.find?_some hfind
  exact (List.isPrefixOf_iff_prefix.mp hpre).length_le

/-- A token lies within the text at whose head it is. -/
theorem Recognized.length_le (h : Recognized replacement before text lexeme) :
    lexeme.length ≤ text.length := by
  cases h with
  | eof => exact Nat.le_refl 0
  | newline => exact Nat.succ_le_succ (Nat.zero_le _)
  | lineComment => exact Matcher.length_takeWhile_le _ _
  | blockComment h => exact length_ofBlockComment_le h
  | quoted h => exact length_ofQuoted_le h
  | raw h => exact length_ofRaw_le h
  | format h => exact (FormatBody.parts_of_read h).length_le
  | @dollar rest h =>
    rw [List.length_cons, Nat.add_comm]
    refine Nat.succ_le_succ ?_
    unfold wordAhead
    split
    · split
      · exact Matcher.length_takeWhile_le _ _
      · exact Nat.zero_le _
    · exact Nat.le_refl 0
  | digit => exact length_ofDigit_le
  | colon => exact length_ofColon_le
  | word => exact length_ofWord_le
  | punctuation h => exact length_ofPunctuation?_le h

/-! ### Another line behind a token -/

theorem ofLineComment_lined (hback : Lined back) (text : List Char) :
    ofLineComment (text ++ back) = ofLineComment text := by
  rw [ofLineComment, ofLineComment, Matcher.takeWhile_append_of_head]
  intro c hc
  rw [hback c hc]
  rfl

/-- A token is the same one if another line is behind its text. -/
theorem recognize_lined (halike : before.Alike before') (hne : text ≠ []) (hback : Lined back)
    (h : recognize before text = .ok lexeme) : recognize before' (text ++ back) = .ok lexeme := by
  have hle := (recognized_of_ok h).length_le
  rw [← List.append_nil text] at h
  refine recognizeWith_within (agrees_replacement (Nat.le_refl _)) halike hne
    (lined_nil.breaks.spares _) (hback.breaks.spares _) hback.breaks.head_ne (fun _ => ?_) h hle
  rw [ofLineComment_lined hback, List.append_nil]

/-- No token starts with what a gap consists of. -/
theorem recognizeWith_gap {c : Char} (hc : c ∈ [' ', '\t', '\r', '\\']) :
    recognizeWith replacement before (c :: text) ≠ .ok lexeme := by
  have hnone : ∀ c ∈ [' ', '\t', '\r', '\\'],
      (∀ entry ∈ punctuation, entry.1.head?.any (· != c)) ∧
        c ∉ ['\n', '\x22', '\x27', '/', 'b', 'r', 'f', '$', ':'] ∧ c.isDigit = false ∧
        Ascii.isWordStart c = false := by
    simp only [List.forall_mem_cons, List.not_mem_nil, false_imp_iff, implies_true, and_true]
    decide
  obtain ⟨hpunctuation, hne, hdigit, hstart⟩ := hnone c hc
  simp only [List.mem_cons, List.not_mem_nil, or_false, not_or] at hne
  have hfind : ofPunctuation? (c :: text) = none := by
    rw [ofPunctuation?, Option.map_eq_none_iff, List.find?_eq_none]
    rintro ⟨letters, kind⟩ hentry hspelling
    have hhead := hpunctuation _ hentry
    cases letters with
    | nil => simp at hhead
    | cons d letters =>
      dsimp only at hspelling
      rw [List.isPrefixOf_cons_cons, Bool.and_eq_true, beq_iff_eq] at hspelling
      simp [hspelling.1] at hhead
  rw [recognizeWith_open ⟨hne.1, ⟨hne.2.1, hne.2.2.1⟩, fun h => absurd h hne.2.2.2.1⟩]
  simp [recognizeOpen, hne, hdigit, hstart, hfind]

end Lexeme

/-! ### Another line behind a gap -/

namespace Gap

variable {text back : List Char}

theorem continuation?_append_of_some {n : Nat} (h : continuation? text = some n) :
    continuation? (text ++ back) = some n := by
  induction text generalizing n with
  | nil => simp [continuation?] at h
  | cons c text ih =>
    rw [continuation?] at h
    rw [List.cons_append, continuation?]
    split
    · rwa [if_pos ‹_›] at h
    · rw [if_neg ‹_›] at h
      split
      · rw [if_pos ‹_›] at h
        obtain ⟨m, hm, rfl⟩ := Option.map_eq_some_iff.mp h
        rw [ih hm, Option.map_some]
      · rw [if_neg ‹_›] at h
        simp at h

/-- A gap does not go on with another line, unless a backslash is behind it. -/
theorem length_lined (hback : Lined back) (h : (text.drop (length text)).head? ≠ some '\\') :
    length (text ++ back) = length text := by
  have hfrom : ∀ skip : Nat, skip ≤ text.length →
      (text.drop (lengthFrom skip text)).head? ≠ some '\\' →
      lengthFrom skip (text ++ back) = lengthFrom skip text := by
    clear h
    induction text with
    | nil =>
      intro skip hle _
      obtain rfl : skip = 0 := Nat.le_zero.mp hle
      cases back with
      | nil => rfl
      | cons c back =>
        obtain rfl := hback c rfl
        rfl
    | cons c text ih =>
      intro skip hle hbehind
      cases skip with
      | succ skip =>
        rw [lengthFrom, Nat.add_comm, List.drop_succ_cons] at hbehind
        rw [List.cons_append, lengthFrom, lengthFrom,
          ih skip (Nat.le_of_succ_le_succ hle) hbehind]
      | zero =>
        rw [lengthFrom] at hbehind
        rw [List.cons_append, lengthFrom, lengthFrom]
        split
        · next hblank =>
          rw [if_pos hblank, Nat.add_comm, List.drop_succ_cons] at hbehind
          rw [ih 0 (Nat.zero_le _) hbehind]
        next hblank =>
        rw [if_neg hblank] at hbehind
        split
        · next hslash =>
          rw [if_pos hslash] at hbehind
          cases hcontinuation : continuation? text with
          | none =>
            rw [hcontinuation] at hbehind
            exact absurd (congrArg some hslash) hbehind
          | some n =>
            rw [hcontinuation] at hbehind
            dsimp only at hbehind
            rw [Nat.add_comm, List.drop_succ_cons] at hbehind
            rw [continuation?_append_of_some hcontinuation]
            dsimp only
            rw [ih n (continuation?_le hcontinuation) hbehind]
        · rfl
  exact hfrom 0 (Nat.zero_le _) h

end Gap

end PipelineLang
