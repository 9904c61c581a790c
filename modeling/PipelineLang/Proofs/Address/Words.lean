import PipelineLang.Proofs.Address.Groups

/-!
# Addresses and words

A word may be a group of an address, and two words with `::` between them may be an address.

## Main definitions

- `IsWord` — a word as it stands in a text
- `Address.IsGroup` — a word that is a group
- `Address.IsPair` — two words that would be an address if `::` were between them

## Main results

- `Address.groupsMatcher_word` — a word alone is no address
- `Address.groupsMatcher_gap` — a group and `::` are one
- `Address.exists_word_of_groupsMatcher` — an address that starts with a letter
- `Address.subnetMatcher_eq_none` — nor are they a subnet if no slash with a digit is behind
-/

namespace PipelineLang

open Matcher

namespace Ascii

theorem isAlpha_iff (c : Char) : c.isAlpha ↔ ('A' ≤ c ∧ c ≤ 'Z') ∨ ('a' ≤ c ∧ c ≤ 'z') := by
  have hupper : c.isUpper ↔ 'A' ≤ c ∧ c ≤ 'Z' := decide_eq_true_iff
  have hlower : c.isLower ↔ 'a' ≤ c ∧ c ≤ 'z' :=
    Bool.and_eq_true_iff.trans (and_congr decide_eq_true_iff decide_eq_true_iff)
  exact Bool.or_eq_true_iff.trans (or_congr hupper hlower)

theorem isDigit_of_isWordStart {c : Char} (h : isWordStart c) : c.isDigit = false := by
  simp only [isWordStart, Bool.or_eq_true, isAlpha_iff, beq_iff_eq, Char.le_def,
    UInt32.le_iff_toNat_le] at h
  rw [Bool.eq_false_iff]
  intro hdigit
  simp only [Char.isDigit, Bool.and_eq_true, decide_eq_true_eq, ge_iff_le,
    UInt32.le_iff_toNat_le] at hdigit
  obtain h | rfl := h
  · simp at h hdigit
    omega
  · simp at hdigit

theorem isWordChar_of_isHexDigit {c : Char} (h : isHexDigit c) : isWordChar c := by
  simp only [isHexDigit, Bool.or_eq_true, Bool.and_eq_true, decide_eq_true_eq] at h
  simp only [isWordChar, Char.isAlphanum, Bool.or_eq_true, isAlpha_iff]
  obtain (h | ⟨hlow, hhigh⟩) | ⟨hlow, hhigh⟩ := h
  · exact .inl (.inr h)
  · exact .inl (.inl (.inr ⟨hlow, Char.le_trans hhigh (by decide)⟩))
  · exact .inl (.inl (.inl ⟨hlow, Char.le_trans hhigh (by decide)⟩))

theorem isHexDigit_of_isWordChar {c : Char} (h : isWordChar c = false) : isHexDigit c = false := by
  by_contra hhex
  rw [isWordChar_of_isHexDigit (by simpa using hhex)] at h
  simp at h

end Ascii

/-- A word: a letter or an underscore, and letters, digits and underscores behind it. -/
structure IsWord (word : List Char) : Prop where
  start : ∃ c tail, word = c :: tail ∧ Ascii.isWordStart c
  chars : ∀ c ∈ word, Ascii.isWordChar c

/-- A text that no word goes on with. -/
def EndsWord (rest : List Char) : Prop := ∀ c ∈ rest.head?, Ascii.isWordChar c = false

theorem IsWord.length_pos {word : List Char} (h : IsWord word) : 0 < word.length := by
  obtain ⟨c, tail, rfl, -⟩ := h.start
  exact Nat.succ_pos _

theorem IsWord.ne_nil {word : List Char} (h : IsWord word) : word ≠ [] :=
  List.ne_nil_of_length_pos h.length_pos

theorem IsWord.not_mem {word : List Char} (h : IsWord word) {c : Char}
    (hc : Ascii.isWordChar c = false) : c ∉ word := by
  intro hmem
  rw [h.chars c hmem] at hc
  simp at hc

theorem IsWord.takeWhile_append {word rest : List Char} (h : IsWord word) (hrest : EndsWord rest) :
    (word ++ rest).takeWhile Ascii.isWordChar = word := by
  rw [takeWhile_append_of_head hrest]
  exact List.takeWhile_eq_self_iff.mpr h.chars

/-- The characters of a word, taken from where it starts. -/
theorem isWord_takeWhile {c : Char} {rest : List Char} (hc : Ascii.isWordStart c) :
    IsWord ((c :: rest).takeWhile Ascii.isWordChar) := by
  have hchar : Ascii.isWordChar c := by
    simp only [Ascii.isWordStart, Ascii.isWordChar, Char.isAlphanum, Bool.or_eq_true] at hc ⊢
    exact hc.imp_left .inl
  refine ⟨?_, fun d hd => List.mem_takeWhile_imp hd⟩
  rw [List.takeWhile_cons_of_pos hchar]
  exact ⟨c, _, rfl, hc⟩

theorem endsWord_dropWhile (text : List Char) : EndsWord (text.dropWhile Ascii.isWordChar) := by
  intro c hc
  have hnot := List.head?_dropWhile_not Ascii.isWordChar text
  rw [Option.mem_def.mp hc] at hnot
  simpa using hnot

namespace Address

/-- Whether a word is a group of an address. -/
def IsGroup (word : List Char) : Prop := (∀ c ∈ word, Ascii.isHexDigit c) ∧ word.length ≤ 4

/-- Whether two words with `::` between them are an address, and not only a path. -/
def IsPair (first second : List Char) : Prop :=
  IsGroup first ∧ IsGroup second ∧ first.any Char.isDigit

variable {word first second rest : List Char} {left n : Nat} {gap afterColon : Bool}

theorem quadMatcher_word (h : IsWord word) : quadMatcher (word ++ rest) = none := by
  obtain ⟨c, tail, rfl, hc⟩ := h.start
  exact octet_followedBy_eq_none _ fun d hd => by
    obtain rfl : c = d := by simpa using hd
    exact Ascii.isDigit_of_isWordStart hc

theorem takeWhile_word (hrest : EndsWord rest) :
    (word ++ rest).takeWhile Ascii.isHexDigit = word.takeWhile Ascii.isHexDigit :=
  takeWhile_append_of_head fun c hc => Ascii.isHexDigit_of_isWordChar (hrest c hc)

/-- A word that is no group is passed at most in part, and only behind a gap. -/
theorem moreGroups_of_not_group (h : IsWord word) (hrest : EndsWord rest)
    (hgroup : ¬ IsGroup word) :
    ∀ n ∈ moreGroups (left + 2) gap afterColon (word ++ rest), gap = true ∧ n < word.length := by
  intro n hn
  rw [Option.mem_def, moreGroups_succ, quadMatcher_word h, takeWhile_word hrest] at hn
  simp only [ite_self, Nat.add_one_ne_zero, if_false] at hn
  split at hn
  · simp at hn
  · next hdigits =>
    simp only [Bool.or_eq_true, decide_eq_true_eq, not_or] at hdigits
    have hlt : (word.takeWhile Ascii.isHexDigit).length < word.length := by
      refine Nat.lt_of_le_of_ne (List.takeWhile_prefix _).length_le fun heq => hgroup ⟨?_, by omega⟩
      rw [← List.takeWhile_eq_self_iff]
      exact (List.takeWhile_prefix _).eq_of_length heq
    have hhead : ((word ++ rest).drop (word.takeWhile Ascii.isHexDigit).length).head? ≠
        some ':' := by
      rw [List.drop_append_of_le_length (Nat.le_of_lt hlt), List.drop_eq_getElem_cons hlt,
        List.cons_append, List.head?_cons]
      intro heq
      exact h.not_mem (by decide) (Option.some.inj heq ▸ List.getElem_mem hlt)
    rw [behindGroup_of_head hhead] at hn
    cases gap with
    | false => simp at hn
    | true =>
      obtain rfl := Option.some.inj hn
      exact ⟨rfl, hlt⟩

theorem moreGroups_of_group (h : IsWord word) (hrest : EndsWord rest) (hgroup : IsGroup word) :
    moreGroups (left + 2) gap afterColon (word ++ rest) =
      behindGroup (left + 1) gap word.length rest := by
  have hdigits : word.takeWhile Ascii.isHexDigit = word := List.takeWhile_eq_self_iff.mpr hgroup.1
  have hpos := h.length_pos
  have hlength : ¬ 4 < word.length := Nat.not_lt.mpr hgroup.2
  rw [moreGroups_succ, quadMatcher_word h, takeWhile_word hrest, hdigits]
  simp only [ite_self, Nat.add_one_ne_zero, if_false, Nat.ne_of_gt hpos, hlength, decide_false,
    Bool.or_false, Bool.false_eq_true, List.drop_left]

theorem groupsMatcher_eq_moreGroups (h : IsWord word) :
    groupsMatcher (word ++ rest) = moreGroups 8 false false (word ++ rest) := by
  refine groupsMatcher_eq fun tail heq => ?_
  obtain ⟨c, more, rfl, -⟩ := h.start
  obtain rfl : c = ':' := (List.cons.inj heq).1
  exact h.not_mem (by decide) List.mem_cons_self

/-- Behind a word that is followed by no colon, or by one with no group behind it, there is no
address. -/
theorem groupsMatcher_word (h : IsWord word) (hrest : EndsWord rest)
    (hcolon : ∀ c tail, rest = ':' :: c :: tail → c ≠ ':' ∧ Ascii.isHexDigit c = false) :
    groupsMatcher (word ++ rest) = none := by
  rw [groupsMatcher_eq_moreGroups h]
  by_cases hgroup : IsGroup word
  · rw [moreGroups_of_group h hrest hgroup]
    by_cases hend : ∀ c tail, rest ≠ ':' :: c :: tail
    · exact behindGroup_end hend
    · simp only [ne_eq, not_forall, Classical.not_not] at hend
      obtain ⟨c, tail, rfl⟩ := hend
      obtain ⟨hc, hhex⟩ := hcolon c tail rfl
      rw [behindGroup_colon hc, if_neg (by simp [hhex])]
      rfl
  · cases hmore : moreGroups 8 false false (word ++ rest) with
    | none => rfl
    | some n => exact absurd (moreGroups_of_not_group h hrest hgroup n hmore).1 (by simp)

/-- Behind a word and `::` there is an address if the word is a group. -/
theorem groupsMatcher_gap (h : IsWord word) :
    (IsGroup word → groupsMatcher (word ++ ':' :: ':' :: rest) =
      some (word.length + 2 + (moreGroups 7 true true rest).getD 0)) ∧
    (¬ IsGroup word → groupsMatcher (word ++ ':' :: ':' :: rest) = none) := by
  have hrest : EndsWord (':' :: ':' :: rest) := by
    rintro c ⟨⟩
    decide
  rw [groupsMatcher_eq_moreGroups h]
  refine ⟨fun hgroup => ?_, fun hgroup => ?_⟩
  · rw [moreGroups_of_group h hrest hgroup, behindGroup_gap]
    rfl
  · cases hmore : moreGroups 8 false false (word ++ ':' :: ':' :: rest) with
    | none => rfl
    | some n => exact absurd (moreGroups_of_not_group h hrest hgroup n hmore).1 (by simp)

/-- Behind a gap an address ends with a group if no single colon is behind it. -/
theorem moreGroups_second (h : IsWord second) (hrest : EndsWord rest) (hgroup : IsGroup second)
    (hcolon : ∀ c tail, rest = ':' :: c :: tail → c = ':') :
    moreGroups (left + 2) true afterColon (second ++ rest) = some second.length := by
  rw [moreGroups_of_group h hrest hgroup]
  by_cases hend : ∀ c tail, rest ≠ ':' :: c :: tail
  · exact behindGroup_end hend
  · simp only [ne_eq, not_forall, Classical.not_not] at hend
    obtain ⟨c, tail, rfl⟩ := hend
    obtain rfl := hcolon c tail rfl
    exact behindGroup_gap _ _ _ _

/-- Whatever is behind a group, an address behind a gap passes the group. -/
theorem exists_moreGroups (h : IsWord second) (hrest : EndsWord rest) (hgroup : IsGroup second) :
    ∃ n, moreGroups (left + 2) true afterColon (second ++ rest) = some n ∧ second.length ≤ n := by
  rw [moreGroups_of_group h hrest hgroup]
  cases hmore : behindGroup (left + 1) true second.length rest with
  | some n => exact ⟨n, rfl, le_of_behindGroup hmore⟩
  | none =>
    by_cases hend : ∀ c tail, rest ≠ ':' :: c :: tail
    · simp [behindGroup_end hend] at hmore
    · simp only [ne_eq, not_forall, Classical.not_not] at hend
      obtain ⟨c, tail, rfl⟩ := hend
      by_cases hc : c = ':'
      · subst hc
        simp [behindGroup_gap] at hmore
      · rw [behindGroup_colon hc] at hmore
        split at hmore <;> simp at hmore

theorem moreGroups_eq_none (h : ∀ c ∈ rest.head?, Ascii.isHexDigit c = false) :
    moreGroups left gap afterColon rest = none := by
  cases left with
  | zero => rfl
  | succ left =>
    have hquad : (if afterColon then quadMatcher rest else none) = none := by
      cases afterColon with
      | false => rfl
      | true =>
        exact octet_followedBy_eq_none _ fun c hc => isDigit_of_isHexDigit (h c hc)
    have hdigits : rest.takeWhile Ascii.isHexDigit = [] := by
      cases rest with
      | nil => rfl
      | cons c rest => rw [List.takeWhile_cons_of_neg (by simp [h c rfl])]
    rw [moreGroups_succ, hquad, hdigits]
    rfl

/-- An address that starts with a letter starts with a word and a colon behind it. -/
theorem exists_word_of_groupsMatcher {c : Char} (hc : Ascii.isWordStart c)
    (h : groupsMatcher (c :: rest) = some n) :
    ∃ word tail, c :: rest = word ++ ':' :: tail ∧ IsWord word ∧ word.length < n := by
  have hopen : ∀ tail, c :: rest ≠ ':' :: ':' :: tail := by
    rintro tail heq
    rw [(List.cons.inj heq).1] at hc
    exact absurd hc (by decide)
  rw [groupsMatcher_eq hopen, moreGroups_succ, if_neg Bool.false_ne_true] at h
  dsimp only at h
  split at h
  · simp at h
  next hdigits =>
  rw [if_neg (by omega)] at h
  simp only [Bool.or_eq_true, decide_eq_true_eq, not_or] at hdigits
  have hsplit := List.take_append_drop ((c :: rest).takeWhile Ascii.isHexDigit).length (c :: rest)
  rw [take_length_takeWhile] at hsplit
  have hword : IsWord ((c :: rest).takeWhile Ascii.isHexDigit) := by
    refine ⟨?_, fun d hd => Ascii.isWordChar_of_isHexDigit (List.mem_takeWhile_imp hd)⟩
    by_cases hhex : Ascii.isHexDigit c
    · exact ⟨c, _, List.takeWhile_cons_of_pos hhex, hc⟩
    · rw [List.takeWhile_cons_of_neg hhex] at hdigits
      exact absurd rfl hdigits.1
  obtain ⟨hgap, -⟩ | ⟨-, tail, hdrop, rfl⟩ | ⟨d, tail, k, hdrop, -, -, -, rfl⟩ :=
    behindGroup_cases h
  · simp at hgap
  · rw [hdrop] at hsplit
    exact ⟨_, _, hsplit.symm, hword, by omega⟩
  · rw [hdrop] at hsplit
    exact ⟨_, _, hsplit.symm, hword, by omega⟩

/-- No subnet starts with a word if no slash with a digit is where the address ends. -/
theorem subnetMatcher_eq_none (h : IsWord word)
    (hslash : ∀ ip tail, groupsMatcher (word ++ rest) = some ip →
      (word ++ rest).drop ip = '/' :: tail → ∀ c ∈ tail.head?, c.isDigit = false) :
    subnetMatcher (word ++ rest) = none := by
  have hquad : quadMatcher.followedBy (lengthMatcher 2) (word ++ rest) = none := by
    rw [followedBy, quadMatcher_word h]
    rfl
  have hgroups : groupsMatcher.followedBy (lengthMatcher 3) (word ++ rest) = none := by
    cases hmatch : groupsMatcher.followedBy (lengthMatcher 3) (word ++ rest) with
    | none => rfl
    | some n =>
      obtain ⟨ip, k, hip, hk, -⟩ := followedBy_eq_some.mp hmatch
      obtain ⟨one, j, hone, hj, -⟩ := followedBy_eq_some.mp hk
      obtain ⟨c, tail, hdrop, hc, rfl⟩ := char_eq_some.mp hone
      obtain rfl := beq_iff_eq.mp hc
      rw [hdrop, List.drop_one, List.tail_cons,
        run_eq_none Nat.one_pos (hslash ip tail hip hdrop)] at hj
      simp at hj
  rw [subnetMatcher, longer, hquad, hgroups]

/-! ### Paths of two words -/

theorem hasSingleColon_of_not_mem {text : List Char} (h : ':' ∉ text) :
    hasSingleColon text = false := by
  induction text with
  | nil => rfl
  | cons c text ih =>
    rw [List.mem_cons, not_or] at h
    unfold hasSingleColon
    split
    · next heq =>
      obtain ⟨-, rfl⟩ := List.cons.inj heq
      simp at h
    · next heq =>
      obtain ⟨-, rfl⟩ := List.cons.inj heq
      exact ih h.2
    · rfl

/-- Two words with `::` between them have no colon that stands alone. -/
theorem hasSingleColon_path (hfirst : ':' ∉ first) (hsecond : ':' ∉ second) :
    hasSingleColon (first ++ ':' :: ':' :: second) = false := by
  have hbehind : ∀ {text : List Char}, ':' ∉ text → hasSingleColon (':' :: text) = false := by
    intro text h
    unfold hasSingleColon
    split
    · next heq =>
      obtain ⟨-, rfl⟩ := List.cons.inj heq
      simp at h
    · next heq =>
      obtain ⟨-, rfl⟩ := List.cons.inj heq
      exact hasSingleColon_of_not_mem h
    · rfl
  have hgap : hasSingleColon (':' :: ':' :: second) = false := by
    cases second with
    | nil => rfl
    | cons d second => simp [hasSingleColon, hbehind hsecond]
  induction first with
  | nil => exact hgap
  | cons c first ih =>
    rw [List.mem_cons, not_or] at hfirst
    cases first with
    | nil => simp [hasSingleColon, hgap]
    | cons d first =>
      have hd : d ≠ ':' := fun heq => hfirst.2 (by simp [heq])
      have ih := ih hfirst.2
      rw [List.cons_append] at ih ⊢
      unfold hasSingleColon
      split
      · next heq => exact absurd (List.cons.inj (List.cons.inj heq).2).1 hd
      · next heq =>
        obtain ⟨-, rfl⟩ := List.cons.inj heq
        exact ih
      · rfl

theorem breakAtGap_path (hfirst : ':' ∉ first) :
    breakAtGap (first ++ ':' :: ':' :: second) = some (first, second) := by
  induction first with
  | nil => rfl
  | cons c first ih =>
    rw [List.mem_cons, not_or] at hfirst
    have hbehind := ih hfirst.2
    rw [List.cons_append]
    unfold breakAtGap
    split
    · next heq => simp at heq
    · next heq => exact absurd (List.cons.inj heq).1.symm hfirst.1
    · next heq =>
      obtain ⟨rfl, rfl⟩ := List.cons.inj heq
      rw [hbehind, Option.map_some]

theorem isName_word (h : IsWord word) : isPathShaped.isName word = true := by
  have hcolon : ':' ∉ word := h.not_mem (by decide)
  obtain ⟨c, tail, rfl, hc⟩ := h.start
  rw [isPathShaped.isName, hc, Bool.true_and]
  simpa using fun hmem => hcolon (List.mem_cons_of_mem _ hmem)

theorem isPathShaped_path (hfirst : IsWord first) (hsecond : IsWord second) :
    isPathShaped (first ++ ':' :: ':' :: second) = true := by
  rw [isPathShaped, breakAtGap_path (hfirst.not_mem (by decide))]
  simp only [isName_word hfirst, isName_word hsecond, Bool.and_self]

theorem isPathShaped_gap (hfirst : IsWord first) : isPathShaped (first ++ [':', ':']) = false := by
  have hbreak : breakAtGap (first ++ [':', ':']) = some (first, []) :=
    breakAtGap_path (hfirst.not_mem (by decide))
  rw [isPathShaped, hbreak]
  simp [isPathShaped.isName]

/-- Up to its first colon a path has its first word. -/
theorem takeWhile_path (h : ':' ∉ first) (rest : List Char) :
    (first ++ ':' :: rest).takeWhile (· != ':') = first := by
  rw [takeWhile_append_of_head (by simp)]
  rw [List.takeWhile_eq_self_iff]
  intro c hc
  rw [bne_iff_ne]
  rintro rfl
  exact h hc

theorem eq_of_breakAtGap {text : List Char} (h : breakAtGap text = some (first, second)) :
    text = first ++ ':' :: ':' :: second := by
  induction text generalizing first with
  | nil => cases h
  | cons c text ih =>
    unfold breakAtGap at h
    split at h
    · cases h
    · next heq =>
      obtain ⟨rfl, rfl⟩ := Prod.mk.inj (Option.some.inj h)
      exact heq
    · next heq =>
      obtain ⟨rfl, rfl⟩ := List.cons.inj heq
      obtain ⟨⟨front, back⟩, hbreak, hparts⟩ := Option.map_eq_some_iff.mp h
      obtain ⟨rfl, rfl⟩ := Prod.mk.inj hparts
      rw [ih hbreak, List.cons_append]

theorem exists_of_isName (h : isPathShaped.isName word) :
    ∃ c tail, word = c :: tail ∧ Ascii.isWordStart c ∧ ':' ∉ word := by
  unfold isPathShaped.isName at h
  split at h
  · simp at h
  · next c tail =>
    obtain ⟨hc, htail⟩ := Bool.and_eq_true_iff.mp h
    refine ⟨c, tail, rfl, hc, ?_⟩
    rw [List.mem_cons, not_or]
    refine ⟨?_, by simpa using htail⟩
    rintro rfl
    exact absurd hc (by decide)

/-- A name behind a gap is a group if an address takes it as a whole, and it ends there. -/
theorem isGroup_of_moreGroups (hname : isPathShaped.isName second) (hrest : EndsWord rest)
    (h : moreGroups (left + 2) true afterColon (second ++ rest) = some second.length) :
    IsWord second ∧ IsGroup second := by
  obtain ⟨c, tail, rfl, hc, hcolon⟩ := exists_of_isName hname
  -- The name starts with a word, and is all of it, since no word goes on behind the name.
  obtain ⟨word, behind, hsplit, hword, hend⟩ : ∃ word behind,
      (c :: tail) ++ rest = word ++ behind ∧ IsWord word ∧ EndsWord behind :=
    ⟨_, _, List.takeWhile_append_dropWhile.symm, isWord_takeWhile hc, endsWord_dropWhile _⟩
  rw [hsplit] at h
  by_cases hgroup : IsGroup word
  · rw [moreGroups_of_group hword hend hgroup] at h
    obtain ⟨-, hlength⟩ | ⟨hgap, -⟩ | ⟨d, more, k, rfl, -, -, -, hlength⟩ := behindGroup_cases h
    · obtain ⟨rfl, -⟩ := List.append_inj hsplit hlength
      exact ⟨hword, hgroup⟩
    · cases hgap
    · -- Another group would be behind a colon, and a name has none.
      have hmem : ':' ∈ c :: tail := by
        have hget := congrArg (·[word.length]?) hsplit
        simp only [List.getElem?_append_right (Nat.le_refl _), Nat.sub_self,
          List.getElem?_cons_zero] at hget
        rw [List.getElem?_append_left (by omega)] at hget
        exact List.mem_of_getElem? hget
      exact absurd hmem hcolon
  · -- What is taken of a longer word is less than the word.
    obtain ⟨-, hlt⟩ := moreGroups_of_not_group hword hend hgroup _ h
    have hget := congrArg (·[(c :: tail).length]?) hsplit
    simp only [List.getElem?_append_right (Nat.le_refl _), Nat.sub_self] at hget
    rw [List.getElem?_append_left hlt, ← List.head?_eq_getElem?] at hget
    have hnot := hrest _ (hget.trans (List.getElem?_eq_getElem hlt))
    rw [hword.chars _ (List.getElem_mem hlt)] at hnot
    cases hnot

/-- An address of the shape of a path, behind which no word goes on, is two words that are
groups. -/
theorem exists_words_of_isPathShaped {text : List Char} (h : groupsMatcher text = some n)
    (hshape : isPathShaped (text.take n)) (hend : EndsWord (text.drop n)) :
    ∃ first second, text.take n = first ++ ':' :: ':' :: second ∧ IsWord first ∧ IsWord second ∧
      IsGroup first ∧ IsGroup second := by
  unfold isPathShaped at hshape
  split at hshape
  · cases hshape
  next first second hbreak =>
  obtain ⟨hfirst, hsecond⟩ := Bool.and_eq_true_iff.mp hshape
  have htake := eq_of_breakAtGap hbreak
  have htext : text = first ++ ':' :: ':' :: (second ++ text.drop n) := by
    calc text = text.take n ++ text.drop n := (List.take_append_drop n text).symm
      _ = first ++ ':' :: ':' :: (second ++ text.drop n) := by rw [htake]; simp
  obtain ⟨c, tail, rfl, hc, hcolon⟩ := exists_of_isName hfirst
  obtain ⟨word, behind, hsplit, hword, -⟩ := exists_word_of_groupsMatcher hc (htext ▸ h)
  obtain rfl : c :: tail = word := by
    rw [← takeWhile_path hcolon, ← takeWhile_path (hword.not_mem (by decide)), ← hsplit]
    rfl
  have hlength : n = (c :: tail).length + 2 + second.length := by
    have hle := bounded_groupsMatcher h
    have hlengths := congrArg List.length htake
    rw [List.length_take, Nat.min_eq_left hle, List.length_append] at hlengths
    simp only [List.length_cons] at hlengths ⊢
    omega
  obtain ⟨hmatch, hnone⟩ := @groupsMatcher_gap _ (second ++ text.drop n) hword
  rw [← htext] at hmatch hnone
  have hgroup : IsGroup (c :: tail) := by
    by_contra hgroup
    rw [hnone hgroup] at h
    cases h
  rw [hmatch hgroup, Option.some.injEq] at h
  have hsome : moreGroups 7 true true (second ++ text.drop n) = some second.length := by
    cases hmore : moreGroups 7 true true (second ++ text.drop n) with
    | none =>
      obtain ⟨d, more, rfl, -⟩ := exists_of_isName hsecond
      rw [hmore, Option.getD_none] at h
      simp only [List.length_cons] at h hlength
      omega
    | some k =>
      rw [hmore, Option.getD_some] at h
      rw [Option.some.injEq]
      omega
  obtain ⟨hword', hgroup'⟩ := isGroup_of_moreGroups hsecond hend hsome
  exact ⟨_, second, htake, hword, hword', hgroup, hgroup'⟩

end Address

end PipelineLang
