import PipelineLang.Proofs.Address.Groups
import PipelineLang.Proofs.Address.Spelling

/-!
# The longest address in groups

An address in groups is read from left to right, and nothing of it is given back. So a run of
hexadecimal digits is taken as a whole, and where a dotted quad may stand a quad is taken before
a group. Among the addresses that respect this, the longest one is taken.

## Main definitions

- `Address.Group.IsWhole` — no more of a group could be taken from the text that it stands in
- `Address.Continues` — what an address goes on with
- `Address.Spelling.IsWhole` — the last group of an address is whole

## Main results

- `Address.continues_of_moreGroups`, `Address.Continues.exists_moreGroups` — the groups that
  are taken, and the groups that are long enough
- `Address.isLongest_groupsMatcher` — the longest whole address is taken
- `Address.isLongest_longAddresses_iff` — when it is the longest of all addresses
- `Address.exists_spelling_take` — what is taken is an address

## Design notes

Only the last group of an address can be one that is not whole: a colon is behind each of the
others. A text may start with addresses and yet with none that is whole. Then no address is
taken, as from `1:2:3:4:5:6:7:1.2.3.4`, which has one group too many for a quad.
-/

namespace PipelineLang

/-- A word of the language is no longer than what is taken. -/
theorem Matcher.TakesLongest.exists_le {m : Matcher} {language : Language Char}
    (h : m.TakesLongest language) {word text : List Char} (hword : word ∈ language)
    (hpre : word <+: text) : ∃ n, m text = some n ∧ word.length ≤ n := by
  cases hm : m text with
  | none => exact absurd hpre (h.of_none hm word hword)
  | some n => exact ⟨n, rfl, (h.of_some hm).2 word hword hpre⟩

namespace Address

open Matcher

variable {text rest word : List Char} {left n : Nat} {gap : Bool}

/-! ### Dotted quads -/

theorem mem_quadLanguage : word ∈ quadLanguage ↔ ∃ quad : Quad, quad.text = word := by
  constructor
  · rintro ⟨-, ⟨-, ⟨-, ⟨-, ⟨-, ⟨first, hfirst, -, ⟨p, hp, rfl⟩, rfl⟩, second, hsecond, rfl⟩,
      -, ⟨q, hq, rfl⟩, rfl⟩, third, hthird, rfl⟩, -, ⟨r, hr, rfl⟩, rfl⟩, fourth, hfourth, rfl⟩
    obtain rfl := beq_iff_eq.mp hp
    obtain rfl := beq_iff_eq.mp hq
    obtain rfl := beq_iff_eq.mp hr
    exact ⟨⟨⟨first, hfirst⟩, ⟨second, hsecond⟩, ⟨third, hthird⟩, ⟨fourth, hfourth⟩⟩,
      by simp [Quad.text_eq]⟩
  · rintro ⟨quad, rfl⟩
    have hpoint : ['.'] ∈ Words.mark '.' := ⟨'.', rfl, rfl⟩
    have htext : quad.text = quad.first.digits ++ ['.'] ++ quad.second.digits ++ ['.'] ++
        quad.third.digits ++ ['.'] ++ quad.fourth.digits := by
      simp [quad.text_eq]
    rw [htext]
    exact Language.append_mem_mul (Language.append_mem_mul (Language.append_mem_mul
      (Language.append_mem_mul (Language.append_mem_mul (Language.append_mem_mul
        quad.first.digits_mem hpoint) quad.second.digits_mem) hpoint) quad.third.digits_mem)
        hpoint) quad.fourth.digits_mem

theorem quadMatcher_eq_none_iff :
    quadMatcher text = none ↔ ∀ quad : Quad, ¬ quad.text <+: text := by
  constructor
  · exact fun h quad => takesLongest_quad.of_none h _ (mem_quadLanguage.mpr ⟨quad, rfl⟩)
  · intro h
    by_contra hsome
    obtain ⟨n, hn⟩ := Option.ne_none_iff_exists'.mp hsome
    obtain ⟨⟨word, hword, hpre, -⟩, -⟩ := takesLongest_quad.of_some hn
    obtain ⟨quad, rfl⟩ := mem_quadLanguage.mp hword
    exact h quad hpre

theorem exists_quad (h : quadMatcher text = some n) : ∃ quad : Quad, quad.text = text.take n := by
  obtain ⟨⟨word, hword, hpre, rfl⟩, -⟩ := takesLongest_quad.of_some h
  obtain ⟨quad, rfl⟩ := mem_quadLanguage.mp hword
  exact ⟨quad, List.prefix_iff_eq_take.mp hpre⟩

theorem Quad.exists_quadMatcher (quad : Quad) (rest : List Char) :
    ∃ n, quadMatcher (quad.text ++ rest) = some n ∧ quad.text.length ≤ n :=
  takesLongest_quad.exists_le (mem_quadLanguage.mpr ⟨quad, rfl⟩) (List.prefix_append _ _)

/-! ### Groups -/

/-- No more of a group could be taken from the text before `rest`, and no dotted quad. -/
structure Group.IsWhole (group : Group) (rest : List Char) : Prop where
  isHexDigit_head : ∀ c ∈ rest.head?, Ascii.isHexDigit c = false
  not_quad : ∀ quad : Quad, ¬ quad.text <+: group.digits ++ rest

theorem Group.isWhole_colon (group : Group) (rest : List Char) : group.IsWhole (':' :: rest) where
  isHexDigit_head := by rintro - ⟨⟩; decide
  not_quad quad hpre := by
    have hpoint : '.' ∉ group.digits := group.not_mem (by decide)
    obtain hshort | ⟨tail, htail⟩ :=
      List.prefix_or_prefix_of_prefix hpre (List.prefix_append group.digits _)
    · exact hpoint (hshort.subset quad.point_mem)
    · rw [← htail, List.prefix_append_right_inj] at hpre
      cases tail with
      | nil =>
        rw [List.append_nil] at htail
        exact hpoint (htail ▸ quad.point_mem)
      | cons c tail =>
        obtain rfl := (List.cons_prefix_cons.mp hpre).1
        exact quad.colon_not_mem (htail ▸ List.mem_append_right _ List.mem_cons_self)

/-- What comes of a whole group. -/
theorem Group.IsWhole.moreGroups_eq {group : Group} (h : group.IsWhole rest) (left : Nat)
    (gap : Bool) :
    moreGroups (left + 1) gap true (group.digits ++ rest) =
      if left = 0 then (if gap then none else some group.digits.length)
      else behindGroup left gap group.digits.length rest := by
  have hdigits : (group.digits ++ rest).takeWhile Ascii.isHexDigit = group.digits := by
    rw [takeWhile_append_of_head h.isHexDigit_head, List.takeWhile_eq_self_iff]
    exact group.isHexDigit
  have hpos : group.digits.length ≠ 0 := Nat.ne_of_gt group.digits_mem.1
  have hmost : ¬ 4 < group.digits.length := Nat.not_lt.mpr group.digits_mem.2.1
  rw [moreGroups_succ, if_pos rfl, quadMatcher_eq_none_iff.mpr h.not_quad, hdigits]
  simp only [hpos, hmost, decide_false, Bool.or_false, Bool.false_eq_true, if_false, List.drop_left]

/-- Where more groups start with no dotted quad, they start with a whole group. -/
theorem exists_isWhole (hquad : quadMatcher text = none)
    (h : moreGroups (left + 1) gap true text = some n) :
    ∃ group rest, text = Group.digits group ++ rest ∧ group.IsWhole rest := by
  have hdigits : 1 ≤ (text.takeWhile Ascii.isHexDigit).length ∧
      (text.takeWhile Ascii.isHexDigit).length ≤ 4 := by
    rw [moreGroups_succ, if_pos rfl, hquad] at h
    dsimp only at h
    split at h
    · simp at h
    · next hsize =>
      simp only [Bool.or_eq_true, decide_eq_true_eq, not_or] at hsize
      omega
  have htext : text = text.takeWhile Ascii.isHexDigit ++ text.dropWhile Ascii.isHexDigit :=
    (List.takeWhile_append_dropWhile).symm
  refine ⟨⟨_, hdigits.1, hdigits.2, fun c hc => List.mem_takeWhile_imp hc⟩, _, htext, ?_, ?_⟩
  · intro c hc
    have := List.head?_dropWhile_not Ascii.isHexDigit text
    rw [Option.mem_def.mp hc] at this
    simpa using this
  · rw [← htext]
    exact quadMatcher_eq_none_iff.mp hquad

theorem exists_behindGroup (left digits : Nat) (rest : List Char) :
    ∃ n, behindGroup left true digits rest = some n ∧ digits ≤ n := by
  have hsome : (behindGroup left true digits rest).isSome := by
    by_cases hend : ∀ c tail, rest ≠ ':' :: c :: tail
    · simp [behindGroup_end hend]
    · simp only [ne_eq, not_forall, Classical.not_not] at hend
      obtain ⟨c, tail, rfl⟩ := hend
      by_cases hc : c = ':'
      · simp [hc, behindGroup_gap]
      · rw [behindGroup_colon hc]
        split <;> simp
  obtain ⟨n, hn⟩ := Option.isSome_iff_exists.mp hsome
  exact ⟨n, hn, le_of_behindGroup hn⟩

/-! ### What an address goes on with -/

/-- Where at most `left` groups may follow, `size` groups end an address: exactly as many
without a gap, and less behind one. -/
def Fits (left : Nat) (gap : Bool) (size : Nat) : Prop := if gap then size < left else size = left

theorem fits_succ {size : Nat} : Fits (left + 1) gap (size + 1) ↔ Fits left gap size := by
  cases gap <;> simp [Fits]

theorem Fits.le {size : Nat} (h : Fits left gap size) : size ≤ left := by
  cases gap with
  | false => exact Nat.le_of_eq h
  | true => exact Nat.le_of_lt h

/-- With `word`, which is followed by `rest`, an address goes on that may have `left` groups to
come. -/
inductive Continues (rest : List Char) : (left : Nat) → (gap : Bool) → (word : List Char) → Prop
  | quad (quad : Quad) {left gap} (fits : Fits left gap 2) : Continues rest left gap quad.text
  | last {group : Group} (whole : group.IsWhole rest) {left gap} (fits : Fits left gap 1) :
      Continues rest left gap group.digits
  | more (group : Group) {left gap word} (behind : Continues rest left gap word) :
      Continues rest (left + 1) gap (group.digits ++ ':' :: word)
  | gapEnd (group : Group) (left : Nat) :
      Continues rest (left + 2) false (group.digits ++ [':', ':'])
  | gap (group : Group) {left word} (behind : Continues rest left true word) :
      Continues rest (left + 1) false (group.digits ++ ':' :: ':' :: word)

namespace Continues

theorem pos (h : Continues rest left gap word) : 0 < left := by
  cases h with
  | quad _ fits | last _ fits => exact Nat.lt_of_lt_of_le (by decide) fits.le
  | more | gapEnd | gap => exact Nat.succ_pos _

theorem exists_head (h : Continues rest left gap word) :
    ∃ c tail, word = c :: tail ∧ Ascii.isHexDigit c := by
  have hgroup : ∀ (group : Group) (behind : List Char),
      ∃ c tail, group.digits ++ behind = c :: tail ∧ Ascii.isHexDigit c := by
    intro group behind
    have hhex := group.isHexDigit
    obtain ⟨c, tail, heq⟩ := List.exists_cons_of_ne_nil group.ne_nil
    exact ⟨c, tail ++ behind, by rw [heq]; rfl, hhex c (heq ▸ List.mem_cons_self)⟩
  cases h with
  | quad quad =>
    have hdigit := quad.first.isDigit
    obtain ⟨c, tail, heq⟩ := List.exists_cons_of_ne_nil quad.first.ne_nil
    refine ⟨c, _, by rw [quad.text_eq, heq, List.cons_append], ?_⟩
    simp [Ascii.isHexDigit, hdigit c (heq ▸ List.mem_cons_self)]
  | @last group =>
    obtain ⟨c, tail, heq, hc⟩ := hgroup group []
    exact ⟨c, tail, by rwa [List.append_nil] at heq, hc⟩
  | more group | gapEnd group | gap group => exact hgroup group _

/-- As much is taken as an address goes on with. -/
theorem exists_moreGroups (h : Continues rest left gap word) :
    ∃ n, moreGroups left gap true (word ++ rest) = some n ∧ word.length ≤ n := by
  induction h with
  | @quad quad left gap fits =>
    obtain ⟨n, hn, hle⟩ := quad.exists_quadMatcher rest
    obtain ⟨left, rfl⟩ := Nat.exists_eq_add_of_le' (Nat.le_of_succ_le fits.le)
    refine ⟨n, ?_, hle⟩
    have hfits : if gap then 2 ≤ left else left = 1 := by
      cases gap with
      | false => exact (fits_succ.mp fits).symm
      | true => exact fits_succ.mp fits
    rw [moreGroups_succ, if_pos rfl, hn]
    dsimp only
    rw [if_pos hfits]
  | @last group whole left gap fits =>
    cases gap with
    | true =>
      obtain ⟨left, rfl⟩ : ∃ k, left = k + 1 + 1 := Nat.exists_eq_add_of_le' fits
      obtain ⟨n, hn, hle⟩ := exists_behindGroup (left + 1) group.digits.length rest
      exact ⟨n, by rw [whole.moreGroups_eq, if_neg (Nat.succ_ne_zero left), hn], hle⟩
    | false =>
      obtain rfl : 1 = left := fits
      exact ⟨_, whole.moreGroups_eq 0 false, Nat.le_refl _⟩
  | @more group left gap word behind ih =>
    obtain ⟨n, hn, hle⟩ := ih
    obtain ⟨c, tail, rfl, hc⟩ := behind.exists_head
    have hcolon : c ≠ ':' := by
      rintro rfl
      exact absurd hc (by decide)
    refine ⟨group.digits.length + 1 + n, ?_, ?_⟩
    · rw [List.append_assoc, List.cons_append, (group.isWhole_colon _).moreGroups_eq,
        if_neg (Nat.ne_of_gt behind.pos), List.cons_append, behindGroup_colon hcolon, if_pos hc,
        ← List.cons_append, hn]
      rfl
    · rw [List.length_append, List.length_cons]
      omega
  | gapEnd group left =>
    rw [List.append_assoc, List.cons_append, List.cons_append,
      (group.isWhole_colon _).moreGroups_eq, if_neg (Nat.succ_ne_zero left), behindGroup_gap]
    refine ⟨_, rfl, ?_⟩
    simp only [List.length_append, List.length_cons, List.length_nil]
    omega
  | @gap group left word behind ih =>
    obtain ⟨n, hn, hle⟩ := ih
    refine ⟨group.digits.length + 2 + n, ?_, ?_⟩
    · rw [List.append_assoc, List.cons_append, List.cons_append,
        (group.isWhole_colon _).moreGroups_eq, if_neg (Nat.ne_of_gt behind.pos), behindGroup_gap,
        hn]
      rfl
    · rw [List.length_append, List.length_cons, List.length_cons]
      omega

end Continues

/-- What is taken is what an address goes on with. -/
theorem continues_of_moreGroups (h : moreGroups left gap true text = some n) :
    Continues (text.drop n) left gap (text.take n) := by
  induction left generalizing gap text n with
  | zero => simp [moreGroups] at h
  | succ left ih =>
    cases hquad : quadMatcher text with
    | some k =>
      rw [moreGroups_succ, if_pos rfl, hquad] at h
      dsimp only at h
      rw [Option.ite_none_right_eq_some] at h
      obtain ⟨hfits, hk⟩ := h
      obtain rfl := Option.some.inj hk
      obtain ⟨quad, htext⟩ := exists_quad hquad
      rw [← htext]
      refine .quad quad (fits_succ.mpr ?_)
      cases gap with
      | false => exact (hfits : left = 1).symm
      | true => exact hfits
    | none =>
      obtain ⟨group, rest, rfl, hwhole⟩ := exists_isWhole hquad h
      rw [hwhole.moreGroups_eq] at h
      split at h
      · next hleft =>
        subst hleft
        cases gap with
        | true => simp at h
        | false =>
          obtain rfl := Option.some.inj h
          rw [List.take_left, List.drop_left]
          exact .last hwhole (fits_succ.mpr rfl)
      next hleft =>
      obtain ⟨rfl, rfl⟩ | ⟨rfl, tail, rfl, rfl⟩ | ⟨c, tail, k, rfl, -, -, hk, rfl⟩ :=
        behindGroup_cases h
      · rw [List.take_left, List.drop_left]
        exact .last hwhole (fits_succ.mpr (Nat.pos_of_ne_zero hleft))
      · rw [List.take_length_add_append, List.drop_length_add_append, Nat.add_comm 2,
          List.take_succ_cons, List.take_succ_cons, List.drop_succ_cons, List.drop_succ_cons]
        cases hmore : moreGroups left true true tail with
        | none =>
          obtain ⟨left, rfl⟩ := Nat.exists_eq_succ_of_ne_zero hleft
          exact .gapEnd group left
        | some k => exact .gap group (ih hmore)
      · rw [List.take_length_add_append, List.drop_length_add_append, Nat.add_comm 1,
          List.take_succ_cons, List.drop_succ_cons]
        exact .more group (ih hk)

/-! ### Addresses -/

/-- The last group is whole, if no dotted quad is behind it. -/
def GroupRun.IsWhole (run : GroupRun) (rest : List Char) : Prop :=
  run.quad = none → ∀ group ∈ run.groups.getLast?, group.IsWhole rest

namespace GroupRun

theorem parts_cons (group : Group) (groups : List Group) (quad : Option Quad) :
    (GroupRun.mk (group :: groups) quad).parts = group.digits :: (GroupRun.mk groups quad).parts :=
  rfl

theorem text_singleton (group : Group) : (GroupRun.mk [group] none).text = group.digits :=
  List.intercalate_singleton

theorem text_quad (quad : Quad) : (GroupRun.mk [] (some quad)).text = quad.text :=
  List.intercalate_singleton

theorem text_cons (group : Group) {groups : List Group} {quad : Option Quad}
    (h : (GroupRun.mk groups quad).parts ≠ []) :
    (GroupRun.mk (group :: groups) quad).text =
      group.digits ++ ':' :: (GroupRun.mk groups quad).text := by
  obtain ⟨part, parts, hparts⟩ := List.exists_cons_of_ne_nil h
  rw [text, text, parts_cons, hparts, List.intercalate_cons_cons, List.append_assoc]
  rfl

theorem size_cons (group : Group) (groups : List Group) (quad : Option Quad) :
    (GroupRun.mk (group :: groups) quad).size = (GroupRun.mk groups quad).size + 1 := by
  simp only [size, List.length_cons]
  omega

theorem IsWhole.of_cons {group : Group} {groups : List Group} {quad : Option Quad}
    (h : (GroupRun.mk (group :: groups) quad).IsWhole rest) :
    (GroupRun.mk groups quad).IsWhole rest := by
  intro hquad last hlast
  refine h hquad last ?_
  rw [List.getLast?_cons, Option.mem_def.mp hlast]
  rfl

theorem IsWhole.cons {groups : List Group} {quad : Option Quad} (group : Group)
    (h : (GroupRun.mk groups quad).IsWhole rest) (hne : (GroupRun.mk groups quad).parts ≠ []) :
    (GroupRun.mk (group :: groups) quad).IsWhole rest := by
  intro hquad last hlast
  refine h hquad last ?_
  obtain rfl : quad = none := hquad
  obtain ⟨second, groups, rfl⟩ : ∃ second more, groups = second :: more :=
    List.exists_cons_of_ne_nil fun hnil => hne (by rw [hnil]; rfl)
  rwa [List.getLast?_cons_cons] at hlast

/-- With groups that are as many as have to come, an address goes on. -/
theorem continues {run : GroupRun} (hne : run.parts ≠ []) (hwhole : run.IsWhole rest)
    (hsize : Fits left gap run.size) : Continues rest left gap run.text := by
  obtain ⟨groups, quad⟩ := run
  induction groups generalizing left with
  | nil =>
    cases quad with
    | none => exact absurd rfl hne
    | some quad =>
      rw [text_quad]
      exact .quad quad (by simpa [size] using hsize)
  | cons group groups ih =>
    by_cases hbehind : (GroupRun.mk groups quad).parts = []
    · obtain ⟨hgroups, hquad⟩ := List.append_eq_nil_iff.mp hbehind
      obtain rfl := List.map_eq_nil_iff.mp hgroups
      cases quad with
      | some quad => simp at hquad
      | none =>
        rw [text_singleton]
        exact .last (hwhole rfl group rfl) (by simpa [size] using hsize)
    · rw [text_cons group hbehind]
      rw [size_cons] at hsize
      obtain ⟨left, rfl⟩ := Nat.exists_eq_add_of_le' (Nat.le_of_add_left_le hsize.le)
      exact .more group (ih hbehind hwhole.of_cons (fits_succ.mp hsize))

/-- With groups before and behind a `::` an address goes on. -/
theorem continues_gap {back : GroupRun} (hwhole : back.IsWhole rest) (group : Group)
    (front : List Group) (hsize : front.length + 1 + back.size < left) :
    Continues rest left false
      ((GroupRun.mk (group :: front) none).text ++ ':' :: ':' :: back.text) := by
  induction front generalizing left group with
  | nil =>
    rw [text_singleton]
    by_cases hback : back.parts = []
    · obtain ⟨left, rfl⟩ : ∃ k, left = k + 2 := ⟨left - 2, by simp at hsize; omega⟩
      rw [back.text_eq_nil_iff.mpr hback]
      exact .gapEnd group left
    · obtain ⟨left, rfl⟩ : ∃ k, left = k + 1 := ⟨left - 1, by omega⟩
      refine .gap group (continues hback hwhole ?_)
      rw [List.length_nil] at hsize
      exact show back.size < left by omega
  | cons second front ih =>
    obtain ⟨left, rfl⟩ : ∃ k, left = k + 1 := ⟨left - 1, by omega⟩
    rw [text_cons group (by simp [parts]), List.append_assoc, List.cons_append]
    rw [List.length_cons] at hsize
    exact .more group (ih second (by omega))

end GroupRun

/-- What an address goes on with are groups, or groups before and behind a `::`. -/
theorem Continues.exists_run (h : Continues rest left gap word) :
    (∃ run : GroupRun, run.parts ≠ [] ∧ Fits left gap run.size ∧ run.text = word ∧
        run.IsWhole rest) ∨
      gap = false ∧ ∃ front back, front ≠ [] ∧ front.length + GroupRun.size back < left ∧
        (GroupRun.mk front none).text ++ ':' :: ':' :: back.text = word ∧ back.IsWhole rest := by
  induction h with
  | quad quad fits =>
    refine .inl ⟨⟨[], some quad⟩, by simp [GroupRun.parts], fits, GroupRun.text_quad quad, ?_⟩
    rintro ⟨⟩
  | @last group whole left gap fits =>
    refine .inl ⟨⟨[group], none⟩, by simp [GroupRun.parts], fits, GroupRun.text_singleton group, ?_⟩
    rintro - other ⟨⟩
    exact whole
  | more group behind ih =>
    obtain ⟨⟨groups, quad⟩, hne, hsize, rfl, hwhole⟩ |
      ⟨hgap, front, back, hne, hsize, rfl, hwhole⟩ := ih
    · refine .inl ⟨⟨group :: groups, quad⟩, ?_, ?_, GroupRun.text_cons group hne,
        hwhole.cons group hne⟩
      · simp [GroupRun.parts_cons]
      · rw [GroupRun.size_cons]
        exact fits_succ.mpr hsize
    · refine .inr ⟨hgap, group :: front, back, by simp, ?_, ?_, hwhole⟩
      · rw [List.length_cons]
        omega
      · rw [GroupRun.text_cons group (by simpa [GroupRun.parts] using hne), List.append_assoc]
        rfl
  | gapEnd group left =>
    refine .inr ⟨rfl, [group], ⟨[], none⟩, by simp, by simp [GroupRun.size], ?_, ?_⟩
    · rw [GroupRun.text_singleton]
      rfl
    · rintro - other ⟨⟩
  | gap group behind ih =>
    obtain ⟨back, -, hsize, rfl, hwhole⟩ | ⟨hgap, -⟩ := ih
    · refine .inr ⟨rfl, [group], back, by simp, ?_, ?_, hwhole⟩
      · have hless : back.size < _ := hsize
        rw [List.length_singleton]
        omega
      · rw [GroupRun.text_singleton]
    · simp at hgap

namespace Spelling

/-- An address in groups. -/
def IsLong : Spelling → Prop
  | .quad _ => False
  | .full _ _ | .gap _ _ _ => True

/-- The last group of an address is whole. -/
def IsWhole (rest : List Char) : Spelling → Prop
  | .quad _ => True
  | .full run _ => run.IsWhole rest
  | .gap _ back _ => back.IsWhole rest

end Spelling

/-- The texts of addresses in groups. -/
def longAddresses : Language Char :=
  {word | ∃ spelling : Spelling, spelling.IsLong ∧ spelling.text = word}

/-- The texts of whole addresses in groups, as far as they stand at the head of `text`. -/
def wholeAddresses (text : List Char) : Language Char :=
  {word | ∃ spelling : Spelling, spelling.IsLong ∧ spelling.text = word ∧
    spelling.IsWhole (text.drop word.length)}

/-- An address in groups starts with no quad. -/
theorem moreGroups_first (text : List Char) :
    moreGroups 8 false false text = moreGroups 8 false true text := by
  cases hquad : quadMatcher text with
  | none =>
    rw [moreGroups_succ, moreGroups_succ, if_neg Bool.false_ne_true, if_pos rfl, hquad]
  | some n =>
    obtain ⟨quad, htext⟩ := exists_quad hquad
    obtain ⟨tail, rfl⟩ : quad.text <+: text := htext ▸ List.take_prefix n text
    have hhead : quad.first.digits.takeWhile Ascii.isHexDigit = quad.first.digits := by
      rw [List.takeWhile_eq_self_iff]
      intro c hc
      simp [Ascii.isHexDigit, quad.first.isDigit c hc]
    have hright : moreGroups 8 false true (quad.text ++ tail) = none := by
      rw [moreGroups_succ, if_pos rfl, hquad]
      rfl
    rw [hright, moreGroups_succ, if_neg Bool.false_ne_true, quad.text_eq, List.append_assoc,
      takeWhile_append_of_head (by rintro - ⟨⟩; decide), hhead]
    dsimp only
    rw [List.drop_left]
    split
    · rfl
    · rw [List.cons_append, if_neg (by decide), behindGroup_of_head (by simp),
        if_neg Bool.false_ne_true]

theorem groupsMatcher_gap_eq (text : List Char) :
    groupsMatcher (':' :: ':' :: text) = some (2 + (moreGroups 8 true true text).getD 0) := rfl

/-- What is taken is a whole address. -/
theorem mem_wholeAddresses (h : groupsMatcher text = some n) :
    text.take n ∈ wholeAddresses text := by
  have hlength : (text.take n).length = n := List.length_take_of_le (bounded_groupsMatcher h)
  suffices hspells : ∃ spelling : Spelling, spelling.IsLong ∧ spelling.text = text.take n ∧
      spelling.IsWhole (text.drop n) by
    obtain ⟨spelling, hlong, htext, hwhole⟩ := hspells
    exact ⟨spelling, hlong, htext, by rwa [hlength]⟩
  by_cases hopen : ∃ tail, text = ':' :: ':' :: tail
  · obtain ⟨tail, rfl⟩ := hopen
    rw [groupsMatcher_gap_eq] at h
    obtain rfl := Option.some.inj h
    rw [Nat.add_comm, List.take_succ_cons, List.take_succ_cons, List.drop_succ_cons,
      List.drop_succ_cons]
    cases hmore : moreGroups 8 true true tail with
    | none => exact ⟨.gap [] ⟨[], none⟩ (by simp [GroupRun.size]), trivial, rfl, by rintro - _ ⟨⟩⟩
    | some k =>
      obtain ⟨back, -, hsize, htext, hwhole⟩ | ⟨hgap, -⟩ :=
        (continues_of_moreGroups hmore).exists_run
      · have hless : back.size < 8 := hsize
        refine ⟨.gap [] back (by simpa using Nat.le_of_lt_succ hless), trivial, ?_, hwhole⟩
        exact congrArg (fun text => ':' :: ':' :: text) htext
      · simp at hgap
  · rw [not_exists] at hopen
    rw [groupsMatcher_eq hopen, moreGroups_first] at h
    obtain ⟨run, -, hsize, htext, hwhole⟩ | ⟨-, front, back, -, hsize, htext, hwhole⟩ :=
      (continues_of_moreGroups h).exists_run
    · exact ⟨.full run hsize, trivial, htext, hwhole⟩
    · exact ⟨.gap front back (Nat.le_of_lt_succ hsize), trivial, htext, hwhole⟩

/-- No whole address is longer than what is taken. -/
theorem le_groupsMatcher (hword : word ∈ wholeAddresses text) (hpre : word <+: text) :
    ∃ n, groupsMatcher text = some n ∧ word.length ≤ n := by
  obtain ⟨spelling, hlong, rfl, hwhole⟩ := hword
  obtain ⟨rest, rfl⟩ := hpre
  rw [List.drop_left] at hwhole
  -- An address that starts with a group goes on from its start.
  have hgroups : ∀ {word}, Continues rest 8 false word →
      ∃ n, groupsMatcher (word ++ rest) = some n ∧ word.length ≤ n := by
    intro word h
    obtain ⟨c, tail, hword, hc⟩ := h.exists_head
    have hopen : ∀ behind, word ++ rest ≠ ':' :: ':' :: behind := by
      intro behind heq
      rw [hword, List.cons_append] at heq
      rw [(List.cons.inj heq).1] at hc
      exact absurd hc (by decide)
    rw [groupsMatcher_eq hopen, moreGroups_first]
    exact h.exists_moreGroups
  cases spelling with
  | quad => exact hlong.elim
  | full run hsize =>
    have hne : run.parts ≠ [] := by
      rw [ne_eq, ← run.text_eq_nil_iff]
      exact List.ne_nil_of_mem (Spelling.colon_mem_full hsize)
    exact hgroups (GroupRun.continues hne hwhole hsize)
  | gap front back hsize =>
    cases front with
    | cons group front =>
      rw [List.length_cons] at hsize
      exact hgroups (GroupRun.continues_gap hwhole group front (Nat.lt_succ_of_le hsize))
    | nil =>
      have htext : (Spelling.gap [] back hsize).text = ':' :: ':' :: back.text := rfl
      rw [htext, List.cons_append, List.cons_append, groupsMatcher_gap_eq]
      refine ⟨_, rfl, ?_⟩
      by_cases hback : back.parts = []
      · rw [back.text_eq_nil_iff.mpr hback]
        exact Nat.le_add_right 2 _
      · have hless : back.size < 8 := by simpa using Nat.lt_succ_of_le hsize
        obtain ⟨n, hn, hle⟩ := (GroupRun.continues hback hwhole hless :
          Continues rest 8 true back.text).exists_moreGroups
        rw [hn, Option.getD_some, List.length_cons, List.length_cons]
        omega

/-- An address in groups that is taken is the longest whole one, and none is taken only where
there is no whole one. -/
theorem isLongest_groupsMatcher (text : List Char) :
    IsLongest (wholeAddresses text) text (groupsMatcher text) := by
  cases h : groupsMatcher text with
  | none =>
    intro word hword hpre
    obtain ⟨n, hn, -⟩ := le_groupsMatcher hword hpre
    rw [h] at hn
    simp at hn
  | some n =>
    refine ⟨⟨_, mem_wholeAddresses h, List.take_prefix n text,
      List.length_take_of_le (bounded_groupsMatcher h)⟩, fun word hword hpre => ?_⟩
    obtain ⟨m, hm, hle⟩ := le_groupsMatcher hword hpre
    rw [h] at hm
    rwa [Option.some.inj hm]

/-- It is the longest of all addresses in groups exactly where a text that starts with an address
that is not whole starts with a whole one that is no shorter. -/
theorem isLongest_longAddresses_iff (text : List Char) :
    IsLongest longAddresses text (groupsMatcher text) ↔
      ∀ word ∈ longAddresses, word <+: text →
        ∃ whole ∈ wholeAddresses text, whole <+: text ∧ word.length ≤ whole.length := by
  have hlong : ∀ {word}, word ∈ wholeAddresses text → word ∈ longAddresses :=
    fun ⟨spelling, hlong, htext, _⟩ => ⟨spelling, hlong, htext⟩
  have hwhole := isLongest_groupsMatcher text
  cases h : groupsMatcher text with
  | none =>
    rw [h] at hwhole
    constructor
    · exact fun hnone word hword hpre => absurd hpre (hnone word hword)
    · intro hshort word hword hpre
      obtain ⟨whole, hmem, hpre, -⟩ := hshort word hword hpre
      exact hwhole whole hmem hpre
  | some n =>
    rw [h] at hwhole
    obtain ⟨⟨taken, htaken, htakenpre, rfl⟩, hmost⟩ := hwhole
    constructor
    · exact fun hlongest word hword hpre => ⟨taken, htaken, htakenpre, hlongest.2 word hword hpre⟩
    · refine fun hshort => ⟨⟨taken, hlong htaken, htakenpre, rfl⟩, fun word hword hpre => ?_⟩
      obtain ⟨whole, hmem, hwholepre, hle⟩ := hshort word hword hpre
      exact hle.trans (hmost whole hmem hwholepre)

/-- Seven groups and a quad are one group too many, and the group that the quad starts with is
not whole. -/
example : groupsMatcher "1:2:3:4:5:6:7:1.2.3.4".toList = none := by decide

/-- What is taken as an address is one. -/
theorem exists_spelling_take (h : quadMatcher text = some n ∨ groupsMatcher text = some n) :
    ∃ spelling : Spelling, spelling.text = text.take n := by
  obtain hquad | hgroups := h
  · obtain ⟨quad, htext⟩ := exists_quad hquad
    exact ⟨.quad quad, htext⟩
  · obtain ⟨spelling, -, htext, -⟩ := mem_wholeAddresses hgroups
    exact ⟨spelling, htext⟩

end Address

end PipelineLang
